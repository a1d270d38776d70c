import Cflobdd.Semantics

/-!
# Boolean algebra on handles

Two expressions over returned diagrams that compute the same boolean function give the
same diagram, whichever is computed first. So every law of boolean algebra holds as an
equality of handles, the laws of negation included.
-/

namespace Cflobdd

open FirstVisit Growing

/-- A boolean expression over diagrams. -/
inductive Expr (ρ : Type) where
  | diagram (f : ρ)
  | true
  | false
  | not (e : Expr ρ)
  | apply (op : BoolOp) (e e' : Expr ρ)
  | connective (c : Connective) (e e' : Expr ρ)

namespace Expr

variable {ρ : Type}

abbrev and (e e' : Expr ρ) : Expr ρ := connective .and e e'

abbrev or (e e' : Expr ρ) : Expr ρ := connective .or e e'

abbrev xor (e e' : Expr ρ) : Expr ρ := connective .xor e e'

abbrev iff (e e' : Expr ρ) : Expr ρ := connective .iff e e'

abbrev implies (e e' : Expr ρ) : Expr ρ := connective .implies e e'

abbrev nand (e e' : Expr ρ) : Expr ρ := connective .nand e e'

abbrev nor (e e' : Expr ρ) : Expr ρ := connective .nor e e'

/-- The program that computes an expression by public calls, from left to right. -/
def compute : Expr Returned → ManagerM Bdd
  | diagram f => return f.bdd
  | true => mkTrue
  | false => mkFalse
  | not e => do
    let x ← e.compute
    Cflobdd.not x
  | apply op e e' => do
    let x ← e.compute
    let y ← e'.compute
    Cflobdd.apply x y op
  | connective c e e' => do
    let x ← e.compute
    let y ← e'.compute
    c.exec x y

/-- The function of an expression. -/
def value : Expr Returned → List Bool → Bool
  | diagram f, a => f.function a
  | true, _ => Bool.true
  | false, _ => Bool.false
  | not e, a => !e.value a
  | apply op e e', a => op.eval (e.value a) (e'.value a)
  | connective c e e', a => c.eval (e.value a) (e'.value a)

/-- The diagrams were returned, and the tables hold zeros and ones. -/
def Over (returned : List Returned) : Expr Returned → Prop
  | diagram f => f ∈ returned
  | true | false => True
  | not e => e.Over returned
  | apply op e e' => op.IsBool ∧ e.Over returned ∧ e'.Over returned
  | connective _ e e' => e.Over returned ∧ e'.Over returned

end Expr

section Compute

variable {m : Manager} {L : ℕ} {returned : List Returned}

/-- An expression computes the diagram of its function. -/
theorem compute_returns (hm : m.Inv) (hL : m.level = L)
    (hreturned : ∀ f ∈ returned, Denotes m L f.bdd fun a => f.function a.toList)
    {e : Expr Returned} (he : e.Over returned) :
    Returns e.compute m fun f m' => Denotes m' L f fun a => e.value a.toList := by
  induction e generalizing m with
  | diagram f => exact Runs.pure hm (hreturned f he)
  | true =>
    subst hL
    exact mkTrue_returns hm
  | false =>
    subst hL
    exact mkFalse_returns hm
  | not e ih =>
    refine Runs.bind (ih hm hL hreturned he) ?_
    intro x m₁ _ hm₁ hx
    exact not_returns hm₁ hx
  | apply op e e' ih ih' =>
    refine Runs.bind (ih hm hL hreturned he.2.1) ?_
    intro x m₁ hle₁ hm₁ hx
    have hL₁ := hle₁.level.trans hL
    refine Runs.bind (ih' hm₁ hL₁ (fun f hf => (hreturned f hf).mono hle₁) he.2.2) ?_
    intro y m₂ hle₂ hm₂ hy
    exact apply_returns hm₂ (hle₂.level.trans hL₁) (hx.mono hle₂) hy he.1
  | connective c e e' ih ih' =>
    refine Runs.bind (ih hm hL hreturned he.1) ?_
    intro x m₁ hle₁ hm₁ hx
    have hL₁ := hle₁.level.trans hL
    refine Runs.bind (ih' hm₁ hL₁ (fun f hf => (hreturned f hf).mono hle₁) he.2) ?_
    intro y m₂ hle₂ hm₂ hy
    exact c.returns hm₂ (hle₂.level.trans hL₁) (hx.mono hle₂) hy

/-- Computed one after the other, the expressions give the same diagram. -/
def SameHandle (m : Manager) (e e' : Expr Returned) : Prop :=
  ∃ f m₁ m₂, e.compute m = .ok f m₁ ∧ e'.compute m₁ = .ok f m₂

/-- Expressions with the same values give the same handle, in either order. -/
theorem sameHandle_of_value_eq {s : Session} (hs : s.Valid L) {e e' : Expr Returned}
    (he : e.Over s.returned) (he' : e'.Over s.returned)
    (heq : ∀ a : List Bool, a.length = 2 ^ L → e.value a = e'.value a) :
    SameHandle s.manager e e' := by
  obtain ⟨f, m₁, hf, hle₁, hm₁, hfe, -⟩ := compute_returns hs.inv hs.level hs.returned he
  obtain ⟨f', m₂, hf', hle₂, -, hfe', -⟩ := compute_returns hm₁ (hle₁.level.trans hs.level)
    (fun x hx => (hs.returned x hx).mono hle₁) he'
  have hfunction : (fun a : Asg L => e.value a.toList) = fun a => e'.value a.toList :=
    funext (forall_toList_iff.mpr heq)
  rw [hfunction] at hfe
  obtain rfl : f = f' := (hfe.mono hle₂).unique hfe'
  exact ⟨f, m₁, m₂, hf, hf'⟩

end Compute

/-- The laws of boolean algebra, as pairs of expressions over `x`, `y` and `z`. -/
inductive Law {ρ : Type} (x y z : Expr ρ) : Expr ρ → Expr ρ → Prop
  | and_comm : Law x y z (.and x y) (.and y x)
  | or_comm : Law x y z (.or x y) (.or y x)
  | and_assoc : Law x y z (.and (.and x y) z) (.and x (.and y z))
  | or_assoc : Law x y z (.or (.or x y) z) (.or x (.or y z))
  | and_self : Law x y z (.and x x) x
  | or_self : Law x y z (.or x x) x
  | and_or_self : Law x y z (.and x (.or x y)) x
  | or_and_self : Law x y z (.or x (.and x y)) x
  | and_or_distrib : Law x y z (.and x (.or y z)) (.or (.and x y) (.and x z))
  | or_and_distrib : Law x y z (.or x (.and y z)) (.and (.or x y) (.or x z))
  | and_true : Law x y z (.and x .true) x
  | or_false : Law x y z (.or x .false) x
  | and_false : Law x y z (.and x .false) .false
  | or_true : Law x y z (.or x .true) .true
  | and_not_self : Law x y z (.and x (.not x)) .false
  | or_not_self : Law x y z (.or x (.not x)) .true
  | not_not : Law x y z (.not (.not x)) x
  | not_and : Law x y z (.not (.and x y)) (.or (.not x) (.not y))
  | not_or : Law x y z (.not (.or x y)) (.and (.not x) (.not y))
  | xor_eq : Law x y z (.xor x y) (.or (.and x (.not y)) (.and (.not x) y))
  | implies_eq : Law x y z (.implies x y) (.or (.not x) y)
  | nand_eq : Law x y z (.nand x y) (.not (.and x y))
  | nor_eq : Law x y z (.nor x y) (.not (.or x y))
  | iff_eq : Law x y z (.iff x y) (.not (.xor x y))
  | apply_transpose (op : BoolOp) (hop : op.IsBool) :
    Law x y z (.apply op x y) (.apply op.transpose y x)

namespace Law

variable {x y z e e' : Expr Returned}

/-- Both sides of a law are expressions over the same diagrams. -/
theorem sides_over {returned : List Returned} (h : Law x y z e e') (hx : x.Over returned)
    (hy : y.Over returned) (hz : z.Over returned) : e.Over returned ∧ e'.Over returned := by
  cases h with
  | apply_transpose op hop => exact ⟨⟨hop, hx, hy⟩, hop.transpose, hy, hx⟩
  | _ => simp [Expr.Over, hx, hy, hz]

/-- Both sides of a law have the same function. -/
theorem value_eq (h : Law x y z e e') (a : List Bool) : e.value a = e'.value a := by
  cases h with
  | apply_transpose op => exact (BoolOp.eval_transpose op (y.value a) (x.value a)).symm
  | _ =>
    cases hx : x.value a <;> cases hy : y.value a <;> cases hz : z.value a <;>
      simp [Expr.value, Connective.eval, hx, hy, hz]

end Law

/-- **Boolean algebra on handles:** in every reachable session, both sides of every law
over returned diagrams give one handle, whichever side is computed first. -/
theorem boolean_algebra {L : ℕ} {s : Session} (hs : Reachable L s) {f g h : Returned}
    (hf : f ∈ s.returned) (hg : g ∈ s.returned) (hh : h ∈ s.returned) {e e' : Expr Returned}
    (hlaw : Law (.diagram f) (.diagram g) (.diagram h) e e') :
    SameHandle s.manager e e' ∧ SameHandle s.manager e' e := by
  obtain ⟨he, he'⟩ := hlaw.sides_over hf hg hh
  exact ⟨sameHandle_of_value_eq hs.valid he he' fun a _ => hlaw.value_eq a,
    sameHandle_of_value_eq hs.valid he' he fun a _ => (hlaw.value_eq a).symm⟩

theorem boolean_algebra_sample :
    SameHandle sampleSession.manager (.not (.and (.diagram sampleVar) (.diagram sampleNot)))
        (.or (.not (.diagram sampleVar)) (.not (.diagram sampleNot))) ∧
      SameHandle sampleSession.manager
        (.or (.not (.diagram sampleVar)) (.not (.diagram sampleNot)))
        (.not (.and (.diagram sampleVar) (.diagram sampleNot))) := by
  have hf : sampleVar ∈ sampleSession.returned := by
    rw [sampleSession_steps.2]
    exact .head _
  have hg : sampleNot ∈ sampleSession.returned := by
    rw [sampleSession_steps.2]
    exact .tail _ (.head _)
  exact boolean_algebra sampleSession_reachable hf hg hf .not_and

end Cflobdd
