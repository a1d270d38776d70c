import Cflobdd.Cylinder.Quantifiers
import Cflobdd.Memo

/-!
# Programs that compute a function

A program of public calls computes a boolean function when in every later state it returns
the diagram that denotes it. There is a rule for each call, and one for programs run one
after the other. Whether two programs give equal handles is then decided by their functions.
-/

namespace Cflobdd

open FirstVisit Growing Cylinder

/-- The variables of an assignment that are in range. -/
instance {L : ℕ} : Valuation (Fin (2 ^ L)) (Asg L) where
  get a i := a.get i
  set a i v := a.set i v
  get_set a i v := a.get_set_self i.isLt v
  set_get a i := a.set_of_get i.isLt rfl
  set_set a i v w := a.set_set i.isLt v w
  set_comm a i j hij v w := a.set_comm i.isLt j.isLt (fun h => hij (Fin.ext h)) v w

/-- Whether two programs, run one after the other, return equal diagrams. -/
def equals (p q : ManagerM Bdd) : ManagerM Bool := do
  let f ← p
  let g ← q
  reads (·.eq f g)

/-- The programs return equal diagrams, whichever is run first. -/
def SameDiagram (p q : ManagerM Bdd) (m : Manager) : Prop :=
  Gives (equals p q) m true ∧ Gives (equals q p) m true

/-- Both comparisons are made, and they have the same outcome. -/
def SameOutcome (p q : ManagerM Bool) (m : Manager) : Prop := ∃ b, Gives p m b ∧ Gives q m b

/-- The diagram evaluates alike whatever the value of the variable is. -/
def IndependentOf (m : Manager) (L : ℕ) (f : Bdd) (i : ℕ) : Prop :=
  ∀ a : List Bool, a.length = 2 ^ L → m.evaluate f (a.set i true) = m.evaluate f (a.set i false)

/-- In every later state the program returns the diagram that denotes the function. -/
def Computes (m : Manager) (L : ℕ) (p : ManagerM Bdd) (F : Asg L → Bool) : Prop :=
  ∀ t, m ≤ t → t.Inv → t.level = L → Returns p t fun f t' => Denotes t' L f F

section Rules

variable {m m' : Manager} {L : ℕ} {p q : ManagerM Bdd} {f g : Bdd} {F G H : Asg L → Bool}

/-- A program computes its function on every manager that has grown. -/
theorem Computes.mono (hle : m ≤ m') (h : Computes m L p F) : Computes m' L p F :=
  fun t ht => h t (hle.trans ht)

/-- The result of one program is passed to the next. -/
theorem Computes.bind {k : Bdd → ManagerM Bdd} (hp : Computes m L p F)
    (hk : ∀ t f, m ≤ t → Denotes t L f F → Computes t L (k f) G) : Computes m L (p >>= k) G := by
  intro t hle ht hL
  refine Runs.bind (hp t hle ht hL) ?_
  intro f t' hle' ht' hf
  exact hk t' f (hle.trans hle') hf t' le_rfl ht' (hle'.level.trans hL)

/-- The results of two programs are passed to the next. -/
theorem Computes.bind₂ {k : Bdd → Bdd → ManagerM Bdd} (hp : Computes m L p F)
    (hq : Computes m L q G)
    (hk : ∀ t f g, m ≤ t → Denotes t L f F → Denotes t L g G → Computes t L (k f g) H) :
    Computes m L (p >>= fun f => q >>= fun g => k f g) H := by
  refine hp.bind fun t f hle hf => (hq.mono hle).bind fun t' g hle' hg => ?_
  exact hk t' f g (hle.trans hle') (hf.mono hle') hg

/-- A diagram that is there is computed by doing nothing. -/
theorem computes_pure (hf : Denotes m L f F) : Computes m L (pure f) F :=
  fun _ hle ht _ => Runs.pure ht (hf.mono hle)

/-- The rule for a loop whose loop variable is a diagram. `K` gives its function from the
entries already processed. -/
theorem Computes.foldlM {α : Type} {step : Bdd → α → ManagerM Bdd} {xs : List α}
    {K : List α → Asg L → Bool} (hf : Denotes m L f (K []))
    (hstep : ∀ done x rest, xs = done ++ x :: rest → ∀ t f, m ≤ t → Denotes t L f (K done) →
      Computes t L (step f x) (K (done ++ [x]))) : Computes m L (xs.foldlM step f) (K xs) := by
  suffices hloop : ∀ rest done t f, xs = done ++ rest → m ≤ t → Denotes t L f (K done) →
      Computes t L (rest.foldlM step f) (K xs) from hloop xs [] m f rfl le_rfl hf
  intro rest
  induction rest with
  | nil =>
    intro done t f hxs _ hf
    rw [List.append_nil] at hxs
    subst hxs
    exact fun u hle hu _ => Runs.pure hu (hf.mono hle)
  | cons x rest ih =>
    intro done t f hxs hle hf
    rw [List.foldlM_cons]
    refine (hstep done x rest hxs t f hle hf).bind fun u g hle' hg => ?_
    exact ih (done ++ [x]) u g (by simp [hxs]) (hle.trans hle') hg

/-- `mk_true` computes the greatest function. -/
theorem computes_mkTrue : Computes m L mkTrue ⊤ := by
  rintro t _ ht rfl
  exact mkTrue_returns ht

/-- `mk_false` computes the least function. -/
theorem computes_mkFalse : Computes m L mkFalse ⊥ := by
  rintro t _ ht rfl
  exact mkFalse_returns ht

/-- `mk_proj` computes the value of a variable. -/
theorem computes_mkProj (i : Fin (2 ^ L)) :
    Computes m L (mkProj i) fun a => Valuation.get a i := by
  rintro t _ ht rfl
  exact mkProj_returns ht i.isLt

/-- `apply` computes the entries of a table of zeros and ones. -/
theorem computes_apply (hf : Denotes m L f F) (hg : Denotes m L g G) {op : BoolOp}
    (hop : op.IsBool) : Computes m L (apply f g op) fun a => op.eval (F a) (G a) :=
  fun _ hle ht hL => apply_returns ht hL (hf.mono hle) (hg.mono hle) hop

/-- The named operations compute their connective. -/
theorem computes_connective (c : Connective) (hf : Denotes m L f F) (hg : Denotes m L g G) :
    Computes m L (c.exec f g) fun a => c.eval (F a) (G a) :=
  fun _ hle ht hL => c.returns ht hL (hf.mono hle) (hg.mono hle)

/-- `implies` computes the implication of the boolean algebra. -/
theorem computes_implies (hf : Denotes m L f F) (hg : Denotes m L g G) :
    Computes m L (implies f g) (Fᶜ ⊔ G) := computes_connective .implies hf hg

/-- `not` computes the complement. -/
theorem computes_not (hf : Denotes m L f F) : Computes m L (not f) Fᶜ :=
  fun _ hle ht _ => not_returns ht (hf.mono hle)

/-- `restrict` computes the function with the variable fixed. -/
theorem computes_restrict (hf : Denotes m L f F) (i : Fin (2 ^ L)) (v : Bool) :
    Computes m L (restrict f i v) (fix i v F) :=
  fun _ hle ht hL => restrict_returns ht hL (hf.mono hle) i.isLt v

/-- `compose` computes the substitution. -/
theorem computes_compose (hf : Denotes m L f F) (i : Fin (2 ^ L)) (hg : Denotes m L g G) :
    Computes m L (compose f i g) (subst i G F) :=
  fun _ hle ht hL => compose_returns ht hL (hf.mono hle) (hg.mono hle) i.isLt

/-- `exists` computes the existential quantification. -/
theorem computes_existsVar (hf : Denotes m L f F) (i : Fin (2 ^ L)) :
    Computes m L (existsVar f i) (existsAt i F) :=
  fun _ hle ht hL => existsVar_returns ht hL (hf.mono hle) i.isLt

/-- `forall` computes the universal quantification. -/
theorem computes_forallVar (hf : Denotes m L f F) (i : Fin (2 ^ L)) :
    Computes m L (forallVar f i) (forallAt i F) :=
  fun _ hle ht hL => forallVar_returns ht hL (hf.mono hle) i.isLt

/-- Two programs return equal diagrams exactly if they compute one function. -/
theorem Computes.equals (hm : m.Inv) (hL : m.level = L) (hp : Computes m L p F)
    (hq : Computes m L q G) : ∃ b, Gives (equals p q) m b ∧ (b = true ↔ F = G) := by
  obtain ⟨f, m₁, hok₁, hle₁, hm₁, hf, -⟩ := hp m le_rfl hm hL
  obtain ⟨g, m₂, hok₂, hle₂, hm₂, hg, -⟩ := hq m₁ hle₁ hm₁ (hle₁.level.trans hL)
  refine ⟨m₂.eq f g, ⟨m₂, ?_⟩, ?_⟩
  · unfold Cflobdd.equals
    rw [bind_ok hok₁, bind_ok hok₂]
    rfl
  · rw [Manager.eq, decide_eq_true_iff]
    have hL₂ : m₂.level = L := (hle₁.trans hle₂).level.trans hL
    constructor
    · rintro rfl
      exact (hf.mono hle₂).function_unique hg hL₂ (hL₂ ▸ hm₂.level_mem.2)
    · rintro rfl
      exact (hf.mono hle₂).unique hg

/-- A program has one result. -/
theorem Gives.unique {α : Type} {p : ManagerM α} {a b : α} (h : Gives p m a) (h' : Gives p m b) :
    a = b := by
  obtain ⟨m₁, h⟩ := h
  obtain ⟨m₂, h'⟩ := h'
  rw [h] at h'
  cases h'
  rfl

/-- What an execution shows. -/
theorem Gives.of_value? {α : Type} {p : ManagerM α} {a : α} (h : value? (p m) = some a) :
    Gives p m a := by
  cases hok : p m with
  | ok b m' =>
    rw [hok] at h
    obtain rfl : b = a := Option.some.inj h
    exact ⟨m', hok⟩
  | error e m' =>
    rw [hok] at h
    cases h

/-- What a comparison has found out about the functions. -/
theorem Computes.eq_of_equals (hm : m.Inv) (hL : m.level = L) (hp : Computes m L p F)
    (hq : Computes m L q G) (h : Gives (Cflobdd.equals p q) m true) : F = G := by
  obtain ⟨b, hb, hiff⟩ := hp.equals hm hL hq
  exact hiff.mp (hb.unique h)

/-- Two comparisons have the same outcome when the equations of functions say the same. -/
theorem Computes.sameOutcome {p' q' : ManagerM Bdd} {F' G' : Asg L → Bool} (hm : m.Inv)
    (hL : m.level = L) (hp : Computes m L p F) (hq : Computes m L q G) (hp' : Computes m L p' F')
    (hq' : Computes m L q' G') (h : F = G ↔ F' = G') :
    SameOutcome (Cflobdd.equals p q) (Cflobdd.equals p' q') m := by
  obtain ⟨b, hb, hiff⟩ := hp.equals hm hL hq
  obtain ⟨b', hb', hiff'⟩ := hp'.equals hm hL hq'
  obtain rfl : b = b' := by rw [Bool.eq_iff_iff, hiff, hiff', h]
  exact ⟨b, hb, hb'⟩

/-- Programs that compute one function return the same diagram. -/
theorem Computes.same (hm : m.Inv) (hL : m.level = L) (hp : Computes m L p F)
    (hq : Computes m L q G) (h : F = G) : SameDiagram p q m := by
  obtain ⟨b, hb, hiff⟩ := hp.equals hm hL hq
  obtain ⟨b', hb', hiff'⟩ := hq.equals hm hL hp
  rw [hiff.mpr h] at hb
  rw [hiff'.mpr h.symm] at hb'
  exact ⟨hb, hb'⟩

end Rules

section Independence

variable {m : Manager} {L : ℕ} {f : Bdd} {F : Asg L → Bool}

/-- A diagram is independent of a variable exactly if its function is. -/
theorem Denotes.independentOf_iff (h : Denotes m L f F) (hL : m.level = L) (hle : L ≤ 30)
    (i : Fin (2 ^ L)) : IndependentOf m L f i ↔ Independent i F := by
  have heq : ∀ a : Asg L, m.evaluate f (a.toList.set i true) = m.evaluate f (a.toList.set i false) ↔
      fix i true F a = fix i false F a := by
    intro a
    rw [← Asg.toList_set a i.isLt, ← Asg.toList_set a i.isLt, h.evaluate hL hle, h.evaluate hL hle,
      Except.ok.injEq]
    rfl
  rw [IndependentOf, ← forall_toList_iff, Independent, funext_iff]
  exact forall_congr' heq

end Independence

end Cflobdd
