import Cflobdd.Computes

/-!
# Laws of restriction, composition and the quantifiers

Restriction commutes with pointwise operations and with other restrictions, composition
satisfies the substitution lemma, and the quantifiers are the adjoints of weakening. All
laws are equalities of handles: restriction, products and reduction agree on the indices
that they intern.
-/

namespace Cflobdd

open FirstVisit Growing Cylinder

variable {L : ℕ} {s : Session} {f g : Returned} {i : ℕ}

/-- **Restriction commutes with every pointwise operation and with other restrictions**, and
it leaves a diagram as it is exactly if the diagram does not depend on the variable. -/
theorem restrict_commutes (hs : Reachable L s) (hf : f ∈ s.returned) (hg : g ∈ s.returned)
    (hi : i < 2 ^ L) (v : Bool) :
    (∀ op : BoolOp, op.IsBool →
      SameDiagram (do restrict (← apply f.bdd g.bdd op) i v)
        (do apply (← restrict f.bdd i v) (← restrict g.bdd i v) op) s.manager) ∧
    SameDiagram (do restrict (← not f.bdd) i v) (do not (← restrict f.bdd i v)) s.manager ∧
    (∀ j, j < 2 ^ L → i ≠ j → ∀ w,
      SameDiagram (do restrict (← restrict f.bdd i v) j w)
        (do restrict (← restrict f.bdd j w) i v) s.manager) ∧
    ∃ b, Gives (equals (restrict f.bdd i v) (pure f.bdd)) s.manager b ∧
      (b = true ↔ IndependentOf s.manager L f.bdd i) := by
  obtain ⟨hm, hL, -, -, hreturned⟩ := hs.valid
  have hF := hreturned f hf
  have hG := hreturned g hg
  refine ⟨?_, ?_, ?_, ?_⟩
  · intro op hop
    have hleft := (computes_apply hF hG hop).bind fun t x _ hx => computes_restrict hx ⟨i, hi⟩ v
    have hright := (computes_restrict hF ⟨i, hi⟩ v).bind₂ (computes_restrict hG ⟨i, hi⟩ v)
      fun t x y _ hx hy => computes_apply hx hy hop
    exact hleft.same hm hL hright rfl
  · have hleft := (computes_not hF).bind fun t x _ hx => computes_restrict hx ⟨i, hi⟩ v
    have hright := (computes_restrict hF ⟨i, hi⟩ v).bind fun t x _ hx => computes_not hx
    exact hleft.same hm hL hright (fix_compl _ _ _)
  · intro j hj hij w
    have hleft := (computes_restrict hF ⟨i, hi⟩ v).bind
      fun t x _ hx => computes_restrict hx ⟨j, hj⟩ w
    have hright := (computes_restrict hF ⟨j, hj⟩ w).bind
      fun t x _ hx => computes_restrict hx ⟨i, hi⟩ v
    exact hleft.same hm hL hright (fix_comm (fun heq => hij (Fin.ext_iff.mp heq)) v w _)
  · obtain ⟨b, hb, hiff⟩ := (computes_restrict hF ⟨i, hi⟩ v).equals hm hL (computes_pure hF)
    refine ⟨b, hb, hiff.trans ?_⟩
    rw [hF.independentOf_iff hL hs.valid.level_le.2 ⟨i, hi⟩, fix_eq_self_iff]

theorem restrict_commutes_sample :
    (∀ op : BoolOp, op.IsBool →
      SameDiagram (do restrict (← apply sampleVar.bdd sampleNot.bdd op) 1 true)
        (do apply (← restrict sampleVar.bdd 1 true) (← restrict sampleNot.bdd 1 true) op)
        sampleLiterals.manager) ∧
    SameDiagram (do restrict (← not sampleVar.bdd) 1 true)
      (do not (← restrict sampleVar.bdd 1 true)) sampleLiterals.manager ∧
    (∀ j, j < 2 ^ 1 → 1 ≠ j → ∀ w,
      SameDiagram (do restrict (← restrict sampleVar.bdd 1 true) j w)
        (do restrict (← restrict sampleVar.bdd j w) 1 true) sampleLiterals.manager) ∧
    ∃ b, Gives (equals (restrict sampleVar.bdd 1 true) (pure sampleVar.bdd))
      sampleLiterals.manager b ∧
        (b = true ↔ IndependentOf sampleLiterals.manager 1 sampleVar.bdd 1) :=
  restrict_commutes sampleLiterals_reachable.1 sampleVar_mem sampleNot_mem (by decide) true

/-- The constant diagram of a value. -/
def mkConstant (v : Bool) : ManagerM Bdd := if v then mkTrue else mkFalse

/-- The constant with the given value. -/
theorem computes_mkConstant (m : Manager) (L : ℕ) (v : Bool) :
    Computes m L (mkConstant v) fun _ => v := by
  cases v
  · exact computes_mkFalse
  · exact computes_mkTrue

/-- **Substitution lemma for `compose`:** two substitutions for different variables may be
exchanged when the second diagram put in does not depend on the first variable. With a
constant for the second this is a law of restriction, substituting a variable for itself
changes nothing, and substituting a constant is restricting. -/
theorem compose_substitution (hs : Reachable L s) (hf : f ∈ s.returned) (hg : g ∈ s.returned)
    {j : ℕ} (hi : i < 2 ^ L) (hj : j < 2 ^ L) (hij : i ≠ j) :
    (∀ h ∈ s.returned, IndependentOf s.manager L h.bdd i →
      SameDiagram (do compose (← compose f.bdd i g.bdd) j h.bdd)
        (do compose (← compose f.bdd j h.bdd) i (← compose g.bdd j h.bdd)) s.manager) ∧
    (∀ v, SameDiagram (do restrict (← compose f.bdd i g.bdd) j v)
      (do compose (← restrict f.bdd j v) i (← restrict g.bdd j v)) s.manager) ∧
    SameDiagram (do compose f.bdd i (← mkProj i)) (pure f.bdd) s.manager ∧
    ∀ v, SameDiagram (do compose f.bdd i (← mkConstant v)) (restrict f.bdd i v) s.manager := by
  obtain ⟨hm, hL, -, -, hreturned⟩ := hs.valid
  have hF := hreturned f hf
  have hG := hreturned g hg
  have hne : (⟨i, hi⟩ : Fin (2 ^ L)) ≠ ⟨j, hj⟩ := fun heq => hij (Fin.ext_iff.mp heq)
  have hcompose := computes_compose hF ⟨i, hi⟩ hG
  refine ⟨?_, ?_, ?_, ?_⟩
  · intro h hh hindependent
    have hH := hreturned h hh
    rw [hH.independentOf_iff hL hs.valid.level_le.2 ⟨i, hi⟩] at hindependent
    have hleft := hcompose.bind fun t x hle hx => computes_compose hx ⟨j, hj⟩ (hH.mono hle)
    have hright := (computes_compose hF ⟨j, hj⟩ hH).bind₂ (computes_compose hG ⟨j, hj⟩ hH)
      fun t x y _ hx hy => computes_compose hx ⟨i, hi⟩ hy
    exact hleft.same hm hL hright (subst_subst hne hindependent _ _)
  · intro v
    have hleft := hcompose.bind fun t x _ hx => computes_restrict hx ⟨j, hj⟩ v
    have hright := (computes_restrict hF ⟨j, hj⟩ v).bind₂ (computes_restrict hG ⟨j, hj⟩ v)
      fun t x y _ hx hy => computes_compose hx ⟨i, hi⟩ hy
    exact hleft.same hm hL hright (fix_subst hne v _ _)
  · have hleft := (computes_mkProj ⟨i, hi⟩).bind
      fun t x hle hx => computes_compose (hF.mono hle) ⟨i, hi⟩ hx
    exact hleft.same hm hL (computes_pure hF) (subst_get _ _)
  · intro v
    have hleft := (computes_mkConstant s.manager L v).bind
      fun t x hle hx => computes_compose (hF.mono hle) ⟨i, hi⟩ hx
    exact hleft.same hm hL (computes_restrict hF ⟨i, hi⟩ v) (subst_const _ v _)

/-- The diagram of `x₀` does not depend on `x₁`. -/
theorem sampleVar_independentOf : IndependentOf sampleLiterals.manager 1 sampleVar.bdd 1 := by
  intro a ha
  have hvalid := sampleLiterals_reachable.1.valid
  rw [hvalid.evaluate sampleVar_mem (by simpa using ha),
    hvalid.evaluate sampleVar_mem (by simpa using ha)]
  simp [sampleVar]

theorem compose_substitution_sample :
    SameDiagram (do compose (← compose sampleVar.bdd 1 sampleNot.bdd) 0 sampleVar.bdd)
        (do
          let f ← compose sampleVar.bdd 0 sampleVar.bdd
          let g ← compose sampleNot.bdd 0 sampleVar.bdd
          compose f 1 g) sampleLiterals.manager ∧
      SameDiagram (do compose sampleVar.bdd 1 (← mkProj 1)) (pure sampleVar.bdd)
        sampleLiterals.manager := by
  have h := compose_substitution sampleLiterals_reachable.1 sampleVar_mem sampleNot_mem
    (show 1 < 2 ^ 1 by decide) (show 0 < 2 ^ 1 by decide) (by decide)
  exact ⟨h.1 sampleVar sampleVar_mem sampleVar_independentOf, h.2.2.1⟩

/-- **The quantifiers are the adjoints of weakening:** for a diagram `g` that restriction
shows not to depend on the variable, `f` implies `g` exactly if `∃ f` does, and `g` implies
`f` exactly if it implies `∀ f`, all of it decided by comparing handles. The quantified
diagrams do not depend on the variable, the quantifiers are dual, and they commute. -/
theorem quantifiers_adjoint (hs : Reachable L s) (hf : f ∈ s.returned) (hi : i < 2 ^ L) :
    (∀ g ∈ s.returned,
      Gives (equals (restrict g.bdd i true) (restrict g.bdd i false)) s.manager true →
      SameOutcome (equals (implies f.bdd g.bdd) mkTrue)
          (equals (do implies (← existsVar f.bdd i) g.bdd) mkTrue) s.manager ∧
        SameOutcome (equals (implies g.bdd f.bdd) mkTrue)
          (equals (do implies g.bdd (← forallVar f.bdd i)) mkTrue) s.manager) ∧
    (∀ v, SameDiagram (do restrict (← existsVar f.bdd i) i v) (existsVar f.bdd i) s.manager ∧
      SameDiagram (do restrict (← forallVar f.bdd i) i v) (forallVar f.bdd i) s.manager) ∧
    SameDiagram (existsVar f.bdd i) (do not (← forallVar (← not f.bdd) i)) s.manager ∧
    ∀ j, j < 2 ^ L →
      SameDiagram (do existsVar (← existsVar f.bdd i) j) (do existsVar (← existsVar f.bdd j) i)
          s.manager ∧
        SameDiagram (do forallVar (← forallVar f.bdd i) j) (do forallVar (← forallVar f.bdd j) i)
          s.manager := by
  obtain ⟨hm, hL, -, -, hreturned⟩ := hs.valid
  have hF := hreturned f hf
  have hexists := computes_existsVar hF ⟨i, hi⟩
  have hforall := computes_forallVar hF ⟨i, hi⟩
  refine ⟨?_, ?_, ?_, ?_⟩
  · intro g hg hequals
    have hG := hreturned g hg
    have hindependent := (computes_restrict hG ⟨i, hi⟩ true).eq_of_equals hm hL
      (computes_restrict hG ⟨i, hi⟩ false) hequals
    constructor
    · refine (computes_implies hF hG).sameOutcome hm hL computes_mkTrue
        (hexists.bind fun t x hle hx => computes_implies hx (hG.mono hle)) computes_mkTrue ?_
      rw [compl_sup_eq_top_iff, compl_sup_eq_top_iff, existsAt_le_iff hindependent]
    · refine (computes_implies hG hF).sameOutcome hm hL computes_mkTrue
        (hforall.bind fun t x hle hx => computes_implies (hG.mono hle) hx) computes_mkTrue ?_
      rw [compl_sup_eq_top_iff, compl_sup_eq_top_iff, le_forallAt_iff hindependent]
  · intro v
    exact ⟨(hexists.bind fun t x _ hx => computes_restrict hx ⟨i, hi⟩ v).same hm hL hexists
        ((fix_eq_self_iff v).mpr (independent_existsAt _ _)),
      (hforall.bind fun t x _ hx => computes_restrict hx ⟨i, hi⟩ v).same hm hL hforall
        ((fix_eq_self_iff v).mpr (independent_forallAt _ _))⟩
  · have hright := (computes_not hF).bind fun t x _ hx =>
      (computes_forallVar hx ⟨i, hi⟩).bind fun t' y _ hy => computes_not hy
    exact hexists.same hm hL hright (existsAt_eq_compl_forallAt _ _)
  · intro j hj
    have hexistsj := computes_existsVar hF ⟨j, hj⟩
    have hforallj := computes_forallVar hF ⟨j, hj⟩
    exact ⟨(hexists.bind fun t x _ hx => computes_existsVar hx ⟨j, hj⟩).same hm hL
        (hexistsj.bind fun t x _ hx => computes_existsVar hx ⟨i, hi⟩) (existsAt_comm _ _ _),
      (hforall.bind fun t x _ hx => computes_forallVar hx ⟨j, hj⟩).same hm hL
        (hforallj.bind fun t x _ hx => computes_forallVar hx ⟨i, hi⟩) (forallAt_comm _ _ _)⟩

/-- The constant true of the sample session. -/
def sampleConstant : Returned := ⟨⟨⟨3⟩, ⟨1⟩⟩, fun _ => true⟩

theorem quantifiers_adjoint_sample :
    SameOutcome (equals (implies sampleVar.bdd sampleConstant.bdd) mkTrue)
        (equals (do implies (← existsVar sampleVar.bdd 0) sampleConstant.bdd) mkTrue)
        sampleSession.manager ∧
      SameOutcome (equals (implies sampleConstant.bdd sampleVar.bdd) mkTrue)
        (equals (do implies sampleConstant.bdd (← forallVar sampleVar.bdd 0)) mkTrue)
        sampleSession.manager := by
  have hvar : sampleVar ∈ sampleSession.returned := by
    rw [sampleSession_steps.2]
    exact .head _
  have hconstant : sampleConstant ∈ sampleSession.returned := by
    rw [sampleSession_steps.2]
    exact .tail _ (.tail _ (.tail _ (.head _)))
  have hfixed : value? (equals (restrict sampleConstant.bdd 0 true)
      (restrict sampleConstant.bdd 0 false) sampleSession.manager) = some true := by decide +kernel
  exact (quantifiers_adjoint sampleSession_reachable hvar (show 0 < 2 ^ 1 by decide)).1
    sampleConstant hconstant (.of_value? hfixed)

end Cflobdd
