import Cflobdd.Computes
import Cflobdd.Cylinder.Volume
import Cflobdd.Recovery

/-!
# Path counts are a measure

Up to level six `path_count` returns the volume of the function that a diagram denotes. So
the counts of the diagrams that the operations return are related as volumes are: they are
additive, the two values of a variable split them evenly, and they are strictly monotone in
the order that `implies` decides.
-/

namespace Cflobdd

open FirstVisit Growing Cylinder

/-- The path count of the diagram that a program returns. -/
def counts (p : ManagerM Bdd) : ManagerM ℕ := do
  let f ← p
  pathCount f

section Counts

variable {m : Manager} {L : ℕ} {f : Bdd} {p : ManagerM Bdd} {F : Asg L → Bool}

/-- The count of true is the volume. -/
theorem visits_eq_volume (F : Asg L → Bool) : visits F true = volume F := by
  rw [visits, volume]
  congr 1
  funext a
  simp

/-- `path_count` gives the volume of the function. -/
theorem Denotes.gives_volume (hf : Denotes m L f F) (hm : m.Inv) (hL : m.level = L)
    (hL6 : L ≤ 6) : Gives (pathCount f) m (volume F) := by
  obtain ⟨count, m', hok, -, -, rfl, -⟩ := pathCount_returns hm hL hL6 hf
  rw [visits_eq_volume] at hok
  exact ⟨m', hok⟩

/-- A program that computes a function returns a diagram whose path count is the volume. -/
theorem Computes.counts (h : Computes m L p F) (hm : m.Inv) (hL : m.level = L) (hL6 : L ≤ 6) :
    Gives (counts p) m (volume F) := by
  obtain ⟨f, m₁, hok, hle, hm₁, hf, -⟩ := h m le_rfl hm hL
  obtain ⟨m₂, hok₂⟩ := hf.gives_volume hm₁ (hle.level.trans hL) hL6
  exact ⟨m₂, by rw [Cflobdd.counts, bind_ok hok, hok₂]⟩

end Counts

/-- The path counts of two diagrams and of what the connectives make of them. -/
structure Additive (m : Manager) (L : ℕ) (f g : Bdd) (cf cg : ℕ) : Prop where
  /-- Inclusion and exclusion. -/
  or_and : ∃ cor cand, Gives (counts (or f g)) m cor ∧ Gives (counts (and f g)) m cand ∧
    cor + cand = cf + cg
  xor_and : ∃ cxor cand, Gives (counts (xor f g)) m cxor ∧ Gives (counts (and f g)) m cand ∧
    cxor + 2 * cand = cf + cg
  /-- The complement has the other assignments. -/
  not : ∃ cnot, Gives (counts (not f)) m cnot ∧ cf + cnot = 2 ^ 2 ^ L

/-- The path counts of a diagram and of what the operations on a variable make of it. -/
structure SplitBy (m : Manager) (f g : Bdd) (i cf : ℕ) : Prop where
  /-- The two values of the variable. -/
  restrict : ∃ c1 c0, Gives (counts (restrict f i true)) m c1 ∧
    Gives (counts (restrict f i false)) m c0 ∧ c1 + c0 = 2 * cf
  /-- The two quantifiers. -/
  quantifiers : ∃ ce ca, Gives (counts (existsVar f i)) m ce ∧
    Gives (counts (forallVar f i)) m ca ∧ ce + ca = 2 * cf
  /-- A substitution is split by the diagram that is substituted. -/
  compose : ∃ c c1 c0, Gives (counts (compose f i g)) m c ∧
    Gives (counts (do and g (← Cflobdd.restrict f i true))) m c1 ∧
    Gives (counts (do and (← Cflobdd.not g) (← Cflobdd.restrict f i false))) m c0 ∧ c = c1 + c0

section Sessions

variable {L : ℕ} {s : Session} {f g : Returned}

/-- **Path counts are a measure:** in every session of level six or less, calls that panicked
included, the path counts of any two diagrams and of the results of the operations on them
add up as the volumes of their functions do. -/
theorem path_count_measure (hs : AfterScript L s) (hL : L ≤ 6) (hf : f ∈ s.returned)
    (hg : g ∈ s.returned) :
    ∃ cf cg, Gives (pathCount f.bdd) s.manager cf ∧ Gives (pathCount g.bdd) s.manager cg ∧
      Additive s.manager L f.bdd g.bdd cf cg ∧
      ∀ i < 2 ^ L, SplitBy s.manager f.bdd g.bdd i cf := by
  obtain ⟨hm, hlevel, -, -, hreturned⟩ := hs.valid
  have hF := hreturned f hf
  have hG := hreturned g hg
  generalize (fun a : Asg L => f.function a.toList) = F at hF
  generalize (fun a : Asg L => g.function a.toList) = G at hG
  have hor : Computes s.manager L (or f.bdd g.bdd) (F ⊔ G) := computes_connective .or hF hG
  have hand : Computes s.manager L (and f.bdd g.bdd) (F ⊓ G) := computes_connective .and hF hG
  refine ⟨_, _, hF.gives_volume hm hlevel hL, hG.gives_volume hm hlevel hL, ⟨?_, ?_, ?_⟩, ?_⟩
  · exact ⟨_, _, hor.counts hm hlevel hL, hand.counts hm hlevel hL, volume_sup_add_inf F G⟩
  · have hxor : Computes s.manager L (xor f.bdd g.bdd) ((F ⊔ G) ⊓ (F ⊓ G)ᶜ) := by
      have heq : (fun a => Connective.xor.eval (F a) (G a)) = (F ⊔ G) ⊓ (F ⊓ G)ᶜ := by
        funext a
        cases hFa : F a <;> cases hGa : G a <;> simp [Connective.eval, hFa, hGa]
      rw [← heq]
      exact computes_connective .xor hF hG
    refine ⟨_, _, hxor.counts hm hlevel hL, hand.counts hm hlevel hL, ?_⟩
    have hsplit : volume (F ⊔ G) = volume (F ⊓ G) + volume ((F ⊔ G) ⊓ (F ⊓ G)ᶜ) := by
      refine volume_add_of_disjoint (fun a ha => by simp_all) ?_
      rw [← sdiff_eq, sup_sdiff_cancel_right inf_le_sup]
    have hsum := volume_sup_add_inf F G
    omega
  · refine ⟨_, (computes_not hF).counts hm hlevel hL, ?_⟩
    rw [volume_add_compl, Asg.length_all]
  · intro i hi
    have h1 := computes_restrict hF ⟨i, hi⟩ true
    have h0 := computes_restrict hF ⟨i, hi⟩ false
    refine ⟨?_, ?_, ?_⟩
    · exact ⟨_, _, h1.counts hm hlevel hL, h0.counts hm hlevel hL, volume_fix_add_fix _ F⟩
    · exact ⟨_, _, (computes_existsVar hF ⟨i, hi⟩).counts hm hlevel hL,
        (computes_forallVar hF ⟨i, hi⟩).counts hm hlevel hL, volume_exists_add_forall _ F⟩
    · have hleft : Computes s.manager L (do and g.bdd (← restrict f.bdd i true))
          (G ⊓ fix ⟨i, hi⟩ true F) :=
        h1.bind fun t x hle hx => computes_connective .and (hG.mono hle) hx
      have hright : Computes s.manager L (do and (← not g.bdd) (← restrict f.bdd i false))
          (Gᶜ ⊓ fix ⟨i, hi⟩ false F) :=
        (computes_not hG).bind₂ h0 fun t x y _ hx hy => computes_connective .and hx hy
      exact ⟨_, _, _, (computes_compose hF ⟨i, hi⟩ hG).counts hm hlevel hL,
        hleft.counts hm hlevel hL, hright.counts hm hlevel hL, volume_subst _ G F⟩

theorem path_count_measure_sample :
    ∃ cf cg, Gives (pathCount sampleVar.bdd) sampleLiterals.manager cf ∧
      Gives (pathCount sampleNot.bdd) sampleLiterals.manager cg ∧
      Additive sampleLiterals.manager 1 sampleVar.bdd sampleNot.bdd cf cg ∧
      ∀ i < 2 ^ 1, SplitBy sampleLiterals.manager sampleVar.bdd sampleNot.bdd i cf :=
  path_count_measure sampleLiterals_reachable.1.afterScript (by decide) sampleVar_mem sampleNot_mem

/-- **Path counts are strictly monotone:** if `implies` of two diagrams is the constant true,
the first has no more satisfying assignments than the second, and as many only if the two
are one handle. -/
theorem path_count_strictMono (hs : AfterScript L s) (hL : L ≤ 6) (hf : f ∈ s.returned)
    (hg : g ∈ s.returned) (h : Gives (equals (implies f.bdd g.bdd) mkTrue) s.manager true) :
    ∃ cf cg, Gives (pathCount f.bdd) s.manager cf ∧ Gives (pathCount g.bdd) s.manager cg ∧
      cf ≤ cg ∧ (cf = cg ↔ s.manager.eq f.bdd g.bdd = true) := by
  have hv := hs.valid
  obtain ⟨hm, hlevel, -, -, hreturned⟩ := hv
  have hF := hreturned f hf
  have hG := hreturned g hg
  have hle : (fun a : Asg L => f.function a.toList) ≤ fun a => g.function a.toList :=
    (compl_sup_eq_top_iff _ _).mp
      ((computes_implies hF hG).eq_of_equals hm hlevel computes_mkTrue h)
  refine ⟨_, _, hF.gives_volume hm hlevel hL, hG.gives_volume hm hlevel hL, volume_mono hle, ?_⟩
  rw [volume_eq_iff hle, Manager.eq, decide_eq_true_iff]
  constructor
  · intro heq
    rw [heq] at hF
    exact hF.unique hG
  · intro heq
    rw [← heq] at hG
    exact hF.function_unique hG hlevel (hlevel ▸ hm.level_mem.2)

/-- The variable implies the constant and is another handle, so it has fewer assignments. -/
theorem path_count_strictMono_sample :
    ∃ cf cg, Gives (pathCount sampleVar.bdd) sampleSession.manager cf ∧
      Gives (pathCount ⟨⟨3⟩, ⟨1⟩⟩) sampleSession.manager cg ∧ cf ≤ cg ∧ cf ≠ cg := by
  obtain ⟨cf, cg, hcf, hcg, hle, heq⟩ := path_count_strictMono
    sampleSession_reachable.afterScript (by decide) (f := sampleVar)
    (g := ⟨⟨⟨3⟩, ⟨1⟩⟩, fun _ => true⟩) (by rw [sampleSession_steps.2]; simp)
    (by rw [sampleSession_steps.2]; simp) (.of_value? (by decide +kernel))
  refine ⟨cf, cg, hcf, hcg, hle, fun h => ?_⟩
  exact absurd (heq.mp h) (by decide)

end Sessions

end Cflobdd
