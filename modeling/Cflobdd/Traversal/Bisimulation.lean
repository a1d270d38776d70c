import Cflobdd.Traversal.DepthFirst
import Mathlib.Data.Set.Function

/-!
# Bijections from bisimulations

A relation between the nodes of two graphs that matches children with children, and that
relates each node to one node at most on either side, is a bijection between the nodes
reachable from two related roots.
-/

namespace Traversal

variable {V W : Type*}

/-- A one-to-one relation of nodes under which children match children. -/
structure Matching (childrenV : V → List V) (childrenW : W → List W) (R : V → W → Prop) :
    Prop where
  right_unique : ∀ v w w', R v w → R v w' → w = w'
  left_unique : ∀ v v' w, R v w → R v' w → v = v'
  children : ∀ v w, R v w → List.Forall₂ R (childrenV v) (childrenW w)

section Match

variable {childrenV : V → List V} {childrenW : W → List W} {R : V → W → Prop} {v : V} {w : W}

/-- The other way around. -/
theorem Matching.flip (h : Matching childrenV childrenW R) :
    Matching childrenW childrenV (flip R) where
  right_unique w v v' hv hv' := h.left_unique v v' w hv hv'
  left_unique w w' v hw hw' := h.right_unique v w w' hw hw'
  children w v hvw := (h.children v w hvw).flip

/-- The partner of an element of the first list. -/
theorem exists_partner {α β : Type*} {S : α → β → Prop} {xs : List α} {ys : List β}
    (h : List.Forall₂ S xs ys) {x : α} (hx : x ∈ xs) : ∃ y ∈ ys, S x y := by
  induction h with
  | nil => cases hx
  | @cons x' y' _ _ hxy _ ih =>
    rcases List.mem_cons.mp hx with rfl | hx
    · exact ⟨y', .head _, hxy⟩
    · obtain ⟨y, hy, hxy⟩ := ih hx
      exact ⟨y, .tail _ hy, hxy⟩

/-- What is reached from one root has a partner that is reached from the other. -/
theorem Matching.exists_reach (h : Matching childrenV childrenW R) (hroot : R v w) {x : V}
    (hx : Reach childrenV v x) : ∃ y, Reach childrenW w y ∧ R x y := by
  induction hx with
  | refl => exact ⟨w, .refl, hroot⟩
  | tail _ hstep ih =>
    obtain ⟨y, hy, hxy⟩ := ih
    obtain ⟨d, hd, hcd⟩ := exists_partner (h.children _ _ hxy) hstep
    exact ⟨d, hy.tail hd, hcd⟩

/-- **A matching of the roots is a bijection of the reachable nodes.** -/
theorem Matching.exists_bijOn (h : Matching childrenV childrenW R) (hroot : R v w) :
    ∃ φ : V → W, Set.BijOn φ {x | Reach childrenV v x} {y | Reach childrenW w y} ∧
      ∀ x, Reach childrenV v x → R x (φ x) := by
  classical
  let φ : V → W := fun x =>
    if hx : Reach childrenV v x then (h.exists_reach hroot hx).choose else w
  have hφ : ∀ x, Reach childrenV v x → Reach childrenW w (φ x) ∧ R x (φ x) := by
    intro x hx
    simp only [φ, dif_pos hx]
    exact (h.exists_reach hroot hx).choose_spec
  refine ⟨φ, ⟨fun x hx => (hφ x hx).1, ?_, ?_⟩, fun x hx => (hφ x hx).2⟩
  · intro x hx x' hx' heq
    have hxx' := (hφ x hx).2
    rw [heq] at hxx'
    exact h.left_unique x x' _ hxx' (hφ x' hx').2
  · intro y hy
    obtain ⟨x, hx, hyx⟩ := h.flip.exists_reach (v := w) (w := v) hroot hy
    exact ⟨x, hx, h.right_unique x _ _ (hφ x hx).2 hyx⟩

/-- Traversals from matching roots visit matching nodes, up to the order. -/
theorem Matching.exists_perm [DecidableEq V] [DecidableEq W]
    (h : Matching childrenV childrenW R) (hroot : R v w) {levelV : V → ℕ} {levelW : W → ℕ}
    (hlevelV : ∀ v c, c ∈ childrenV v → levelV c < levelV v)
    (hlevelW : ∀ v c, c ∈ childrenW v → levelW c < levelW v) {fuelV fuelW : ℕ}
    (hfuelV : levelV v < fuelV) (hfuelW : levelW w < fuelW) :
    ∃ φ : V → W, ((visit childrenV fuelV v []).map φ).Perm (visit childrenW fuelW w []) ∧
      ∀ x ∈ visit childrenV fuelV v [], R x (φ x) := by
  obtain ⟨φ, hbij, hφ⟩ := h.exists_bijOn hroot
  have hmem : ∀ {x}, x ∈ visit childrenV fuelV v [] ↔ Reach childrenV v x :=
    mem_visit hlevelV hfuelV
  refine ⟨φ, ?_, fun x hx => hφ x (hmem.mp hx)⟩
  have hnodup : ((visit childrenV fuelV v []).map φ).Nodup :=
    (nodup_visit hlevelV hfuelV).map_on fun x hx x' hx' heq =>
      hbij.injOn (hmem.mp hx) (hmem.mp hx') heq
  refine (List.perm_ext_iff_of_nodup hnodup (nodup_visit hlevelW hfuelW)).mpr fun y => ?_
  rw [List.mem_map, mem_visit hlevelW hfuelW]
  constructor
  · rintro ⟨x, hx, rfl⟩
    exact hbij.mapsTo (hmem.mp hx)
  · intro hy
    obtain ⟨x, hx, rfl⟩ := hbij.surjOn hy
    exact ⟨x, hmem.mpr hx, rfl⟩

end Match

end Traversal
