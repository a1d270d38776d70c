import Cflobdd.FirstVisit.Enumerated
import Mathlib.Order.Bounds.Basic

/-!
# The order of first visits

When a domain is listed in increasing order, the point at which a value is first visited
is the least point at which it is taken, and values visited later have larger least
points.
-/

namespace FirstVisit

open Enumerated

section Lists

variable {α : Type*} [DecidableEq α]

/-- A value occurs nowhere before its rank. -/
theorem rank_le_of_getElem? {vs : List α} {i : ℕ} {v : α} (h : vs[i]? = some v) :
    rank vs v ≤ i := by
  induction vs generalizing i with
  | nil => simp at h
  | cons w vs ih =>
    by_cases hw : w = v
    · rw [hw, rank_cons_self]
      exact Nat.zero_le i
    · cases i with
      | zero => exact absurd (Option.some.inj h) hw
      | succ i =>
        have hrank : rank (w :: vs) v = rank vs v + 1 := by simp [rank, hw]
        have hle := ih (i := i) h
        omega

/-- The values of a list are kept in the order of their first occurrence. -/
theorem firstSeen_sorted (vs : List α) :
    (firstSeen vs).Pairwise fun v w => rank vs v < rank vs w := by
  induction vs using List.reverseRecOn with
  | nil => exact .nil
  | append_singleton vs w ih =>
    have hkeep : (firstSeen vs).Pairwise fun v v' => rank (vs ++ [w]) v < rank (vs ++ [w]) v' := by
      refine ih.imp_of_mem fun {v v'} hv hv' hlt => ?_
      rw [rank_of_isPrefix (List.prefix_append vs [w]) (mem_firstSeen.mp hv),
        rank_of_isPrefix (List.prefix_append vs [w]) (mem_firstSeen.mp hv')]
      exact hlt
    rw [firstSeen_concat]
    by_cases hw : w ∈ firstSeen vs
    · rwa [see_of_mem hw]
    · rw [see_of_not_mem hw, List.pairwise_append]
      refine ⟨hkeep, List.pairwise_singleton _ w, ?_⟩
      intro v hv v' hv'
      obtain rfl := List.mem_singleton.mp hv'
      have hmem := mem_firstSeen.mp hv
      rw [rank_of_isPrefix (List.prefix_append vs [v']) hmem,
        rank_append_self fun h => hw (mem_firstSeen.mpr h)]
      exact rank_lt hmem

end Lists

section Sorted

variable {X : Type*} [Enumerated X] [PartialOrder X] {α : Type*} [DecidableEq α]

/-- A value is first visited at the least point at which it is taken. -/
theorem exists_isLeast (hsorted : (all : List X).Pairwise (· < ·)) {g : X → α} {v : α}
    (hv : v ∈ visited g) :
    ∃ x, (all : List X)[rank (all.map g) v]? = some x ∧ IsLeast {x | g x = v} x := by
  have hmem : v ∈ all.map g := mem_firstSeen.mp hv
  have hfirst := getElem?_rank hmem
  rw [List.getElem?_map, Option.map_eq_some_iff] at hfirst
  obtain ⟨x, hx, hgx⟩ := hfirst
  refine ⟨x, hx, hgx, ?_⟩
  intro y hgy
  obtain ⟨j, hj⟩ := List.getElem?_of_mem (mem_all y)
  have hle : rank (all.map g) v ≤ j := by
    refine rank_le_of_getElem? ?_
    rw [List.getElem?_map, hj, Option.map_some, show g y = v from hgy]
  rcases hle.eq_or_lt with heq | hlt
  · rw [heq, hj] at hx
    exact (Option.some.inj hx).ge
  · obtain ⟨hi, rfl⟩ := List.getElem?_eq_some_iff.mp hx
    obtain ⟨hj', rfl⟩ := List.getElem?_eq_some_iff.mp hj
    exact (List.pairwise_iff_getElem.mp hsorted _ _ hi hj' hlt).le

/-- Values visited later have larger least points. -/
theorem visited_sorted (hsorted : (all : List X).Pairwise (· < ·)) (g : X → α) :
    (visited g).Pairwise fun v w =>
      ∀ x y, IsLeast {x | g x = v} x → IsLeast {x | g x = w} y → x < y := by
  refine (firstSeen_sorted (all.map g)).imp_of_mem fun {v w} hv hw hlt x y hx hy => ?_
  obtain ⟨x', hx', hleast⟩ := exists_isLeast hsorted hv
  obtain ⟨y', hy', hleast'⟩ := exists_isLeast hsorted hw
  rw [hx.unique hleast, hy.unique hleast']
  obtain ⟨hi, rfl⟩ := List.getElem?_eq_some_iff.mp hx'
  obtain ⟨hj, rfl⟩ := List.getElem?_eq_some_iff.mp hy'
  exact List.pairwise_iff_getElem.mp hsorted _ _ hi hj hlt

end Sorted

end FirstVisit
