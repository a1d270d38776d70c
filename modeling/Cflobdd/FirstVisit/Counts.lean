import Cflobdd.FirstVisit.Enumerated
import Mathlib.Algebra.BigOperators.Group.Finset.Basic
import Mathlib.Algebra.Group.Action.Defs
import Mathlib.Data.Set.Card
import Mathlib.Tactic.Ring

/-!
# How often values are taken

The number of points at which a function on an enumerated domain takes a value. For
a function on pairs it is a sum over the rows: each row contributes how often it
occurs, times how often it takes the value.
-/

namespace FirstVisit

open Enumerated

variable {X : Type*} [Enumerated X] {α : Type*} [DecidableEq α]

/-- How often a function takes a value. -/
def visits (g : X → α) (v : α) : ℕ := (all : List X).countP fun x => decide (g x = v)

/-- How often each value is taken, in the order of the visits. -/
def visitCounts (g : X → α) : List ℕ := (visited g).map (visits g)

/-- There is a count for each value. -/
@[simp] theorem length_visitCounts (g : X → α) : (visitCounts g).length = (visited g).length :=
  List.length_map ..

/-- No value is taken more often than there are inputs. -/
theorem visits_le (g : X → α) (v : α) : visits g v ≤ (all : List X).length := List.countP_le_length

/-- A value that is taken has a positive count. -/
theorem visits_pos (g : X → α) (x : X) : 0 < visits g (g x) :=
  List.countP_pos_iff.mpr ⟨x, mem_all x, decide_eq_true rfl⟩

/-- The points at which a value is taken, as a set. -/
theorem visits_eq_ncard (g : X → α) (v : α) : visits g v = {x | g x = v}.ncard := by
  let points : Finset X := ⟨(all.filter fun x => decide (g x = v) : List X), nodup_all.filter _⟩
  have hpoints : {x | g x = v} = (points : Set X) := by
    ext x
    change g x = v ↔ x ∈ all.filter fun x => decide (g x = v)
    simp [mem_all]
  rw [hpoints, Set.ncard_coe_finset, visits, List.countP_eq_length_filter]
  rfl

/-- A value that is not taken has the count zero. -/
theorem visits_of_not_mem {g : X → α} {v : α} (h : v ∉ visited g) : visits g v = 0 := by
  refine List.countP_eq_zero.mpr fun x _ hx => h ?_
  rw [← of_decide_eq_true hx]
  exact mem_visited_self g x

/-- The counts are in the order of the values. -/
theorem getElem?_visitCounts {g : X → α} {i : ℕ} {v : α} (h : (visited g)[i]? = some v) :
    (visitCounts g)[i]? = some (visits g v) := by
  rw [visitCounts, List.getElem?_map, h, Option.map_some]

/-- The numbers of the values are taken as often as the values. -/
theorem visits_number (g : X → α) (x : X) : visits (number g) (number g x) = visits g (g x) := by
  refine List.countP_congr fun y _ => ?_
  rw [decide_eq_true_iff, decide_eq_true_iff]
  exact number_eq_iff g y x

/-- Numbering the values keeps the counts. -/
theorem visitCounts_number (g : X → α) : visitCounts (number g) = visitCounts g := by
  rw [visitCounts, visited_number, ← map_rank_self (nodup_visited g), List.map_map, visitCounts]
  refine List.map_congr_left fun v hv => ?_
  obtain ⟨x, rfl⟩ := mem_visited.mp hv
  exact visits_number g x

/-- A sum over the domain, collected by values. -/
theorem sum_map_visited (g : X → α) (f : α → ℕ) :
    ((all : List X).map fun x => f (g x)).sum =
      ((visited g).map fun v => visits g v * f v).sum := by
  have hset : (all.map g).toFinset = (visited g).toFinset := by
    ext v
    rw [List.mem_toFinset, List.mem_toFinset, visited, mem_firstSeen]
  have hsum := Finset.sum_list_map_count (all.map g) f
  rw [List.map_map, hset, List.sum_toFinset _ (nodup_visited g)] at hsum
  refine hsum.trans (congrArg List.sum (List.map_congr_left fun v _ => ?_))
  rw [smul_eq_mul, List.count_eq_countP, List.countP_map]
  rfl

/-- The counts add up to the number of inputs. -/
theorem sum_visitCounts (g : X → α) : (visitCounts g).sum = (all : List X).length := by
  have h := sum_map_visited g fun _ => 1
  simp only [mul_one, List.map_const', List.sum_replicate, smul_eq_mul] at h
  exact h.symm

/-- How often a function on pairs takes a value, collected by rows. -/
theorem visits_pairs {Y Z : Type*} [Enumerated Y] [Enumerated Z] {pair : X → Y → Z}
    (hall : (all : List Z) = pairs pair) (g : Z → α) (v : α) :
    visits g v = ((visited fun x y => g (pair x y)).map fun r =>
      visits (fun x y => g (pair x y)) r * visits r v).sum := by
  rw [← sum_map_visited (fun x y => g (pair x y)) fun r => visits r v, visits, hall, pairs,
    List.countP_flatMap]
  refine congrArg List.sum (List.map_congr_left fun x _ => ?_)
  rw [Function.comp_apply, List.countP_map]
  rfl

end FirstVisit
