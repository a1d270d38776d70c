import Cflobdd.FirstVisit.Enumerated
import Mathlib.Tactic.Ring

/-!
# Assignments of `2 ^ k` variables

A node of level `k + 1` reads the first half of its assignment with its A-connection
and the second half with a B-connection. Assignments are therefore binary trees here,
listed in lexicographic order, with their translation from and to the flat lists the
code is given.
-/

namespace Cflobdd

open FirstVisit Enumerated

/-- An assignment of `2 ^ k` boolean variables as a binary tree of depth `k`. -/
inductive Asg : ℕ → Type where
  /-- The value of the only variable. -/
  | leaf (value : Bool) : Asg 0
  /-- The values of the first and of the second half of the variables. -/
  | node {k : ℕ} (left right : Asg k) : Asg (k + 1)

namespace Asg

/-- The lexicographic enumeration, the first half being the more significant one. -/
@[reducible] def enumerated : (k : ℕ) → Enumerated (Asg k)
  | 0 =>
    { all := [leaf false, leaf true]
      nodup_all := by simp
      mem_all := by
        rintro (b | _)
        cases b <;> simp }
  | k + 1 =>
    letI := enumerated k
    { all := pairs node
      nodup_all := nodup_pairs fun x y x' y' h => by
        cases h
        exact ⟨rfl, rfl⟩
      mem_all := by
        rintro (_ | ⟨x, y⟩)
        exact mem_pairs x y }

instance (k : ℕ) : Enumerated (Asg k) := enumerated k

/-- The assignments of one variable, false first. -/
theorem all_zero : (all : List (Asg 0)) = [leaf false, leaf true] := rfl

/-- The assignments of a level are pairs of those of the level below, in lexicographic order. -/
theorem all_succ (k : ℕ) : (all : List (Asg (k + 1))) = pairs node := rfl

/-- There are `2 ^ 2 ^ k` assignments of `2 ^ k` variables. -/
theorem length_all (k : ℕ) : (all : List (Asg k)).length = 2 ^ 2 ^ k := by
  induction k with
  | zero => rfl
  | succ k ih =>
    rw [all_succ, pairs, List.length_flatMap]
    simp only [List.length_map, List.map_const', List.sum_replicate_nat, ih]
    ring

variable {k : ℕ}

/-- The values of the variables in order. -/
def toList : {k : ℕ} → Asg k → List Bool
  | _, leaf b => [b]
  | _, node x y => x.toList ++ y.toList

/-- The list of one value. -/
@[simp] theorem toList_leaf (b : Bool) : (leaf b).toList = [b] := rfl

/-- The values of the first half come first. -/
@[simp] theorem toList_node (x y : Asg k) : (node x y).toList = x.toList ++ y.toList := rfl

/-- There is a value for each of the `2 ^ k` variables. -/
@[simp] theorem length_toList (a : Asg k) : a.toList.length = 2 ^ k := by
  induction a with
  | leaf b => rfl
  | node x y ihx ihy =>
    rw [toList_node, List.length_append, ihx, ihy]
    ring

/-- An assignment is determined by the list of its values. -/
theorem toList_injective : Function.Injective (toList (k := k)) := by
  intro a
  induction a with
  | leaf b =>
    rintro (b' | _) h
    simpa using h
  | node x y ihx ihy =>
    rintro (_ | ⟨x', y'⟩) h
    obtain ⟨hx, hy⟩ := List.append_inj h (by simp)
    rw [ihx hx, ihy hy]

/-- The assignment with the given list of values. -/
def ofList : (k : ℕ) → List Bool → Asg k
  | 0, l => leaf (l.headD false)
  | k + 1, l => node (ofList k (l.take (2 ^ k))) (ofList k (l.drop (2 ^ k)))

/-- Every list of the right length is the list of an assignment. -/
theorem toList_ofList {l : List Bool} (h : l.length = 2 ^ k) : (ofList k l).toList = l := by
  induction k generalizing l with
  | zero =>
    obtain ⟨b, rfl⟩ := List.length_eq_one_iff.mp h
    rfl
  | succ k ih =>
    rw [pow_succ] at h
    rw [ofList, toList_node, ih (by simp; omega), ih (by simp; omega), List.take_append_drop]

/-- Every list of the right length is the list of an assignment. -/
theorem exists_toList {l : List Bool} (h : l.length = 2 ^ k) : ∃ a : Asg k, a.toList = l :=
  ⟨ofList k l, toList_ofList h⟩

/-- The value of a variable. -/
def get : {k : ℕ} → Asg k → ℕ → Bool
  | _, leaf b, _ => b
  | k + 1, node x y, i => if i < 2 ^ k then x.get i else y.get (i - 2 ^ k)

/-- The assignment with one variable changed. -/
def set : {k : ℕ} → Asg k → ℕ → Bool → Asg k
  | _, leaf _, _, v => leaf v
  | k + 1, node x y, i, v => if i < 2 ^ k then node (x.set i v) y else node x (y.set (i - 2 ^ k) v)

/-- The only variable. -/
theorem get_leaf (b : Bool) (i : ℕ) : (leaf b).get i = b := rfl

/-- A variable of the first half. -/
theorem get_node_left (x y : Asg k) {i : ℕ} (h : i < 2 ^ k) : (node x y).get i = x.get i :=
  if_pos h

/-- A variable of the second half, counted from its start. -/
theorem get_node_right (x y : Asg k) {i : ℕ} (h : ¬i < 2 ^ k) :
    (node x y).get i = y.get (i - 2 ^ k) := if_neg h

/-- A variable of the first half is set there. -/
theorem set_node_left (x y : Asg k) {i : ℕ} (h : i < 2 ^ k) (v : Bool) :
    (node x y).set i v = node (x.set i v) y := if_pos h

/-- A variable of the second half is set there. -/
theorem set_node_right (x y : Asg k) {i : ℕ} (h : ¬i < 2 ^ k) (v : Bool) :
    (node x y).set i v = node x (y.set (i - 2 ^ k) v) := if_neg h

/-- The entries of the list are the values of the variables. -/
theorem getElem?_toList (a : Asg k) {i : ℕ} (h : i < 2 ^ k) : a.toList[i]? = some (a.get i) := by
  induction a generalizing i with
  | leaf b =>
    obtain rfl : i = 0 := by simpa using h
    rfl
  | @node k x y ihx ihy =>
    rw [pow_succ] at h
    by_cases hi : i < 2 ^ k
    · rw [toList_node, get_node_left x y hi, List.getElem?_append_left (by simpa using hi), ihx hi]
    · rw [toList_node, get_node_right x y hi, List.getElem?_append_right (by simpa using hi),
        length_toList, ihy (by omega)]

/-- To set a variable is to set an entry of the list. -/
theorem toList_set (a : Asg k) {i : ℕ} (h : i < 2 ^ k) (v : Bool) :
    (a.set i v).toList = a.toList.set i v := by
  induction a generalizing i with
  | leaf b =>
    obtain rfl : i = 0 := by simpa using h
    rfl
  | @node k x y ihx ihy =>
    rw [pow_succ] at h
    by_cases hi : i < 2 ^ k
    · rw [set_node_left x y hi, toList_node, toList_node, ihx hi,
        List.set_append_left i v (by simpa using hi)]
    · rw [set_node_right x y hi, toList_node, toList_node, ihy (by omega),
        List.set_append_right i v (by simpa using hi), length_toList]

/-- A variable that was set has its new value. -/
theorem get_set_self (a : Asg k) {i : ℕ} (h : i < 2 ^ k) (v : Bool) : (a.set i v).get i = v := by
  have hget := getElem?_toList (a.set i v) h
  rw [toList_set a h, List.getElem?_set_self (by simpa using h)] at hget
  exact (Option.some.inj hget).symm

/-- Setting a variable leaves the others alone. -/
theorem get_set_of_ne (a : Asg k) {i j : ℕ} (hi : i < 2 ^ k) (hj : j < 2 ^ k) (hij : i ≠ j)
    (v : Bool) : (a.set i v).get j = a.get j := by
  have hget := getElem?_toList (a.set i v) hj
  rw [toList_set a hi, List.getElem?_set_ne hij, getElem?_toList a hj] at hget
  exact (Option.some.inj hget).symm

/-- The last value counts. -/
theorem set_set (a : Asg k) {i : ℕ} (h : i < 2 ^ k) (v w : Bool) :
    (a.set i v).set i w = a.set i w := by
  refine toList_injective ?_
  rw [toList_set _ h, toList_set a h, toList_set a h, List.set_set]

/-- Different variables may be set in either order. -/
theorem set_comm (a : Asg k) {i j : ℕ} (hi : i < 2 ^ k) (hj : j < 2 ^ k) (hij : i ≠ j)
    (v w : Bool) : (a.set i v).set j w = (a.set j w).set i v := by
  refine toList_injective ?_
  rw [toList_set _ hj, toList_set _ hi, toList_set _ hi, toList_set _ hj, List.set_comm _ _ hij]

/-- Setting a variable to the value it has changes nothing. -/
theorem set_of_get (a : Asg k) {i : ℕ} (h : i < 2 ^ k) {v : Bool} (hv : a.get i = v) :
    a.set i v = a := by
  refine toList_injective ?_
  rw [toList_set a h]
  refine List.ext_getElem? fun j => ?_
  by_cases hij : i = j
  · subst hij
    rw [List.getElem?_set_self (by simpa using h), getElem?_toList a h, hv]
  · rw [List.getElem?_set_ne hij]

/-- All variables false. -/
def allFalse : (k : ℕ) → Asg k
  | 0 => leaf false
  | k + 1 => node (allFalse k) (allFalse k)

/-- All variables are false in the first assignment. -/
@[simp] theorem get_allFalse (i : ℕ) : (allFalse k).get i = false := by
  induction k generalizing i with
  | zero => rfl
  | succ k ih =>
    rw [allFalse, get]
    split <;> exact ih _

/-- The first assignment as a list. -/
theorem toList_allFalse : (allFalse k).toList = List.replicate (2 ^ k) false := by
  induction k with
  | zero => rfl
  | succ k ih => rw [allFalse, toList_node, ih, List.replicate_append_replicate, pow_succ, mul_two]

/-- The enumeration starts with all variables false. -/
theorem exists_all_eq (k : ℕ) : ∃ rest, (all : List (Asg k)) = allFalse k :: rest := by
  induction k with
  | zero => exact ⟨_, rfl⟩
  | succ k ih =>
    obtain ⟨rest, hrest⟩ := ih
    rw [all_succ, pairs, hrest]
    exact ⟨_, rfl⟩

end Asg

section Row

variable {α : Type} {k : ℕ}

/-- A function of the second half of an assignment, for each value of the first half. -/
def row (g : Asg (k + 1) → α) : Asg k → Asg k → α := fun x y => g (.node x y)

/-- A row is the function with the first half of the variables fixed. -/
@[simp] theorem row_apply (g : Asg (k + 1) → α) (x y : Asg k) : row g x y = g (.node x y) := rfl

variable [DecidableEq α]

/-- A function visits its values row by row. -/
theorem visited_rows (g : Asg (k + 1) → α) :
    visited g = firstSeen ((visited (row g)).flatMap visited) :=
  visited_pairs (Asg.all_succ k) g

/-- The values of a function of one variable, in the order of the assignments. -/
theorem visited_zero (g : Asg 0 → α) :
    visited g = if g (.leaf false) = g (.leaf true) then [g (.leaf false)]
      else [g (.leaf false), g (.leaf true)] := by
  have hall : (all.map g : List α) = [g (.leaf false), g (.leaf true)] := rfl
  rw [visited, hall]
  by_cases h : g (.leaf false) = g (.leaf true)
  · simp [firstSeen, see, h]
  · simp [firstSeen, see, h, Ne.symm h]

/-- The first value visited is the one at all variables false. -/
theorem exists_visited_eq (g : Asg k → α) : ∃ rest, visited g = g (.allFalse k) :: rest := by
  obtain ⟨rest, hrest⟩ := Asg.exists_all_eq k
  have hprefix : [g (.allFalse k)] <+: visited g := by
    rw [visited, hrest]
    exact prefix_seeAll [g (.allFalse k)] (rest.map g)
  obtain ⟨tail, htail⟩ := hprefix
  exact ⟨tail, htail.symm⟩

/-- A boolean function that is not constant visits both values, the one at all variables
false first. -/
theorem visited_bool {F : Asg k → Bool} {b : Bool} (hfirst : F (.allFalse k) = b)
    (hother : ∃ a, F a = !b) : visited F = [b, !b] := by
  obtain ⟨rest, hrest⟩ := exists_visited_eq F
  have hnodup := nodup_visited F
  have hmem := mem_visited.mpr hother
  rw [hrest, hfirst] at hnodup hmem ⊢
  match rest with
  | [] => simp at hmem
  | [c] =>
    have hc : c = !b := by simpa using Eq.symm (by simpa using hmem)
    rw [hc]
  | c :: d :: rest =>
    exfalso
    cases b <;> cases c <;> cases d <;> simp at hnodup

/-- A variable is false first and takes both values. -/
theorem visited_get {i : ℕ} (h : i < 2 ^ k) : visited (fun a : Asg k => a.get i) = [false, true] :=
  visited_bool (Asg.get_allFalse i) ⟨(Asg.allFalse k).set i true, Asg.get_set_self _ h true⟩

/-- The values of a row are values of the function. -/
theorem mem_visited_of_row {g : Asg (k + 1) → α} {r : Asg k → α} (hr : r ∈ visited (row g))
    (y : Asg k) : r y ∈ visited g := by
  obtain ⟨x, rfl⟩ := mem_visited.mp hr
  exact mem_visited_self g (.node x y)

/-- The values of a row have different numbers among those of the function. -/
theorem rank_injOn_row {g : Asg (k + 1) → α} {r : Asg k → α} (hr : r ∈ visited (row g)) :
    Set.InjOn (rank (visited g)) (Set.range r) := by
  rintro _ ⟨y, rfl⟩ _ ⟨y', rfl⟩ h
  exact rank_injOn _ (mem_visited_of_row hr y) (mem_visited_of_row hr y') h

end Row

end Cflobdd
