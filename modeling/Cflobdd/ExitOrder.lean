import Cflobdd.FirstVisit.Order
import Cflobdd.Semantics
import Mathlib.Data.List.Lex
import Mathlib.Order.Bounds.Image
import Mathlib.Order.BooleanAlgebra.Basic

/-!
# The order of the exits

Assignments are ordered lexicographically, the first variable being the most significant
one and false being less than true. The exits of a node are in the order of the least
assignments that take them. The value map of a diagram therefore starts with the value at
all variables false, and its order is determined by the function.
-/

namespace Cflobdd

open FirstVisit Growing Enumerated

namespace Asg

/-- Lists of one length are compared by their first parts first. -/
theorem append_lt_append {x x' : List Bool} (hlen : x.length = x'.length) (h : x < x')
    (y y' : List Bool) : x ++ y < x' ++ y' := by
  induction x generalizing x' with
  | nil =>
    obtain rfl := List.length_eq_zero_iff.mp hlen.symm
    exact absurd h (lt_irrefl _)
  | cons b x ih =>
    cases x' with
    | nil => simp at hlen
    | cons b' x' =>
      rw [List.cons_append, List.cons_append, List.cons_lt_cons_iff]
      rcases List.cons_lt_cons_iff.mp h with hb | ⟨rfl, hx⟩
      · exact .inl hb
      · exact .inr ⟨rfl, ih (by simpa using hlen) hx⟩

variable {k : ℕ}

/-- The lexicographic order. -/
instance : PartialOrder (Asg k) := PartialOrder.lift toList toList_injective

/-- The order of assignments is that of their lists. -/
theorem toList_monotone : Monotone (toList (k := k)) := fun _ _ h => h

/-- The first half decides. -/
theorem node_lt_node_left {x x' : Asg k} (h : x < x') (y y' : Asg k) : node x y < node x' y' :=
  append_lt_append (by simp) h y.toList y'.toList

/-- With the same first half the second decides. -/
theorem node_lt_node_right (x : Asg k) {y y' : Asg k} (h : y < y') : node x y < node x y' :=
  List.append_left_lt h

/-- The assignments are listed in their order. -/
theorem all_sorted (k : ℕ) : (all : List (Asg k)).Pairwise (· < ·) := by
  induction k with
  | zero => exact List.pairwise_pair.mpr (show [false] < [true] by decide)
  | succ k ih =>
    rw [all_succ, pairs, List.pairwise_flatMap]
    constructor
    · intro x _
      rw [List.pairwise_map]
      exact ih.imp fun h => node_lt_node_right x h
    · refine ih.imp fun {x x'} h a ha b hb => ?_
      obtain ⟨y, -, rfl⟩ := List.mem_map.mp ha
      obtain ⟨y', -, rfl⟩ := List.mem_map.mp hb
      exact node_lt_node_left h y y'

end Asg

/-- The assignments of `2 ^ k` variables that a node sends to an exit. -/
def Manager.reaching (m : Manager) (id : NodeId) (k exit : ℕ) : Set (List Bool) :=
  {a | a.length = 2 ^ k ∧ m.evaluateNode m.depth id a = .ok exit}

/-- The exits of a node are taken, and they are in the order of their least assignments. -/
structure ExitsOrdered (m : Manager) (id : NodeId) (k numExits : ℕ) : Prop where
  reached : ∀ exit < numExits, ∃ a, IsLeast (m.reaching id k exit) a
  ordered : ∀ exit exit' a a', exit < exit' → exit' < numExits →
    IsLeast (m.reaching id k exit) a → IsLeast (m.reaching id k exit') a' → a < a'

/-- The value map of a diagram starts with the value `b` at all variables false, and has a
second entry exactly if the function is not constant. -/
def ValuesOrdered (m : Manager) (L : ℕ) (f : Bdd) : Prop :=
  ∃ b values, m.evaluate f (List.replicate (2 ^ L) false) = .ok b ∧
    m.body? f.values = some values ∧ values[0]? = some b.toNat ∧
    ((∀ a : List Bool, a.length = 2 ^ L → m.evaluate f a = .ok b) → values = [b.toNat]) ∧
    ((∃ a : List Bool, a.length = 2 ^ L ∧ m.evaluate f a = .ok !b) →
      values = [b.toNat, (!b).toNat])

section Exits

variable {m : Manager} {k : ℕ} {α : Type} [DecidableEq α] {g : Asg k → α} {n : NodeId}

/-- A value is first visited at the least list of variables at which it is taken. -/
theorem exists_isLeast_toList {v : α} (hv : v ∈ visited g) :
    ∃ l, IsLeast (Asg.toList '' {a | g a = v}) l := by
  obtain ⟨a, -, ha⟩ := exists_isLeast (Asg.all_sorted k) hv
  exact ⟨a.toList, Asg.toList_monotone.map_isLeast ha⟩

/-- Values visited later are taken at larger lists first. -/
theorem visited_sorted_toList (g : Asg k → α) :
    (visited g).Pairwise fun v w => ∀ l l', IsLeast (Asg.toList '' {a | g a = v}) l →
      IsLeast (Asg.toList '' {a | g a = w}) l' → l < l' := by
  refine (visited_sorted (Asg.all_sorted k) g).imp_of_mem fun {v w} hv hw hlt l l' hl hl' => ?_
  obtain ⟨a, -, ha⟩ := exists_isLeast (Asg.all_sorted k) hv
  obtain ⟨a', -, ha'⟩ := exists_isLeast (Asg.all_sorted k) hw
  rw [hl.unique (Asg.toList_monotone.map_isLeast ha),
    hl'.unique (Asg.toList_monotone.map_isLeast ha')]
  exact hlt a a' ha ha'

/-- The assignments that reach an exit are those at which its value is taken. -/
theorem Represents.reaching_eq (h : Represents m k g n) (hk : k ≤ m.level) (exit : ℕ) :
    m.reaching n k exit = Asg.toList '' {a | number g a = exit} := by
  have hdepth : k < m.depth := Manager.lt_depth hk
  ext l
  constructor
  · rintro ⟨hlen, hok⟩
    obtain ⟨a, rfl⟩ := Asg.exists_toList hlen
    rw [h.evaluateNode hdepth a] at hok
    exact ⟨a, Except.ok.inj hok, rfl⟩
  · rintro ⟨a, rfl, rfl⟩
    exact ⟨Asg.length_toList a, h.evaluateNode hdepth a⟩

/-- The exits of a canonical node are in the order of their least assignments. -/
theorem Represents.exits_ordered (h : Represents m k g n) (hk : k ≤ m.level) :
    ExitsOrdered m n k (visited g).length := by
  constructor
  · intro exit hexit
    rw [h.reaching_eq hk]
    refine exists_isLeast_toList ?_
    rw [visited_number]
    exact List.mem_range.mpr hexit
  · intro exit exit' l l' hlt hexit' hl hl'
    rw [h.reaching_eq hk] at hl hl'
    have hsorted := visited_sorted_toList (number g)
    rw [visited_number, List.pairwise_iff_getElem] at hsorted
    have hvalues := hsorted exit exit' (by simpa using hlt.trans hexit') (by simpa using hexit') hlt
    simp only [List.getElem_range] at hvalues
    exact hvalues l l' hl hl'

end Exits

/-- The values of a diagram are in the order of their least assignments. -/
theorem Denotes.values_ordered {m : Manager} {L : ℕ} {f : Bdd} {F : Asg L → Bool}
    (h : Denotes m L f F) (hlevel : m.level = L) (hL : L ≤ 30) : ValuesOrdered m L f := by
  have hvalue : ∀ {a : Asg L} {b : Bool}, m.evaluate f a.toList = .ok b → F a = b := by
    intro a b hb
    rw [h.evaluate hlevel hL a] at hb
    exact Except.ok.inj hb
  obtain ⟨rest, hrest⟩ := exists_visited_eq F
  refine ⟨F (.allFalse L), _, ?_, h.values, ?_, ?_, ?_⟩
  · rw [← Asg.toList_allFalse]
    exact h.evaluate hlevel hL (.allFalse L)
  · rw [hrest]
    rfl
  · intro hconst
    rw [visited_of_const (.allFalse L) fun a => hvalue (hconst a.toList (Asg.length_toList a))]
    rfl
  · rintro ⟨l, hlen, hl⟩
    obtain ⟨a, rfl⟩ := Asg.exists_toList hlen
    rw [visited_bool rfl ⟨a, hvalue hl⟩]
    rfl

/-- **The order of the exits is fixed by the function:** in every reachable session, the
exits of every node are taken and are numbered in the order of their least assignments,
and the value map of every returned diagram is in the order this gives. -/
theorem exits_in_order {L : ℕ} {s : Session} (hs : Reachable L s) :
    (∀ id r, s.manager.record? id = some r →
      ExitsOrdered s.manager id r.level r.numExits) ∧
    ∀ f ∈ s.returned, ValuesOrdered s.manager L f.bdd := by
  constructor
  · intro id r hr
    obtain ⟨hlevel, e, he⟩ := hs.valid.inv.canonical id r hr
    rw [he.numExits_eq hr]
    exact he.exits_ordered hlevel
  · intro f hf
    exact (hs.valid.returned f hf).values_ordered hs.valid.level hs.valid.level_le.2

theorem exits_in_order_sample :
    (∀ id r, sampleSession.manager.record? id = some r →
      ExitsOrdered sampleSession.manager id r.level r.numExits) ∧
    ∀ f ∈ sampleSession.returned, ValuesOrdered sampleSession.manager 1 f.bdd :=
  exits_in_order sampleSession_reachable

end Cflobdd
