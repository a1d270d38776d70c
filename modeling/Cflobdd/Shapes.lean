import Cflobdd.Isomorphism
import Cflobdd.Recovery

/-!
# The graph of a function

A function has a graph of its own, without any store: its vertices are functions that number
their values by first visits, and the children of a vertex are the function that tells its
rows apart and the rows themselves. The nodes reachable from a diagram are this graph, so
the structural counts are computed from the function alone.
-/

namespace Cflobdd

open FirstVisit Enumerated Growing Traversal

/-- A vertex: the level and the numbers of the exits. -/
abbrev Shape := (k : ℕ) × (Asg k → ℕ)

/-- The vertex of a function. -/
def shapeOf {k : ℕ} {α : Type} [DecidableEq α] (g : Asg k → α) : Shape := ⟨k, number g⟩

/-- The function that tells the rows apart, and the rows. -/
def Shape.children : Shape → List Shape
  | ⟨0, _⟩ => []
  | ⟨_ + 1, e⟩ => shapeOf (row e) :: (visited (row e)).map shapeOf

/-- The vertices of the graph of a function. -/
def shapes {k : ℕ} {α : Type} [DecidableEq α] (g : Asg k → α) : List Shape :=
  visit Shape.children (k + 1) (shapeOf g) []

/-- The number of edges of the graph of a function. -/
def shapeEdges {k : ℕ} {α : Type} [DecidableEq α] (g : Asg k → α) : ℕ :=
  ((shapes g).map fun s => s.children.length).sum

/-- The node is that of the vertex. -/
def HasShape (m : Manager) (n : NodeId) (s : Shape) : Prop :=
  Represents m s.1 s.2 n ∧ number s.2 = s.2

section Children

variable {k : ℕ} {α β : Type} [DecidableEq α] [DecidableEq β]

/-- Functions that tell the same assignments apart have the same vertex. -/
theorem shapeOf_congr {g : Asg k → α} {g' : Asg k → β} (h : ∀ a b, g a = g b ↔ g' a = g' b) :
    shapeOf g = shapeOf g' := by
  have : Nonempty β := ⟨g' (.allFalse k)⟩
  obtain ⟨φ, hφ, rfl⟩ := exists_comp_of_eq_iff h
  rw [shapeOf, shapeOf, funext fun a => number_comp_of_injOn hφ a]

/-- The children of the vertex of a function. -/
theorem children_shapeOf (g : Asg (k + 1) → α) :
    (shapeOf g).children = shapeOf (row g) :: (visited (row g)).map shapeOf := by
  have hrank : Set.InjOn (fun (r : Asg k → α) y => rank (visited g) (r y))
      (Set.range (row g)) := by
    rintro _ ⟨x, rfl⟩ _ ⟨x', rfl⟩ h
    exact funext fun y => rank_visited_injOn g ⟨_, rfl⟩ ⟨_, rfl⟩ (congrFun h y)
  have hrows : row (number g) = fun x y => rank (visited g) (row g x y) := rfl
  rw [shapeOf, Shape.children, hrows, visited_comp_of_injOn hrank, List.map_map]
  congr 1
  · exact shapeOf_congr fun x x' => hrank.eq_iff ⟨x, rfl⟩ ⟨x', rfl⟩
  · refine List.map_congr_left fun r hr => ?_
    exact shapeOf_congr fun y y' => (rank_injOn_row hr).eq_iff ⟨y, rfl⟩ ⟨y', rfl⟩

/-- Children are one level lower. -/
theorem Shape.child_level (s c : Shape) (hc : c ∈ s.children) : c.1 < s.1 := by
  obtain ⟨k, e⟩ := s
  cases k with
  | zero => cases hc
  | succ k =>
    rcases List.mem_cons.mp hc with rfl | hc
    · exact Nat.lt_succ_self k
    · obtain ⟨r, -, rfl⟩ := List.mem_map.mp hc
      exact Nat.lt_succ_self k

end Children

section Matching

variable {m : Manager} {k : ℕ} {α : Type} [DecidableEq α] {g : Asg k → α} {n : NodeId}

/-- A node is that of the vertex of its function. -/
theorem Represents.hasShape (h : Represents m k g n) : HasShape m n (shapeOf g) :=
  ⟨h.numbered, number_number g⟩

/-- Leaves have no children. -/
theorem Represents.children_zero {g : Asg 0 → α} (h : Represents m 0 g n) : m.children n = [] := by
  rw [show n = _ from h]
  split
  · rw [Manager.children_of_record m.record?_dontCare]
    rfl
  · rw [Manager.children_of_record m.record?_fork]
    rfl

/-- Nodes match their vertices. -/
theorem hasShape_matching (m : Manager) :
    Matching m.children Shape.children (HasShape m) where
  right_unique := by
    rintro n ⟨k, e⟩ ⟨k', e'⟩ ⟨h, hnumber⟩ ⟨h', hnumber'⟩
    obtain rfl : k = k' := h.level_unique h'
    have heq : number e = number e' := h.number_eq h'
    rw [hnumber, hnumber'] at heq
    exact congrArg (Sigma.mk k) heq
  left_unique n n' s h h' := h.1.unique h'.1
  children := by
    rintro n ⟨k, e⟩ ⟨h, -⟩
    cases k with
    | zero =>
      rw [h.children_zero]
      exact .nil
    | succ k =>
      obtain ⟨aConn, bConns, hrecord, hparts⟩ := h.parts
      rw [Manager.children_of_record hrecord]
      refine .cons hparts.aTarget.hasShape ?_
      rw [List.forall₂_map_left_iff, List.forall₂_map_right_iff]
      exact hparts.bConns.flip.imp fun _ _ hb => hb.1.hasShape

/-- **The nodes reachable from a node are the graph of its function.** -/
theorem Represents.shapes_perm (h : Represents m k g n) (hm : m.Inv) :
    ∃ φ : NodeId → Shape, ((m.reachable n).map φ).Perm (shapes g) ∧
      ∀ x ∈ m.reachable n, HasShape m x (φ x) := by
  obtain ⟨r, hr, -⟩ := h.record
  exact (hasShape_matching m).exists_perm h.hasShape hm.child_level Shape.child_level
    (Manager.levelOf_lt_depth hm hr) (Nat.lt_succ_self k)

/-- The structural counts are those of the graph of the function. -/
theorem Represents.counts_eq (h : Represents m k g n) (hm : m.Inv) :
    (m.reachable n).length = (shapes g).length ∧
    ((m.reachable n).map fun x => (m.children x).length).sum = shapeEdges g := by
  obtain ⟨φ, hperm, hφ⟩ := h.shapes_perm hm
  constructor
  · rw [← hperm.length_eq, List.length_map]
  · rw [shapeEdges, ← (hperm.map fun s => s.children.length).sum_eq, List.map_map]
    congr 1
    refine List.map_congr_left fun x hx => ?_
    exact ((hasShape_matching m).children x _ (hφ x hx)).length_eq

end Matching

/-- The structural counts of a diagram, from its function. -/
theorem Denotes.counts_eq {m : Manager} {L : ℕ} {f : Bdd} {F : Asg L → Bool}
    (h : Denotes m L f F) (hm : m.Inv) :
    m.reachableNodeCount f = .ok (shapes F).length ∧
      m.reachableEdgeCount f = .ok (shapeEdges F) := by
  obtain ⟨r, hr, -⟩ := h.root.record
  obtain ⟨hnodes, hedges⟩ := Manager.counts_eq hm hr
  obtain ⟨hshapes, hshapeEdges⟩ := h.root.counts_eq hm
  exact ⟨by rw [hnodes, hshapes], by rw [hedges, hshapeEdges]⟩

/-- **The structural counts are computed from the function alone,** by the graph that has its
distinct subfunctions as vertices, in every session, calls that panicked included. -/
theorem counts_of_function {L : ℕ} {s : Session} (hs : AfterScript L s) {f : Returned}
    (hf : f ∈ s.returned) :
    s.manager.reachableNodeCount f.bdd =
        .ok (shapes fun a : Asg L => f.function a.toList).length ∧
      s.manager.reachableEdgeCount f.bdd =
        .ok (shapeEdges fun a : Asg L => f.function a.toList) :=
  (hs.valid.returned f hf).counts_eq hs.valid.inv

theorem counts_of_function_sample :
    sampleLiterals.manager.reachableNodeCount ⟨⟨2⟩, ⟨2⟩⟩ =
        .ok (shapes fun a : Asg 1 => a.toList.getD 0 false).length ∧
      sampleLiterals.manager.reachableEdgeCount ⟨⟨2⟩, ⟨2⟩⟩ =
        .ok (shapeEdges fun a : Asg 1 => a.toList.getD 0 false) :=
  counts_of_function sampleLiterals_reachable.1.afterScript sampleVar_mem

end Cflobdd
