import Cflobdd.Families
import Mathlib.Algebra.Order.BigOperators.Group.List

/-!
# The order of the variables

Two words are compared bit by bit. If the bits of a word are neighbours in its half of the
variables, the first half has to be remembered as a whole, and the diagram has a node for
each of its values. If the bits of both words alternate, each pair is compared where it is
read, and the diagram has two nodes at each level.
-/

namespace Cflobdd

open FirstVisit Enumerated Traversal

/-- Both halves of the variables agree. -/
def halvesAgree (a : List Bool) : Bool := a.take (a.length / 2) == a.drop (a.length / 2)

/-- Each variable with an even index agrees with the next one. -/
def neighboursAgree : List Bool → Bool
  | x :: y :: a => x == y && neighboursAgree a
  | _ => true

section Functions

variable {k : ℕ}

/-- The comparison of halves compares the two children of an assignment. -/
theorem halvesAgree_node (x y : Asg k) :
    halvesAgree (Asg.node x y).toList = (x.toList == y.toList) := by
  have hhalf : (x.toList ++ y.toList).length / 2 = x.toList.length := by
    rw [List.length_append, Asg.length_toList, Asg.length_toList]
    omega
  rw [halvesAgree, Asg.toList_node, hhalf, List.take_left, List.drop_left]

/-- Neighbours are compared part by part where the first part has an even length. -/
theorem neighboursAgree_append (a b : List Bool) (ha : Even a.length) :
    neighboursAgree (a ++ b) = (neighboursAgree a && neighboursAgree b) := by
  induction a using neighboursAgree.induct with
  | case1 x y a ih =>
    have ha' : Even a.length := by simpa [Nat.even_add_one] using ha
    rw [List.cons_append, List.cons_append, neighboursAgree, neighboursAgree, ih ha',
      Bool.and_assoc]
  | case2 a hshort =>
    match a, hshort with
    | [], _ => rfl
    | [_], _ => simp at ha
    | x :: y :: a, hshort => exact absurd rfl (hshort x y a)

/-- From the second level on no pair of neighbours lies across the middle. -/
theorem neighboursAgree_node (x y : Asg (k + 1)) : neighboursAgree (Asg.node x y).toList =
    (neighboursAgree x.toList && neighboursAgree y.toList) := by
  refine neighboursAgree_append _ _ ⟨2 ^ k, ?_⟩
  rw [Asg.length_toList, pow_succ, mul_two]

/-- In the first assignment all neighbours agree. -/
theorem neighboursAgree_allFalse (k : ℕ) : neighboursAgree (Asg.allFalse k).toList = true := by
  cases k with
  | zero => rfl
  | succ k =>
    induction k with
    | zero => rfl
    | succ k ih =>
      rw [Asg.allFalse, neighboursAgree_node, ih]
      rfl

/-- The comparison of neighbours is true first and takes both values. -/
theorem visited_neighboursAgree (k : ℕ) :
    visited (fun a : Asg (k + 1) => neighboursAgree a.toList) = [true, false] := by
  refine visited_bool (neighboursAgree_allFalse _) ?_
  induction k with
  | zero => exact ⟨.node (.leaf false) (.leaf true), rfl⟩
  | succ k ih =>
    obtain ⟨a, ha⟩ := ih
    refine ⟨.node a (.allFalse _), ?_⟩
    rw [neighboursAgree_node, ha]
    rfl

/-- There is an assignment that differs from a given one. -/
theorem Asg.exists_ne (p : Asg k) : ∃ r, p ≠ r := by
  by_cases h : p.get 0 = true
  · refine ⟨.allFalse k, ?_⟩
    rintro rfl
    rw [Asg.get_allFalse] at h
    cases h
  · refine ⟨p.set 0 true, fun heq => h ?_⟩
    rw [heq, p.get_set_self (Nat.two_pow_pos k)]

/-- An assignment that differs from two given ones. -/
theorem Asg.exists_ne_ne (p q : Asg (k + 1)) : ∃ r, p ≠ r ∧ q ≠ r := by
  cases p with
  | node p₁ p₂ =>
    cases q with
    | node q₁ q₂ =>
      obtain ⟨r₁, h₁⟩ := Asg.exists_ne p₁
      obtain ⟨r₂, h₂⟩ := Asg.exists_ne q₂
      exact ⟨.node r₁ r₂, fun h => h₁ (Asg.node.inj h).1, fun h => h₂ (Asg.node.inj h).2⟩

/-- Whether an assignment is the given one. -/
def Asg.is (p a : Asg k) : Bool := p.toList == a.toList

/-- The test finds the one assignment it is for. -/
theorem Asg.is_iff {p a : Asg k} : p.is a = true ↔ p = a :=
  beq_iff_eq.trans Asg.toList_injective.eq_iff

/-- It is true at that assignment. -/
theorem Asg.is_self (p : Asg k) : p.is p = true := Asg.is_iff.mpr rfl

/-- It is false at all others. -/
theorem Asg.is_of_ne {p a : Asg k} (h : p ≠ a) : p.is a = false :=
  Bool.eq_false_iff.mpr fun his => h (Asg.is_iff.mp his)

/-- The test for an assignment tests both halves. -/
theorem Asg.is_node (p q x y : Asg k) : (node p q).is (node x y) = (p.is x && q.is y) := by
  rw [Bool.eq_iff_iff, Bool.and_eq_true, is_iff, is_iff, is_iff, node.injEq]

/-- The test takes both values, in one order or the other. -/
theorem visited_is (p : Asg k) : ∃ b, visited p.is = [b, !b] := by
  refine ⟨_, visited_bool rfl ?_⟩
  by_cases h : p = .allFalse k
  · obtain ⟨r, hr⟩ := Asg.exists_ne p
    exact ⟨r, by rw [← h, Asg.is_of_ne hr, Asg.is_self]; rfl⟩
  · exact ⟨p, by rw [Asg.is_of_ne h, Asg.is_self]; rfl⟩

end Functions

section Vertices

variable {k : ℕ} {α β : Type} [DecidableEq α] [DecidableEq β]

/-- Two functions have one vertex exactly if they tell the same assignments apart. -/
theorem shapeOf_eq_iff {g : Asg k → α} {g' : Asg k → β} :
    shapeOf g = shapeOf g' ↔ ∀ a b, g a = g b ↔ g' a = g' b := by
  refine ⟨fun h a b => ?_, shapeOf_congr⟩
  have hnumber : number g = number g' := eq_of_heq (Sigma.mk.inj h).2
  rw [← number_eq_iff g, hnumber, number_eq_iff]

/-- The vertices of the functions that tell all assignments apart. -/
def discreteShape (k : ℕ) : Shape := shapeOf fun a : Asg k => a.toList

/-- The vertex of the function that tells one assignment from the others. -/
def pointShape (p : Asg k) : Shape := shapeOf p.is

/-- The vertex of the comparison of both halves. -/
def halvesShape (k : ℕ) : Shape := shapeOf fun a : Asg k => halvesAgree a.toList

/-- A function that tells all assignments apart has the finest vertex of its level. -/
theorem shapeOf_injective {g : Asg k → α} (hg : Function.Injective g) :
    shapeOf g = discreteShape k :=
  shapeOf_congr fun _ _ => hg.eq_iff.trans Asg.toList_injective.eq_iff.symm

/-- With one variable, to tell a point from the others is to tell all assignments apart. -/
theorem pointShape_zero (p : Asg 0) : pointShape p = discreteShape 0 := by
  refine shapeOf_injective ?_
  rintro (x | _) (y | _) h
  cases p with
  | leaf v =>
    rw [Bool.eq_iff_iff, Asg.is_iff, Asg.is_iff, Asg.leaf.injEq, Asg.leaf.injEq] at h
    rw [Asg.leaf.injEq]
    revert v x y
    decide

/-- From level one on, the tests for different assignments have different vertices. -/
theorem pointShape_injective : Function.Injective (pointShape (k := k + 1)) := by
  intro p q h
  by_contra hne
  obtain ⟨r, hp, hq⟩ := Asg.exists_ne_ne p q
  have hiff := shapeOf_eq_iff.mp h p r
  rw [Asg.is_self, Asg.is_of_ne hp, Asg.is_of_ne hq, Asg.is_of_ne (Ne.symm hne)] at hiff
  simp at hiff

/-- Such a test does not tell all assignments apart. -/
theorem pointShape_ne_discrete (p : Asg (k + 1)) : pointShape p ≠ discreteShape (k + 1) := by
  intro h
  obtain ⟨q, hq⟩ := Asg.exists_ne p
  obtain ⟨r, hp, hqr⟩ := Asg.exists_ne_ne p q
  have hiff := shapeOf_eq_iff.mp h q r
  rw [Asg.is_of_ne hq, Asg.is_of_ne hp] at hiff
  exact hqr (Asg.toList_injective (hiff.mp rfl))

/-- A constant does not either. -/
theorem constShape_ne_discrete (k : ℕ) : constShape k ≠ discreteShape k := by
  intro h
  obtain ⟨r, hr⟩ := Asg.exists_ne (.allFalse k)
  exact hr (Asg.toList_injective ((shapeOf_eq_iff.mp h _ r).mp rfl))

/-- A test for an assignment is not constant. -/
theorem pointShape_ne_const (p : Asg k) : pointShape p ≠ constShape k := by
  obtain ⟨b, hb⟩ := visited_is p
  exact shapeOf_ne_const hb

/-- Below the finest vertex, at each child again, is the finest vertex of the level. -/
theorem children_discreteShape (k : ℕ) : (discreteShape (k + 1)).children =
    discreteShape k :: List.replicate (2 ^ 2 ^ k) (discreteShape k) := by
  have hrow : row (fun a : Asg (k + 1) => a.toList) = fun x y => x.toList ++ y.toList := rfl
  have hrows : Function.Injective fun x y : Asg k => x.toList ++ y.toList := by
    intro x x' h
    exact Asg.toList_injective (List.append_inj_left (congrFun h (.allFalse k)) (by simp))
  have hshape : (shapeOf ∘ fun x y : Asg k => x.toList ++ y.toList) = fun _ => discreteShape k :=
    funext fun x => shapeOf_injective fun y y' h =>
      Asg.toList_injective (List.append_cancel_left h)
  rw [discreteShape, children_shapeOf, hrow, shapeOf_injective hrows, visited_of_injective hrows,
    List.map_map, hshape, List.map_const', Asg.length_all]

/-- Below the comparison of halves, the first half is remembered as a whole, and there is a test
for each of its values. -/
theorem children_halvesShape (k : ℕ) :
    (halvesShape (k + 1)).children = discreteShape k :: all.map (pointShape (k := k)) := by
  have hrow : row (fun a : Asg (k + 1) => halvesAgree a.toList) = Asg.is := by
    funext x y
    exact halvesAgree_node x y
  have hrows : Function.Injective (Asg.is (k := k)) := by
    intro x x' h
    have hself := congrFun h x'
    rw [Asg.is_self] at hself
    exact Asg.is_iff.mp hself
  rw [halvesShape, children_shapeOf, hrow, shapeOf_injective hrows, visited_of_injective hrows,
    List.map_map]
  rfl

/-- Below a test for an assignment are the tests for its halves and a constant, for the first
halves that fail. -/
theorem children_pointShape (p q : Asg k) : (pointShape (.node p q)).children.Perm
    [pointShape p, constShape k, pointShape q] := by
  have hrow : row (Asg.node p q).is = fun x y => p.is x && q.is y := by
    funext x y
    exact Asg.is_node p q x y
  have hne : (fun y => false && q.is y) ≠ fun y => true && q.is y := by
    intro h
    have hself := congrFun h q
    rw [Asg.is_self] at hself
    cases hself
  have hconst : shapeOf (fun y => false && q.is y) = constShape k := shapeOf_const fun _ _ => rfl
  have hpoint : shapeOf (fun y => true && q.is y) = pointShape q := rfl
  obtain ⟨b, hb⟩ := visited_is p
  rw [pointShape, children_of_selector (fun b y => b && q.is y) hrow hne hb]
  cases b with
  | false =>
    rw [hconst, Bool.not_false, hpoint]
    rfl
  | true =>
    rw [hpoint, Bool.not_true, hconst]
    exact (List.Perm.swap _ _ _).cons _

/-- The vertices of the comparison of neighbours. At level zero it is a single variable. -/
def neighboursShape : ℕ → Shape
  | 0 => discreteShape 0
  | k + 1 => shapeOf fun a : Asg (k + 1) => neighboursAgree a.toList

/-- At level one the comparison of neighbours is that of the halves. -/
theorem children_neighboursShape_one :
    (neighboursShape 1).children = List.replicate 3 (neighboursShape 0) := by
  have hhalves : neighboursShape 1 = halvesShape 1 := by
    refine congrArg shapeOf (funext fun a => ?_)
    cases a with
    | node x y =>
      rcases x with b | _
      rcases y with c | _
      cases b <;> cases c <;> rfl
  rw [hhalves, children_halvesShape,
    List.map_congr_left (g := fun _ => discreteShape 0) fun p _ => pointShape_zero p]
  rfl

/-- Above, all neighbours of the first half are compared, and after a success those of the
second. -/
theorem children_neighboursShape (k : ℕ) : (neighboursShape (k + 2)).children =
    [neighboursShape (k + 1), neighboursShape (k + 1), constShape (k + 1)] := by
  have hrow : row (fun a : Asg (k + 2) => neighboursAgree a.toList) =
      fun x y => neighboursAgree x.toList && neighboursAgree y.toList := by
    funext x y
    exact neighboursAgree_node x y
  have hne : (fun y : Asg (k + 1) => false && neighboursAgree y.toList) ≠
      fun y => true && neighboursAgree y.toList := by
    intro h
    have hfalse := congrFun h (.allFalse _)
    rw [neighboursAgree_allFalse] at hfalse
    cases hfalse
  rw [neighboursShape, children_of_selector (fun b y => b && neighboursAgree y.toList) hrow hne
    (visited_neighboursAgree k), Bool.not_true,
    shapeOf_const (g := fun y : Asg (k + 1) => false && neighboursAgree y.toList) fun _ _ => rfl]
  rfl

end Vertices

section Sizes

/-- The vertices of the points, at all levels from the first to the `n`-th. -/
def points (n : ℕ) : List Shape :=
  (List.range n).flatMap fun k => (all : List (Asg (k + 1))).map pointShape

variable {k n L : ℕ}

/-- The members of the list of points. -/
theorem mem_points {s : Shape} : s ∈ points n ↔ ∃ k < n, ∃ p : Asg (k + 1), pointShape p = s := by
  simp [points, mem_all]

/-- The points of all levels are different. -/
theorem nodup_points (n : ℕ) : (points n).Nodup := by
  refine List.nodup_flatMap.mpr ⟨fun k _ => nodup_all.map pointShape_injective, ?_⟩
  refine List.nodup_range.imp fun hne s hs hs' => ?_
  obtain ⟨p, -, rfl⟩ := List.mem_map.mp hs
  obtain ⟨q, -, heq⟩ := List.mem_map.mp hs'
  exact hne (Nat.succ.inj (congrArg Sigma.fst heq).symm)

/-- There is a point for each assignment of each level. -/
theorem length_points (n : ℕ) :
    (points n).length = ((List.range n).map fun k => 2 ^ 2 ^ (k + 1)).sum := by
  simp [points, List.length_flatMap, Asg.length_all]

/-- A point has three children. -/
theorem sum_points (n : ℕ) : ((points n).map fun s => s.children.length).sum =
    3 * ((List.range n).map fun k => 2 ^ 2 ^ (k + 1)).sum := by
  have hlength : ∀ s ∈ points n, s.children.length = 3 := by
    intro s hs
    obtain ⟨k, -, p, rfl⟩ := mem_points.mp hs
    cases p with
    | node p q => exact (children_pointShape p q).length_eq
  rw [List.map_congr_left hlength, List.map_const', List.sum_replicate_nat, length_points,
    Nat.mul_comm]

/-- The graph of the comparison of halves: its top, the chain of the functions that tell all
assignments apart, the points, and the constants. -/
def halvesNodes (k : ℕ) : List Shape :=
  halvesShape (k + 1) :: (chain discreteShape (k + 1) ++ (points k ++ chain constShape k))

/-- The four kinds of vertices in the graph of the comparison of halves. -/
theorem mem_halvesNodes {s : Shape} : s ∈ halvesNodes k ↔ s = halvesShape (k + 1) ∨
    (∃ j < k + 1, discreteShape j = s) ∨ (∃ j < k, ∃ p : Asg (j + 1), pointShape p = s) ∨
    ∃ j < k, constShape j = s := by
  rw [halvesNodes, List.mem_cons, List.mem_append, List.mem_append, mem_chain, mem_chain,
    mem_points]

/-- All points below the top are vertices of the graph; those of level zero are the leaf. -/
theorem pointShape_mem {j : ℕ} (hj : j ≤ k) (p : Asg j) : pointShape p ∈ halvesNodes k := by
  rw [mem_halvesNodes]
  cases j with
  | zero => exact .inr (.inl ⟨0, by omega, (pointShape_zero p).symm⟩)
  | succ j => exact .inr (.inr (.inl ⟨j, hj, p, rfl⟩))

/-- The list of these vertices has no repetitions: vertices of one level differ in kind. -/
theorem nodup_halvesNodes (k : ℕ) : (halvesNodes k).Nodup := by
  refine List.nodup_cons.mpr ⟨fun hs => ?_, ?_⟩
  · rw [List.mem_append, List.mem_append, mem_chain, mem_chain, mem_points] at hs
    rcases hs with ⟨j, hj, heq⟩ | ⟨j, hj, p, heq⟩ | ⟨j, hj, heq⟩
    all_goals
      have hlevel : _ = k + 1 := congrArg Sigma.fst heq
      dsimp only [discreteShape, pointShape, constShape, shapeOf] at hlevel
      omega
  · refine (nodup_chain fun _ => rfl).append ((nodup_points k).append
      (nodup_chain fun _ => rfl) fun s hs hs' => ?_) fun s hs hs' => ?_
    · obtain ⟨j, -, p, rfl⟩ := mem_points.mp hs
      obtain ⟨i, -, heq⟩ := mem_chain.mp hs'
      obtain rfl : i = j + 1 := congrArg Sigma.fst heq
      exact pointShape_ne_const p heq.symm
    · obtain ⟨j, -, rfl⟩ := mem_chain.mp hs
      rw [List.mem_append, mem_points, mem_chain] at hs'
      rcases hs' with ⟨i, -, p, heq⟩ | ⟨i, -, heq⟩
      · obtain rfl : i + 1 = j := congrArg Sigma.fst heq
        exact pointShape_ne_discrete p heq
      · obtain rfl : i = j := congrArg Sigma.fst heq
        exact constShape_ne_discrete i heq

/-- The children of a vertex of the graph are vertices of the graph. -/
theorem children_mem_halvesNodes {s c : Shape} (hs : s ∈ halvesNodes k) (hc : c ∈ s.children) :
    c ∈ halvesNodes k := by
  rcases mem_halvesNodes.mp hs with rfl | ⟨j, hj, rfl⟩ | ⟨j, hj, p, rfl⟩ | ⟨j, hj, rfl⟩
  · rw [children_halvesShape, List.mem_cons, List.mem_map] at hc
    rcases hc with rfl | ⟨p, -, rfl⟩
    · exact mem_halvesNodes.mpr (.inr (.inl ⟨k, Nat.lt_succ_self k, rfl⟩))
    · exact pointShape_mem le_rfl p
  · cases j with
    | zero => cases hc
    | succ j =>
      rw [children_discreteShape, List.mem_cons, List.mem_replicate] at hc
      obtain rfl : c = discreteShape j := hc.elim id fun h => h.2
      exact mem_halvesNodes.mpr (.inr (.inl ⟨j, by omega, rfl⟩))
  · cases p with
    | node p q =>
      rw [(children_pointShape p q).mem_iff] at hc
      simp only [List.mem_cons, List.not_mem_nil, or_false] at hc
      rcases hc with rfl | rfl | rfl
      · exact pointShape_mem (by omega) p
      · exact mem_halvesNodes.mpr (.inr (.inr (.inr ⟨j, hj, rfl⟩)))
      · exact pointShape_mem (by omega) q
  · cases j with
    | zero => cases hc
    | succ j =>
      obtain rfl : c = constShape j := by simpa [children_constShape] using hc
      exact mem_halvesNodes.mpr (.inr (.inr (.inr ⟨j, by omega, rfl⟩)))

/-- Every point is reached from the top, by induction down the levels: it is the first half of a
point one level above. -/
theorem reach_pointShape {j : ℕ} (hj : j ≤ k) (p : Asg j) :
    Reach Shape.children (halvesShape (k + 1)) (pointShape p) := by
  induction hj using Nat.decreasingInduction with
  | self =>
    refine .head ?_ .refl
    rw [children_halvesShape]
    exact List.mem_cons_of_mem _ (List.mem_map_of_mem (mem_all p))
  | of_succ j hj ih =>
    refine (ih (.node p p)).tail ?_
    rw [(children_pointShape p p).mem_iff]
    exact .head _

/-- The traversal from the top finds just these vertices. -/
theorem visit_halvesShape (k : ℕ) :
    (visit Shape.children (k + 2) (halvesShape (k + 1)) []).Perm (halvesNodes k) := by
  refine visit_perm Shape.child_level (Nat.lt_succ_self (k + 1)) (nodup_halvesNodes k)
    (List.mem_cons_self ..) (fun s hs c => children_mem_halvesNodes hs) fun s hs => ?_
  rcases mem_halvesNodes.mp hs with rfl | ⟨j, hj, rfl⟩ | ⟨j, hj, p, rfl⟩ | ⟨j, hj, rfl⟩
  · exact .refl
  · refine .head ?_ (reach_chain (fun i => ?_) (Nat.le_of_lt_succ hj))
    · rw [children_halvesShape]
      exact .head _
    · rw [children_discreteShape]
      exact .head _
  · exact reach_pointShape hj p
  · refine (reach_pointShape hj (.node (.allFalse j) (.allFalse j))).tail ?_
    rw [(children_pointShape _ _).mem_iff]
    exact .tail _ (.head _)

/-- The numbers of vertices and of edges in the graph of the comparison of halves. -/
theorem size_halvesAgree (k : ℕ) :
    (shapes fun a : Asg (k + 1) => halvesAgree a.toList).length =
        2 * (k + 1) + ((List.range k).map fun j => 2 ^ 2 ^ (j + 1)).sum ∧
      shapeEdges (fun a : Asg (k + 1) => halvesAgree a.toList) =
        1 + 2 ^ 2 ^ k + ((List.range k).map fun j => 1 + 2 ^ 2 ^ j).sum +
          (3 * ((List.range k).map fun j => 2 ^ 2 ^ (j + 1)).sum + 2 * (k - 1)) := by
  have hperm := visit_halvesShape k
  refine ⟨hperm.length_eq.trans ?_, (hperm.map _).sum_eq.trans ?_⟩
  · simp only [halvesNodes, chain, List.length_cons, List.length_append, List.length_map,
      List.length_range, length_points]
    omega
  · have hdiscrete : ∀ j, (discreteShape (j + 1)).children.length = 1 + 2 ^ 2 ^ j := by
      intro j
      rw [children_discreteShape, List.length_cons, List.length_replicate, Nat.add_comm]
    rw [halvesNodes, List.map_cons, List.sum_cons, List.map_append, List.sum_append,
      List.map_append, List.sum_append, sum_chain, sum_points, sum_constShape,
      children_halvesShape, List.length_cons, List.length_map, Asg.length_all,
      Shape.children_zero rfl, List.map_congr_left fun j _ => hdiscrete j, List.length_nil]
    omega

/-- One vertex of the comparison of neighbours for each level. -/
theorem level_neighboursShape (k : ℕ) : (neighboursShape k).1 = k := by
  cases k <;> rfl

/-- The comparison of neighbours is not constant. -/
theorem neighboursShape_ne_const (k : ℕ) : neighboursShape k ≠ constShape k := by
  cases k with
  | zero => exact (constShape_ne_discrete 0).symm
  | succ k => exact shapeOf_ne_const (visited_neighboursAgree k)

/-- The comparison of neighbours has that of the level below as a child. -/
theorem mem_children_neighboursShape (k : ℕ) :
    neighboursShape k ∈ (neighboursShape (k + 1)).children := by
  cases k with
  | zero =>
    rw [children_neighboursShape_one]
    exact .head _
  | succ k =>
    rw [children_neighboursShape]
    exact .head _

/-- The constants of all lower levels are reached, that of level zero through that of level
one. -/
theorem reach_const_of_neighbours {j : ℕ} (hj : j < L + 2) :
    Reach Shape.children (neighboursShape (L + 2)) (constShape j) := by
  have hsucc : ∀ i < L + 1,
      Reach Shape.children (neighboursShape (L + 2)) (constShape (i + 1)) := by
    intro i hi
    refine (reach_chain mem_children_neighboursShape (k := i + 2) (by omega)).tail ?_
    rw [children_neighboursShape]
    exact .tail _ (.tail _ (.head _))
  cases j with
  | zero =>
    refine (hsucc 0 (by omega)).tail ?_
    rw [children_constShape]
    exact .head _
  | succ j => exact hsucc j (by omega)

/-- The numbers of vertices and of edges in the graph of the comparison of neighbours. -/
theorem size_neighboursAgree (L : ℕ) :
    (shapes fun a : Asg (L + 2) => neighboursAgree a.toList).length = 2 * (L + 2) + 1 ∧
      shapeEdges (fun a : Asg (L + 2) => neighboursAgree a.toList) =
        3 * (L + 2) + 2 * (L + 1) := by
  have hchildren : ∀ k, ∀ c ∈ (neighboursShape (k + 1)).children,
      c = neighboursShape k ∨ c = constShape k := by
    intro k c hc
    cases k with
    | zero =>
      rw [children_neighboursShape_one, List.mem_replicate] at hc
      exact .inl hc.2
    | succ k =>
      simp only [children_neighboursShape, List.mem_cons, List.not_mem_nil, or_false] at hc
      tauto
  have hlength : ∀ k, (neighboursShape (k + 1)).children.length = 3 := by
    rintro (_ | k)
    · rw [children_neighboursShape_one, List.length_replicate]
    · rw [children_neighboursShape]
      rfl
  have hperm := visit_chains (L := L + 2) level_neighboursShape (fun _ => rfl)
    neighboursShape_ne_const mem_children_neighboursShape
    (fun _ hj => reach_const_of_neighbours hj) hchildren
    fun k c hc => by simpa [children_constShape] using hc
  refine ⟨hperm.length_eq.trans ?_, (hperm.map _).sum_eq.trans ?_⟩
  · simp only [chain, List.length_append, List.length_map, List.length_range]
    omega
  · rw [List.map_append, List.sum_append, sum_constShape, sum_chain, Shape.children_zero rfl,
      List.map_congr_left fun k _ => hlength k]
    simp only [List.length_nil, List.map_const', List.length_range, List.sum_replicate_nat]
    omega

end Sizes

section Sessions

variable {L : ℕ} {s : Session} {f : Returned}

/-- A diagram has no more nodes than the store. -/
theorem Session.Valid.nodes_le_nodeCount (hs : s.Valid L) (hf : f ∈ s.returned) {nodes edges : ℕ}
    (hsize : s.manager.HasSize f.bdd nodes edges) : nodes ≤ s.manager.nodeCount := by
  obtain ⟨r, hr, -⟩ := (hs.returned f hf).root.record
  have hcount := hsize.1
  rw [(Manager.counts_eq hs.inv hr).1, Except.ok.injEq] at hcount
  rw [← hcount]
  exact Manager.length_reachable_le hs.inv hr

/-- **The order of the variables matters:** in every session, calls that panicked included, a
diagram that compares the two halves of the variables has more nodes than a half has values,
and a diagram that compares neighbours has two nodes at each level but the last. A store with no
more nodes than there are ids of 32 bits holds the first one up to level five only. -/
theorem sizes_of_comparisons (hs : AfterScript (L + 2) s) (hf : f ∈ s.returned) :
    (s.manager.EvaluatesTo (L + 2) f.bdd halvesAgree → s.manager.HasSize f.bdd
      (2 * (L + 2) + ((List.range (L + 1)).map fun j => 2 ^ 2 ^ (j + 1)).sum)
      (1 + 2 ^ 2 ^ (L + 1) + ((List.range (L + 1)).map fun j => 1 + 2 ^ 2 ^ j).sum +
        (3 * ((List.range (L + 1)).map fun j => 2 ^ 2 ^ (j + 1)).sum + 2 * L))) ∧
    (s.manager.EvaluatesTo (L + 2) f.bdd halvesAgree → s.manager.nodeCount ≤ 2 ^ 32 →
      L + 2 ≤ 5) ∧
    (s.manager.EvaluatesTo (L + 2) f.bdd neighboursAgree → s.manager.HasSize f.bdd
      (2 * (L + 2) + 1) (3 * (L + 2) + 2 * (L + 1))) := by
  have hhalves : s.manager.EvaluatesTo (L + 2) f.bdd halvesAgree → s.manager.HasSize f.bdd
      (2 * (L + 2) + ((List.range (L + 1)).map fun j => 2 ^ 2 ^ (j + 1)).sum)
      (1 + 2 ^ 2 ^ (L + 1) + ((List.range (L + 1)).map fun j => 1 + 2 ^ 2 ^ j).sum +
        (3 * ((List.range (L + 1)).map fun j => 2 ^ 2 ^ (j + 1)).sum + 2 * L)) := by
    intro hF
    have hsize := hs.valid.hasSize hf hF
    rwa [(size_halvesAgree (L + 1)).1, (size_halvesAgree (L + 1)).2] at hsize
  refine ⟨hhalves, fun hF hcount => ?_, fun hF => ?_⟩
  · -- From level six on there is a node for each of the `2 ^ 32` values of five variables.
    have hle := (hs.valid.nodes_le_nodeCount hf (hhalves hF)).trans hcount
    by_contra hL
    have hmem : 2 ^ 2 ^ (4 + 1) ∈ (List.range (L + 1)).map fun j => 2 ^ 2 ^ (j + 1) :=
      List.mem_map_of_mem (List.mem_range.mpr (by omega))
    have hsum := List.le_sum_of_mem hmem
    norm_num at hsum hle
    omega
  · have hsize := hs.valid.hasSize hf hF
    rwa [(size_neighboursAgree L).1, (size_neighboursAgree L).2] at hsize

/-- Of four variables, the first is compared with the third and the second with the
fourth. -/
def sampleComparison : Session :=
  (Session.run ⟨Manager.fresh 2, []⟩ [.call (.mkProj 0), .call (.mkProj 2),
    .call (.connective .iff 0 1), .call (.mkProj 1), .call (.mkProj 3),
    .call (.connective .iff 3 4), .call (.connective .and 2 5)]).2

/-- The last diagram of the sample is the comparison of halves. -/
theorem sampleComparison_evaluates :
    sampleComparison.manager.EvaluatesTo 2 ⟨⟨20⟩, ⟨4⟩⟩ halvesAgree := by
  have heval : ∀ v w x y : Bool, sampleComparison.manager.evaluate ⟨⟨20⟩, ⟨4⟩⟩ [v, w, x, y] =
      .ok (halvesAgree [v, w, x, y]) := by
    decide +kernel
  intro a ha
  match a, ha with
  | [v, w, x, y], _ => exact heval v w x y

/-- With four variables the comparison of halves has eight nodes and twenty edges. -/
theorem sizes_of_comparisons_sample : sampleComparison.manager.HasSize ⟨⟨20⟩, ⟨4⟩⟩ 8 20 := by
  have hbdd : (sampleComparison.returned.map Returned.bdd)[6]? = some ⟨⟨20⟩, ⟨4⟩⟩ := by
    decide +kernel
  have hs : AfterScript 2 sampleComparison := ⟨Manager.fresh 2, _, rfl, rfl⟩
  obtain ⟨f, hf, hroot⟩ := List.mem_map.mp (List.mem_of_getElem? hbdd)
  have h := (sizes_of_comparisons (L := 0) hs hf).1
  rw [hroot] at h
  exact h sampleComparison_evaluates

end Sessions

end Cflobdd
