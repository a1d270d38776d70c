import Cflobdd.Shapes
import Mathlib.Data.Nat.Bitwise

/-!
# Sizes of some functions

The graphs of constants, of single variables, of the parity and of the conjunction of all
`2 ^ L` variables have a number of vertices and edges that is linear in `L`. The vertices of
such a graph form one or two chains, with one vertex at each level. No diagram of level `L`
has fewer nodes than one at each level.
-/

namespace Cflobdd

open FirstVisit Enumerated Traversal

section Chains

/-- One vertex for each level below `n`. -/
def chain (σ : ℕ → Shape) (n : ℕ) : List Shape := (List.range n).map σ

variable {σ τ : ℕ → Shape} {L n : ℕ}

/-- The members of a chain. -/
theorem mem_chain {s : Shape} : s ∈ chain σ n ↔ ∃ k < n, σ k = s := by
  simp [chain]

/-- A chain has one vertex for each level. -/
theorem nodup_chain (hσ : ∀ k, (σ k).1 = k) : (chain σ n).Nodup :=
  List.nodup_range.map fun k k' h => by rw [← hσ k, h, hσ k']

/-- The edges that leave the vertices of a chain. -/
theorem sum_chain (σ : ℕ → Shape) (n : ℕ) :
    ((chain σ (n + 1)).map fun s => s.children.length).sum = (σ 0).children.length +
      ((List.range n).map fun k => (σ (k + 1)).children.length).sum := by
  rw [chain, List.range_succ_eq_map, List.map_map, List.map_cons, List.sum_cons, List.map_map]
  rfl

/-- Vertices of level zero have no children. -/
theorem Shape.children_zero {s : Shape} (h : s.1 = 0) : s.children = [] := by
  obtain ⟨k, e⟩ := s
  obtain rfl : k = 0 := h
  rfl

/-- The vertices of a chain are reached from its top. -/
theorem reach_chain (hchild : ∀ k, σ k ∈ (σ (k + 1)).children) {k : ℕ} (hk : k ≤ L) :
    Reach Shape.children (σ L) (σ k) := by
  induction L with
  | zero =>
    obtain rfl : k = 0 := by omega
    exact .refl
  | succ L ih =>
    rcases Nat.lt_or_eq_of_le hk with hk | rfl
    · exact .head (hchild L) (ih (by omega))
    · exact .refl

/-- The vertices of a second chain that hangs below the first one. -/
theorem reach_below (hσσ : ∀ k, σ k ∈ (σ (k + 1)).children)
    (hστ : ∀ k, τ k ∈ (σ (k + 1)).children) {k : ℕ} (hk : k < L) :
    Reach Shape.children (σ L) (τ k) :=
  (reach_chain hσσ (k := k + 1) hk).tail (hστ k)

/-- A graph of two chains, the second below the first. -/
theorem visit_chains (hσ : ∀ k, (σ k).1 = k) (hτ : ∀ k, (τ k).1 = k) (hne : ∀ k, σ k ≠ τ k)
    (hσσ : ∀ k, σ k ∈ (σ (k + 1)).children)
    (hστ : ∀ k < L, Reach Shape.children (σ L) (τ k))
    (hσc : ∀ k, ∀ c ∈ (σ (k + 1)).children, c = σ k ∨ c = τ k)
    (hττ : ∀ k, ∀ c ∈ (τ (k + 1)).children, c = τ k) :
    (visit Shape.children (L + 1) (σ L) []).Perm (chain σ (L + 1) ++ chain τ L) := by
  refine visit_perm Shape.child_level (by rw [hσ]; exact Nat.lt_succ_self L) ?_ ?_ ?_ ?_
  · refine (nodup_chain hσ).append (nodup_chain hτ) fun s hs hs' => ?_
    obtain ⟨k, -, rfl⟩ := mem_chain.mp hs
    obtain ⟨k', -, heq⟩ := mem_chain.mp hs'
    obtain rfl : k' = k := by rw [← hτ k', heq, hσ]
    exact hne _ heq.symm
  · exact List.mem_append_left _ (mem_chain.mpr ⟨L, Nat.lt_succ_self L, rfl⟩)
  · intro s hs c hc
    rw [List.mem_append, mem_chain, mem_chain] at hs ⊢
    rcases hs with ⟨k, hk, rfl⟩ | ⟨k, hk, rfl⟩
    · cases k with
      | zero =>
        rw [Shape.children_zero (hσ 0)] at hc
        cases hc
      | succ k =>
        rcases hσc k c hc with rfl | rfl
        · exact .inl ⟨k, by omega, rfl⟩
        · exact .inr ⟨k, by omega, rfl⟩
    · cases k with
      | zero =>
        rw [Shape.children_zero (hτ 0)] at hc
        cases hc
      | succ k => exact .inr ⟨k, by omega, (hττ k c hc).symm⟩
  · intro s hs
    rw [List.mem_append, mem_chain, mem_chain] at hs
    rcases hs with ⟨k, hk, rfl⟩ | ⟨k, hk, rfl⟩
    · exact reach_chain hσσ (by omega)
    · exact hστ k hk

/-- A graph of one chain. -/
theorem visit_chain (hσ : ∀ k, (σ k).1 = k) (hσσ : ∀ k, σ k ∈ (σ (k + 1)).children)
    (hσc : ∀ k, ∀ c ∈ (σ (k + 1)).children, c = σ k) :
    (visit Shape.children (L + 1) (σ L) []).Perm (chain σ (L + 1)) := by
  refine visit_perm Shape.child_level (by rw [hσ]; exact Nat.lt_succ_self L) (nodup_chain hσ)
    (mem_chain.mpr ⟨L, Nat.lt_succ_self L, rfl⟩) ?_ ?_
  · intro s hs c hc
    obtain ⟨k, hk, rfl⟩ := mem_chain.mp hs
    cases k with
    | zero =>
      rw [Shape.children_zero (hσ 0)] at hc
      cases hc
    | succ k => exact mem_chain.mpr ⟨k, by omega, (hσc k c hc).symm⟩
  · intro s hs
    obtain ⟨k, hk, rfl⟩ := mem_chain.mp hs
    exact reach_chain hσσ (by omega)

end Chains

section Vertices

variable {k : ℕ} {α : Type} [DecidableEq α]

/-- The vertex of the constant functions. -/
def constShape (k : ℕ) : Shape := shapeOf fun _ : Asg k => ()

/-- All constant functions have one vertex. -/
theorem shapeOf_const {g : Asg k → α} (h : ∀ a b, g a = g b) : shapeOf g = constShape k :=
  shapeOf_congr fun a b => iff_of_true (h a b) rfl

/-- Below a constant are constants. -/
theorem children_constShape (k : ℕ) :
    (constShape (k + 1)).children = [constShape k, constShape k] := by
  have hrow : row (fun _ : Asg (k + 1) => ()) = fun _ _ => () := rfl
  rw [constShape, children_shapeOf, hrow, visited_of_const (.allFalse k) fun _ => rfl,
    shapeOf_const fun _ _ => rfl]
  rfl

/-- A boolean function that visits both values is not constant. -/
theorem shapeOf_ne_const {p : Asg k → Bool} {v : Bool} (hp : visited p = [v, !v]) :
    shapeOf p ≠ constShape k := by
  intro h
  obtain ⟨a, ha⟩ := mem_visited.mp (show v ∈ visited p by simp [hp])
  obtain ⟨b, hb⟩ := mem_visited.mp (show (!v) ∈ visited p by simp [hp])
  have hnumber : number p = number fun _ : Asg k => () := eq_of_heq (Sigma.mk.inj h).2
  have hab : p a = p b := by
    rw [← number_eq_iff p, hnumber, number_eq_iff]
  rw [ha, hb] at hab
  exact (Bool.eq_not_self v).mp hab

/-- The children of a function whose row is selected by a boolean function of the first half
of the variables. -/
theorem children_of_selector {F : Asg (k + 1) → Bool} {p : Asg k → Bool} {b : Bool}
    (φ : Bool → Asg k → Bool) (hrow : row F = fun x => φ (p x)) (hφ : φ false ≠ φ true)
    (hp : visited p = [b, !b]) :
    (shapeOf F).children = [shapeOf p, shapeOf (φ b), shapeOf (φ !b)] := by
  have hinj : Function.Injective φ := by
    rintro (_ | _) (_ | _) h
    · rfl
    · exact absurd h hφ
    · exact absurd h.symm hφ
    · rfl
  rw [children_shapeOf, hrow, visited_comp_of_injOn hinj.injOn, hp]
  congr 1
  exact shapeOf_congr fun a b => hinj.eq_iff

/-- The children of a function of the second half of the variables. -/
theorem children_of_second {F : Asg (k + 1) → Bool} {q : Asg k → Bool}
    (hrow : row F = fun _ => q) : (shapeOf F).children = [constShape k, shapeOf q] := by
  rw [children_shapeOf, hrow, visited_of_const (.allFalse k) fun _ => rfl,
    shapeOf_const fun _ _ => rfl]
  rfl

/-- The exclusive or of a list of values. -/
def parity (a : List Bool) : Bool := a.foldr Bool.xor false

/-- The parity of two lists in a row. -/
theorem parity_append (a b : List Bool) : parity (a ++ b) = (parity a ^^ parity b) := by
  induction a with
  | nil => exact (Bool.false_xor _).symm
  | cons x a ih =>
    change (x ^^ parity (a ++ b)) = ((x ^^ parity a) ^^ parity b)
    rw [ih, Bool.xor_assoc]

/-- The first assignment has even parity. -/
theorem parity_allFalse (k : ℕ) : parity (Asg.allFalse k).toList = false := by
  induction k with
  | zero => rfl
  | succ k ih =>
    rw [Asg.allFalse, Asg.toList_node, parity_append, ih]
    rfl

/-- The assignment of the first variable alone has odd parity. -/
theorem visited_parity (k : ℕ) : visited (fun a : Asg k => parity a.toList) = [false, true] := by
  refine visited_bool (parity_allFalse k) ?_
  induction k with
  | zero => exact ⟨.leaf true, rfl⟩
  | succ k ih =>
    obtain ⟨a, ha⟩ := ih
    refine ⟨.node a (.allFalse k), ?_⟩
    rw [Asg.toList_node, parity_append, ha, parity_allFalse]
    rfl

/-- The conjunction is false first and takes both values. -/
theorem visited_all (k : ℕ) : visited (fun a : Asg k => a.toList.all id) = [false, true] := by
  refine visited_bool ?_ ?_
  · rw [Asg.toList_allFalse, List.all_replicate]
    simp
  · obtain ⟨a, ha⟩ := Asg.exists_toList (k := k) (l := List.replicate (2 ^ k) true) (by simp)
    refine ⟨a, ?_⟩
    rw [ha, List.all_replicate]
    simp

/-- The vertices of the parity of all variables. -/
def parityShape (k : ℕ) : Shape := shapeOf fun a : Asg k => parity a.toList

/-- Below the parity of all variables are parities: the second half is flipped or not, which has
one vertex. -/
theorem children_parityShape (k : ℕ) :
    (parityShape (k + 1)).children = [parityShape k, parityShape k, parityShape k] := by
  have hrow : row (fun a : Asg (k + 1) => parity a.toList) =
      fun x y => parity x.toList ^^ parity y.toList := by
    funext x y
    rw [row_apply, Asg.toList_node, parity_append]
  have hne : (fun y : Asg k => false ^^ parity y.toList) ≠ fun y => true ^^ parity y.toList := by
    intro h
    have hzero := congrFun h (.allFalse k)
    rw [parity_allFalse] at hzero
    cases hzero
  have hshape : ∀ b, shapeOf (fun y : Asg k => b ^^ parity y.toList) = parityShape k :=
    fun b => shapeOf_congr fun y y' => Bool.xor_right_inj
  rw [parityShape, children_of_selector (fun b y => b ^^ parity y.toList) hrow hne
    (visited_parity k), hshape, hshape]
  rfl

/-- The vertices of the conjunction of all variables. -/
def allShape (k : ℕ) : Shape := shapeOf fun a : Asg k => a.toList.all id

/-- Below the conjunction are the conjunction of each half and a constant, for the first halves
that fail. -/
theorem children_allShape (k : ℕ) :
    (allShape (k + 1)).children = [allShape k, constShape k, allShape k] := by
  have hrow : row (fun a : Asg (k + 1) => a.toList.all id) =
      fun x y => x.toList.all id && y.toList.all id := by
    funext x y
    rw [row_apply, Asg.toList_node, List.all_append]
  have hne : (fun y : Asg k => false && y.toList.all id) ≠ fun y => true && y.toList.all id := by
    intro h
    obtain ⟨a, ha⟩ := mem_visited.mp
      (show true ∈ visited fun a : Asg k => a.toList.all id by simp [visited_all])
    have htrue := congrFun h a
    rw [ha] at htrue
    cases htrue
  rw [allShape, children_of_selector (fun b y => b && y.toList.all id) hrow hne (visited_all k),
    shapeOf_const (g := fun y : Asg k => false && y.toList.all id) fun _ _ => rfl]
  rfl

/-- The vertices of a variable, which is looked for in one half at each level. -/
def projShape (i k : ℕ) : Shape := shapeOf fun a : Asg k => a.get (i % 2 ^ k)

/-- A variable is in one half of the variables, and the other half is constant. Which half it is,
is told by a bit of its index. -/
theorem children_projShape (i k : ℕ) : (projShape i (k + 1)).children =
    if i.testBit k then [constShape k, projShape i k]
    else [projShape i k, constShape k, constShape k] := by
  have hmod : i % 2 ^ (k + 1) = i % 2 ^ k + 2 ^ k * (i / 2 ^ k % 2) := Nat.mod_pow_succ
  have hlt : i % 2 ^ k < 2 ^ k := Nat.mod_lt _ (Nat.two_pow_pos k)
  rw [Nat.testBit_eq_decide_div_mod_eq]
  by_cases hbit : i / 2 ^ k % 2 = 1
  · rw [if_pos (decide_eq_true hbit)]
    rw [hbit, Nat.mul_one] at hmod
    refine children_of_second (funext fun x => funext fun y => ?_)
    rw [row_apply, hmod, Asg.get_node_right x y (by omega), Nat.add_sub_cancel]
  · have hzero : i / 2 ^ k % 2 = 0 := by omega
    rw [if_neg (by simpa using hbit)]
    have hlow : i % 2 ^ (k + 1) = i % 2 ^ k := by rw [hmod, hzero, Nat.mul_zero]; rfl
    have hrow : row (fun a : Asg (k + 1) => a.get (i % 2 ^ (k + 1))) =
        fun x _ => x.get (i % 2 ^ k) := by
      funext x y
      rw [row_apply, hlow, Asg.get_node_left x y hlt]
    have hne : (fun _ : Asg k => false) ≠ fun _ => true := by
      intro h
      cases congrFun h (.allFalse k)
    rw [projShape, children_of_selector (fun b _ => b) hrow hne (visited_get hlt),
      Bool.not_false, shapeOf_const (g := fun _ : Asg k => false) fun _ _ => rfl,
      shapeOf_const (g := fun _ : Asg k => true) fun _ _ => rfl]
    rfl

end Vertices

section Sizes

variable {L : ℕ}

/-- The edges that leave the constant vertices below level `L`. -/
theorem sum_constShape (L : ℕ) :
    ((chain constShape L).map fun s => s.children.length).sum = 2 * (L - 1) := by
  cases L with
  | zero => rfl
  | succ L =>
    rw [sum_chain, Shape.children_zero rfl, Nat.add_sub_cancel]
    simp only [children_constShape, List.length_cons, List.length_nil, List.map_const',
      List.length_range, List.sum_replicate_nat]
    omega

/-- The numbers of vertices and edges of a constant. -/
theorem size_const {F : Asg L → Bool} (hF : ∀ a b, F a = F b) :
    (shapes F).length = L + 1 ∧ shapeEdges F = 2 * L := by
  have hperm := visit_chain (L := L) (σ := constShape) (fun _ => rfl)
    (fun k => by simp [children_constShape]) fun k c hc => by simpa [children_constShape] using hc
  rw [← shapeOf_const hF] at hperm
  refine ⟨hperm.length_eq.trans (by simp [chain]), ?_⟩
  rw [shapeEdges, shapes, (hperm.map _).sum_eq, sum_constShape, Nat.add_sub_cancel]

/-- The numbers of vertices and edges of the parity of all variables. -/
theorem size_parity (L : ℕ) : (shapes fun a : Asg L => parity a.toList).length = L + 1 ∧
    shapeEdges (fun a : Asg L => parity a.toList) = 3 * L := by
  have hperm := visit_chain (L := L) (σ := parityShape) (fun _ => rfl)
    (fun k => by simp [children_parityShape])
    fun k c hc => by simpa [children_parityShape] using hc
  refine ⟨hperm.length_eq.trans (by simp [chain]), ?_⟩
  refine (hperm.map _).sum_eq.trans ?_
  rw [sum_chain, Shape.children_zero rfl]
  simp [children_parityShape, Nat.mul_comm]

/-- The numbers of vertices and edges of the conjunction of all variables. -/
theorem size_all (L : ℕ) : (shapes fun a : Asg L => a.toList.all id).length = 2 * L + 1 ∧
    shapeEdges (fun a : Asg L => a.toList.all id) = 3 * L + 2 * (L - 1) := by
  have hperm := visit_chains (L := L) (σ := allShape) (τ := constShape) (fun _ => rfl)
    (fun _ => rfl) (fun k => shapeOf_ne_const (visited_all k))
    (fun k => by simp [children_allShape])
    (fun k => reach_below (fun k => by simp [children_allShape])
      fun k => by simp [children_allShape])
    (fun k c hc => by simp only [children_allShape, List.mem_cons] at hc; simp at hc; tauto)
    fun k c hc => by simpa [children_constShape] using hc
  refine ⟨hperm.length_eq.trans (by simp [chain]; omega), ?_⟩
  refine (hperm.map _).sum_eq.trans ?_
  rw [List.map_append, List.sum_append, sum_constShape, sum_chain, Shape.children_zero rfl]
  simp [children_allShape, Nat.mul_comm]

/-- The vertices of a variable: those that look for it, and the constants. -/
theorem shapes_get_perm {i : ℕ} (hi : i < 2 ^ L) : (shapes fun a : Asg L => a.get i).Perm
    (chain (projShape i) (L + 1) ++ chain constShape L) := by
  have htop : (shapeOf fun a : Asg L => a.get i) = projShape i L := by
    rw [projShape, Nat.mod_eq_of_lt hi]
  rw [shapes, htop]
  refine visit_chains (fun _ => rfl) (fun _ => rfl)
    (fun k => shapeOf_ne_const (visited_get (Nat.mod_lt _ (Nat.two_pow_pos k))))
    (fun k => by rw [children_projShape]; split <;> simp)
    (fun k => reach_below (fun k => by rw [children_projShape]; split <;> simp)
      fun k => by rw [children_projShape]; split <;> simp)
    (fun k c hc => ?_) fun k c hc => by simpa [children_constShape] using hc
  rw [children_projShape] at hc
  split at hc <;> simp at hc <;> tauto

/-- The numbers of vertices and edges of a variable. -/
theorem size_get {i : ℕ} (hi : i < 2 ^ L) :
    (shapes fun a : Asg L => a.get i).length = 2 * L + 1 ∧
    shapeEdges (fun a : Asg L => a.get i) =
      ((List.range L).map fun k => if i.testBit k then 2 else 3).sum + 2 * (L - 1) := by
  have hperm := shapes_get_perm hi
  refine ⟨hperm.length_eq.trans (by simp [chain]; omega), ?_⟩
  refine (hperm.map _).sum_eq.trans ?_
  rw [List.map_append, List.sum_append, sum_constShape, sum_chain, Shape.children_zero rfl]
  have hlength : ∀ k, (projShape i (k + 1)).children.length = if i.testBit k then 2 else 3 := by
    intro k
    rw [children_projShape]
    split <;> rfl
  simp [hlength]

/-- A vertex has a child one level lower. -/
theorem exists_child {s : Shape} {k : ℕ} (hs : s.1 = k + 1) : ∃ c ∈ s.children, c.1 = k := by
  obtain ⟨_, e⟩ := s
  obtain rfl := hs
  exact ⟨_, .head _, rfl⟩

/-- A graph has a vertex at each level. -/
theorem level_le_shapes (F : Asg L → Bool) : L + 1 ≤ (shapes F).length := by
  have hroot : (shapeOf F).1 < L + 1 := Nat.lt_succ_self L
  have hlevel : ∀ k ≤ L, ∃ s, Reach Shape.children (shapeOf F) s ∧ s.1 + k = L := by
    intro k hk
    induction k with
    | zero => exact ⟨_, .refl, rfl⟩
    | succ k ih =>
      obtain ⟨s, hs, hsk⟩ := ih (by omega)
      obtain ⟨c, hc, hck⟩ := exists_child (s := s) (k := L - k - 1) (by omega)
      exact ⟨c, hs.tail hc, by omega⟩
  have hsub : List.range (L + 1) ⊆ (shapes F).map Sigma.fst := by
    intro k hk
    rw [List.mem_range] at hk
    obtain ⟨s, hs, hsk⟩ := hlevel (L - k) (by omega)
    exact List.mem_map.mpr ⟨s, (mem_visit Shape.child_level hroot).mpr hs, by omega⟩
  have hle := (List.nodup_range.subperm hsub).length_le
  rwa [List.length_range, List.length_map] at hle

end Sizes

section Sessions

/-- The diagram evaluates to the function. -/
def Manager.EvaluatesTo (m : Manager) (L : ℕ) (f : Bdd) (F : List Bool → Bool) : Prop :=
  ∀ a : List Bool, a.length = 2 ^ L → m.evaluate f a = .ok (F a)

/-- The structural counts of the diagram. -/
def Manager.HasSize (m : Manager) (f : Bdd) (nodes edges : ℕ) : Prop :=
  m.reachableNodeCount f = .ok nodes ∧ m.reachableEdgeCount f = .ok edges

variable {L : ℕ} {s : Session} {f : Returned}

/-- A diagram that evaluates to a function has the size of its graph. -/
theorem Session.Valid.hasSize (hs : s.Valid L) (hf : f ∈ s.returned) {F : List Bool → Bool}
    (hF : s.manager.EvaluatesTo L f.bdd F) : s.manager.HasSize f.bdd
      (shapes fun a : Asg L => F a.toList).length (shapeEdges fun a : Asg L => F a.toList) := by
  have hfunction : (fun a : Asg L => f.function a.toList) = fun a => F a.toList := by
    funext a
    have ha := hF a.toList (Asg.length_toList a)
    rw [hs.evaluate hf (Asg.length_toList a)] at ha
    exact Except.ok.inj ha
  rw [← hfunction]
  exact (hs.returned f hf).counts_eq hs.inv

/-- **Sizes that are linear in the level:** in every session, calls that panicked included, a
diagram of the `2 ^ L` variables has a node at each level at least. Constants and the parity
of all variables have just that many, single variables and the conjunction of all variables
have two at each level but the last. -/
theorem sizes_of_families (hs : AfterScript L s) (hf : f ∈ s.returned) :
    (∃ nodes edges, s.manager.HasSize f.bdd nodes edges ∧ L + 1 ≤ nodes) ∧
    (∀ b, s.manager.EvaluatesTo L f.bdd (fun _ => b) →
      s.manager.HasSize f.bdd (L + 1) (2 * L)) ∧
    (∀ i < 2 ^ L, s.manager.EvaluatesTo L f.bdd (fun a => a.getD i false) →
      s.manager.HasSize f.bdd (2 * L + 1)
        (((List.range L).map fun k => if i.testBit k then 2 else 3).sum + 2 * (L - 1))) ∧
    (s.manager.EvaluatesTo L f.bdd parity → s.manager.HasSize f.bdd (L + 1) (3 * L)) ∧
    (s.manager.EvaluatesTo L f.bdd (fun a => a.all id) →
      s.manager.HasSize f.bdd (2 * L + 1) (3 * L + 2 * (L - 1))) := by
  have hv := hs.valid
  refine ⟨?_, ?_, ?_, ?_, ?_⟩
  · exact ⟨_, _, (hv.returned f hf).counts_eq hv.inv, level_le_shapes _⟩
  · intro b hF
    have hsize := hv.hasSize hf hF
    obtain ⟨hnodes, hedges⟩ := size_const (F := fun _ : Asg L => b) fun _ _ => rfl
    rwa [hnodes, hedges] at hsize
  · intro i hi hF
    have hsize := hv.hasSize hf hF
    have hget : (fun a : Asg L => a.toList.getD i false) = fun a => a.get i := by
      funext a
      rw [List.getD_eq_getElem?_getD, Asg.getElem?_toList a hi, Option.getD_some]
    rwa [hget, (size_get hi).1, (size_get hi).2] at hsize
  · intro hF
    have hsize := hv.hasSize hf hF
    rwa [(size_parity L).1, (size_parity L).2] at hsize
  · intro hF
    have hsize := hv.hasSize hf hF
    rwa [(size_all L).1, (size_all L).2] at hsize

theorem sizes_of_families_sample :
    (∃ nodes edges, sampleLiterals.manager.HasSize ⟨⟨2⟩, ⟨2⟩⟩ nodes edges ∧ 1 + 1 ≤ nodes) ∧
    (∀ b, sampleLiterals.manager.EvaluatesTo 1 ⟨⟨2⟩, ⟨2⟩⟩ (fun _ => b) →
      sampleLiterals.manager.HasSize ⟨⟨2⟩, ⟨2⟩⟩ (1 + 1) (2 * 1)) ∧
    (∀ i < 2 ^ 1, sampleLiterals.manager.EvaluatesTo 1 ⟨⟨2⟩, ⟨2⟩⟩ (fun a => a.getD i false) →
      sampleLiterals.manager.HasSize ⟨⟨2⟩, ⟨2⟩⟩ (2 * 1 + 1)
        (((List.range 1).map fun k => if i.testBit k then 2 else 3).sum + 2 * (1 - 1))) ∧
    (sampleLiterals.manager.EvaluatesTo 1 ⟨⟨2⟩, ⟨2⟩⟩ parity →
      sampleLiterals.manager.HasSize ⟨⟨2⟩, ⟨2⟩⟩ (1 + 1) (3 * 1)) ∧
    (sampleLiterals.manager.EvaluatesTo 1 ⟨⟨2⟩, ⟨2⟩⟩ (fun a => a.all id) →
      sampleLiterals.manager.HasSize ⟨⟨2⟩, ⟨2⟩⟩ (2 * 1 + 1) (3 * 1 + 2 * (1 - 1))) :=
  sizes_of_families sampleLiterals_reachable.1.afterScript sampleVar_mem

end Sessions

end Cflobdd
