import Cflobdd.ExitOrder
import Cflobdd.Memo
import Cflobdd.NoPanic

/-!
# Products, reductions and restrictions of nodes

What the three recursions on nodes promise for every node in the store of a reachable
session, in terms of the exits that nodes take on assignments: the product of two nodes
takes pairs of exits, a reduction merges exits, and a restriction fixes a variable. All
three give nodes in canonical form, also where the code interns a node without reducing
it or merging its B-connections.
-/

namespace Cflobdd

open FirstVisit Growing

/-- A node of the given level and number of exits. If it is not a leaf, its record is in
canonical form. -/
def NodeWellFormed (m : Manager) (id : NodeId) (level numExits : ℕ) : Prop :=
  ∃ r, m.record? id = some r ∧ r.level = level ∧ r.numExits = numExits ∧
    ∀ aConn bConns, r = .internal level numExits aConn bConns →
      RecordWellFormed m id level numExits aConn bConns

/-- A node that represents a function is in canonical form. -/
theorem Represents.nodeWellFormed {m : Manager} (hm : m.Inv) {k : ℕ} {α : Type} [DecidableEq α]
    {g : Asg k → α} {n : NodeId} (h : Represents m k g n) :
    NodeWellFormed m n k (visited g).length := by
  obtain ⟨r, hr, hlevel, hexits⟩ := h.record
  refine ⟨r, hr, hlevel, hexits, ?_⟩
  rintro aConn bConns rfl
  exact hm.wellFormed n _ _ aConn bConns hr

section Product

/-- The assignments of `2 ^ k` variables on which the nodes take the two exits of a pair. -/
def Manager.reachingBoth (m : Manager) (n1 n2 : NodeId) (k : ℕ) (pair : ℕ × ℕ) :
    Set (List Bool) :=
  m.reaching n1 k pair.1 ∩ m.reaching n2 k pair.2

/-- What the product of two nodes of level `k` is. The operands are nodes of `m`, the
product is a node of `m'`. -/
structure ProductSpec (m m' : Manager) (k : ℕ) (n1 n2 n : NodeId) (pairMap : PairProductMap) :
    Prop where
  /-- The product is in canonical form, and the pair map has an entry for each exit. -/
  wellFormed : NodeWellFormed m' n k pairMap.length
  /-- The entry of an exit is the pair of exits that the operands take. -/
  exits : ∀ a : List Bool, a.length = 2 ^ k → ∃ exit exit1 exit2,
    m'.evaluateNode m'.depth n a = .ok exit ∧ m.evaluateNode m.depth n1 a = .ok exit1 ∧
      m.evaluateNode m.depth n2 a = .ok exit2 ∧ pairMap[exit]? = some (exit1, exit2)
  nodup : pairMap.Nodup
  /-- The pairs are those that some assignment reaches. -/
  mem : ∀ pair, pair ∈ pairMap ↔ (m.reachingBoth n1 n2 k pair).Nonempty
  /-- Every pair has a first assignment. -/
  reached : ∀ pair ∈ pairMap, ∃ a, IsLeast (m.reachingBoth n1 n2 k pair) a
  /-- The pairs are in the order of their first assignments. -/
  ordered : pairMap.Pairwise fun pair pair' => ∀ a a',
    IsLeast (m.reachingBoth n1 n2 k pair) a → IsLeast (m.reachingBoth n1 n2 k pair') a' → a < a'

variable {m m' : Manager} {k : ℕ} {α β : Type} [DecidableEq α] [DecidableEq β]
  {g₁ : Asg k → α} {g₂ : Asg k → β} {n1 n2 : NodeId}

/-- The assignments that reach a pair are those at which its pair of numbers is taken. -/
theorem Represents.reachingBoth_eq (h₁ : Represents m k g₁ n1) (h₂ : Represents m k g₂ n2)
    (hk : k ≤ m.level) (pair : ℕ × ℕ) :
    m.reachingBoth n1 n2 k pair = Asg.toList '' {a | (number g₁ a, number g₂ a) = pair} := by
  rw [Manager.reachingBoth, h₁.reaching_eq hk, h₂.reaching_eq hk,
    ← Set.image_inter Asg.toList_injective]
  congr 1
  ext a
  simp only [Set.mem_inter_iff, Set.mem_ofPred_eq, Prod.ext_iff]

/-- A product node is what the specification asks for. -/
theorem IsProduct.spec (hle : m ≤ m') (hm' : m'.Inv) (hk : k ≤ m.level)
    (h₁ : Represents m k g₁ n1) (h₂ : Represents m k g₂ n2) {n : NodeId} {pairMap : PairProductMap}
    (h : IsProduct m' g₁ g₂ (n, pairMap)) : ProductSpec m m' k n1 n2 n pairMap := by
  obtain ⟨hnode, rfl : pairMap = productMap g₁ g₂⟩ := h
  have hdepth : k < m.depth := Manager.lt_depth hk
  have hdepth' : k < m'.depth := Manager.lt_depth (by rwa [hle.level])
  have hlength : (productMap g₁ g₂).length = (visited fun a => (g₁ a, g₂ a)).length := by
    rw [productMap_eq_map, List.length_map]
  refine ⟨?_, ?_, nodup_visited _, ?_, ?_, ?_⟩
  · rw [hlength]
    exact hnode.nodeWellFormed hm'
  · refine forall_toList_iff.mp fun a => ⟨_, _, _, hnode.evaluateNode hdepth' a,
      h₁.evaluateNode hdepth a, h₂.evaluateNode hdepth a, ?_⟩
    rw [productMap_eq_map, List.getElem?_map, getElem?_number, Option.map_some]
    rfl
  · intro pair
    rw [h₁.reachingBoth_eq h₂ hk, Set.image_nonempty, productMap, mem_visited]
    rfl
  · intro pair hpair
    rw [h₁.reachingBoth_eq h₂ hk]
    exact exists_isLeast_toList hpair
  · simp only [h₁.reachingBoth_eq h₂ hk]
    exact visited_sorted_toList fun a => (number g₁ a, number g₂ a)

/-- **Specification of `pair_product`:** for any two nodes of one level in a reachable
session it gives the node that takes the pairs of their exits, in canonical form, and the
list of the pairs that are reached, in the order in which they are first reached. -/
theorem pair_product_spec {L : ℕ} {s : Session} (hs : Reachable L s) {n1 n2 : NodeId}
    {r1 r2 : NodeRecord} (h1 : s.manager.record? n1 = some r1)
    (h2 : s.manager.record? n2 = some r2) (hlevel : r1.level = r2.level) :
    ∃ n pairMap m',
      pairProduct s.manager.depth n1 n2 s.manager = .ok (n, pairMap) m' ∧ m'.WellFormed ∧
        ProductSpec s.manager m' r1.level n1 n2 n pairMap := by
  have hm := hs.valid.inv
  obtain ⟨hk, e₁, he₁, -⟩ := hm.exists_represents h1
  obtain ⟨e₂, he₂⟩ := hm.exists_represents_at h2 hlevel.symm
  obtain ⟨⟨n, pairMap⟩, m', hok, hle, hm', hproduct, -⟩ :=
    pairProduct_returns (he₁.lt_depth hm) hm he₁ he₂
  exact ⟨n, pairMap, m', hok, hm'.wellFormed, hproduct.spec hle hm' hk he₁ he₂⟩

/-- The nodes of the variable and of the constant in the sample session. -/
theorem sampleSession_records :
    sampleSession.manager.record? ⟨2⟩ =
        some (.internal 1 2 ⟨⟨1⟩, ⟨2⟩⟩ [⟨⟨0⟩, ⟨0⟩⟩, ⟨⟨0⟩, ⟨1⟩⟩]) ∧
      sampleSession.manager.record? ⟨3⟩ = some (.internal 1 1 ⟨⟨0⟩, ⟨0⟩⟩ [⟨⟨0⟩, ⟨0⟩⟩]) := by
  decide +kernel

theorem pair_product_spec_sample :
    ∃ n pairMap m', pairProduct sampleSession.manager.depth ⟨2⟩ ⟨3⟩ sampleSession.manager =
        .ok (n, pairMap) m' ∧ m'.WellFormed ∧
      ProductSpec sampleSession.manager m' 1 ⟨2⟩ ⟨3⟩ n pairMap :=
  pair_product_spec sampleSession_reachable sampleSession_records.1 sampleSession_records.2 rfl

end Product

section Reduction

/-- A map of the exits of a node: it has an entry for each exit, is onto the new exits, and
numbers these in the order in which they are first seen. -/
structure IsReductionMap (numExits : ℕ) (red : List ℕ) (newNumExits : ℕ) : Prop where
  length : red.length = numExits
  onto : ∀ exit, exit ∈ red ↔ exit < newNumExits
  firstSeen : firstSeen red = List.range newNumExits

/-- The second map after the first. -/
def afterReduction (red2 red1 : List ℕ) : List ℕ := red1.map fun exit => red2.getD exit 0

/-- What the reduction of a node of level `k` is. The operand is a node of `m`, the
reduced node is one of `m'`. -/
structure ReduceSpec (m m' : Manager) (k : ℕ) (node : NodeId) (red : List ℕ) (newNumExits : ℕ)
    (node' : NodeId) : Prop where
  /-- The reduced node is in canonical form and has the new exits. -/
  wellFormed : NodeWellFormed m' node' k newNumExits
  /-- It takes the new exit of the exit that the node takes. -/
  exits : ∀ a : List Bool, a.length = 2 ^ k → ∃ exit exit',
    m.evaluateNode m.depth node a = .ok exit ∧ m'.evaluateNode m'.depth node' a = .ok exit' ∧
      red[exit]? = some exit'

variable {m m' : Manager} {k : ℕ} {α : Type} [DecidableEq α] {g : Asg k → α} {node : NodeId}

/-- A map of the exits of a represented node is a reduction of its function. -/
theorem IsReductionMap.exists_eq {red : List ℕ} {newNumExits : ℕ}
    (h : IsReductionMap (visited g).length red newNumExits) :
    ∃ ρ : α → ℕ, reduction g ρ = red ∧ (visited fun a => ρ (g a)).length = newNumExits := by
  obtain ⟨ρ, hred, hvisited⟩ := exists_reduction_eq h.length h.firstSeen
  exact ⟨ρ, hred, by rw [hvisited, List.length_range]⟩

/-- A node of the composed function is what the specification of `reduce` asks for. -/
theorem Represents.reduceSpec (hle : m ≤ m') (hm' : m'.Inv) (hk : k ≤ m.level)
    (h : Represents m k g node) {ρ : α → ℕ} {node' : NodeId}
    (h' : Represents m' k (fun a => ρ (g a)) node') :
    ReduceSpec m m' k node (reduction g ρ) (visited fun a => ρ (g a)).length node' where
  wellFormed := h'.nodeWellFormed hm'
  exits := forall_toList_iff.mp fun a =>
    ⟨_, _, h.evaluateNode (Manager.lt_depth hk) a,
      h'.evaluateNode (Manager.lt_depth (by rwa [hle.level])) a, getElem?_reduction g ρ a⟩

/-- Two reductions, one after the other. -/
def reduceTwice (fuel : ℕ) (node : NodeId) (red1 : List ℕ) (newNumExits1 : ℕ) (red2 : List ℕ)
    (newNumExits2 : ℕ) : ManagerM NodeId := do
  let node1 ← reduce fuel node red1 newNumExits1
  reduce fuel node1 red2 newNumExits2

/-- Two reductions give the node of the function composed twice. -/
theorem reduceTwice_returns {β γ : Type} [DecidableEq β] [DecidableEq γ] (hm : m.Inv)
    (hn : Represents m k g node) {fuel : ℕ} (hfuel : k < fuel) (ρ : α → β) (σ : β → γ) :
    Returns (reduceTwice fuel node (reduction g ρ) (visited fun a => ρ (g a)).length
        (reduction (fun a => ρ (g a)) σ) (visited fun a => σ (ρ (g a))).length) m
      fun node' m' => Represents m' k (fun a => σ (ρ (g a))) node' := by
  unfold reduceTwice
  refine Runs.bind (reduce_returns hm hn hfuel ρ) ?_
  intro node1 m₁ _ hm₁ hnode1
  exact reduce_returns hm₁ hnode1 hfuel σ

/-- Run one after the other, the programs return the same. -/
def SameResult {β : Type} (f g : ManagerM β) (m : Manager) : Prop :=
  ∃ result m₁ m₂, f m = .ok result m₁ ∧ g m₁ = .ok result m₂

/-- Reducing twice is reducing once by the composed map. -/
theorem Represents.reduceTwice_same (hm : m.Inv) (h : Represents m k g node)
    {red1 red2 : List ℕ} {newNumExits1 newNumExits2 : ℕ}
    (h1 : IsReductionMap (visited g).length red1 newNumExits1)
    (h2 : IsReductionMap newNumExits1 red2 newNumExits2) :
    SameResult (reduceTwice m.depth node red1 newNumExits1 red2 newNumExits2)
        (reduce m.depth node (afterReduction red2 red1) newNumExits2) m ∧
      SameResult (reduce m.depth node (afterReduction red2 red1) newNumExits2)
        (reduceTwice m.depth node red1 newNumExits1 red2 newNumExits2) m := by
  have hdepth := h.lt_depth hm
  obtain ⟨ρ, rfl, rfl⟩ := h1.exists_eq
  obtain ⟨σ, rfl, rfl⟩ := h2.exists_eq
  rw [afterReduction, reduction_trans]
  have htwice : ∀ t, m ≤ t → t.Inv → Returns (reduceTwice m.depth node (reduction g ρ)
      (visited fun a => ρ (g a)).length (reduction (fun a => ρ (g a)) σ)
      (visited fun a => σ (ρ (g a))).length) t
      fun node' m' => Represents m' k (fun a => σ (ρ (g a))) node' :=
    fun t hle ht => reduceTwice_returns ht (h.mono hle) hdepth ρ σ
  have honce : ∀ t, m ≤ t → t.Inv → Returns (reduce m.depth node
      (reduction g fun v => σ (ρ v)) (visited fun a => σ (ρ (g a))).length) t
      fun node' m' => Represents m' k (fun a => σ (ρ (g a))) node' :=
    fun t hle ht => reduce_returns ht (h.mono hle) hdepth fun v => σ (ρ v)
  exact ⟨(htwice m le_rfl hm).agree honce (fun _ _ _ hle hn => hn.mono hle)
      fun _ _ _ hn hn' => hn.unique hn',
    (honce m le_rfl hm).agree htwice (fun _ _ _ hle hn => hn.mono hle)
      fun _ _ _ hn hn' => hn.unique hn'⟩

/-- **Specification of `reduce`:** for any node in a reachable session and any map of its
exits onto `[0, newNumExits)` in first-seen order it gives the node with the exits merged, in
canonical form. Reducing twice gives the same node as reducing once by the composed map. -/
theorem reduce_spec {L : ℕ} {s : Session} (hs : Reachable L s) {node : NodeId} {r : NodeRecord}
    (hr : s.manager.record? node = some r) :
    (∀ red newNumExits, IsReductionMap r.numExits red newNumExits →
      ∃ node' m', reduce s.manager.depth node red newNumExits s.manager = .ok node' m' ∧
        m'.WellFormed ∧ ReduceSpec s.manager m' r.level node red newNumExits node') ∧
    ∀ red1 newNumExits1 red2 newNumExits2, IsReductionMap r.numExits red1 newNumExits1 →
      IsReductionMap newNumExits1 red2 newNumExits2 →
      SameResult (reduceTwice s.manager.depth node red1 newNumExits1 red2 newNumExits2)
          (reduce s.manager.depth node (afterReduction red2 red1) newNumExits2) s.manager ∧
        SameResult (reduce s.manager.depth node (afterReduction red2 red1) newNumExits2)
          (reduceTwice s.manager.depth node red1 newNumExits1 red2 newNumExits2) s.manager := by
  have hm := hs.valid.inv
  obtain ⟨hk, e, he, -⟩ := hm.exists_represents hr
  rw [he.numExits_eq hr]
  constructor
  · intro red newNumExits hred
    obtain ⟨ρ, rfl, rfl⟩ := hred.exists_eq
    obtain ⟨node', m', hok, hle, hm', hnode', -⟩ := reduce_returns hm he (he.lt_depth hm) ρ
    exact ⟨node', m', hok, hm'.wellFormed, he.reduceSpec hle hm' hk hnode'⟩
  · intro red1 newNumExits1 red2 newNumExits2 h1 h2
    exact he.reduceTwice_same hm h1 h2

theorem reduce_spec_sample :
    (∀ red newNumExits, IsReductionMap 2 red newNumExits →
      ∃ node' m', reduce sampleSession.manager.depth ⟨2⟩ red newNumExits sampleSession.manager =
          .ok node' m' ∧ m'.WellFormed ∧
        ReduceSpec sampleSession.manager m' 1 ⟨2⟩ red newNumExits node') ∧
    ∀ red1 newNumExits1 red2 newNumExits2, IsReductionMap 2 red1 newNumExits1 →
      IsReductionMap newNumExits1 red2 newNumExits2 →
      SameResult (reduceTwice sampleSession.manager.depth ⟨2⟩ red1 newNumExits1 red2 newNumExits2)
          (reduce sampleSession.manager.depth ⟨2⟩ (afterReduction red2 red1) newNumExits2)
          sampleSession.manager ∧
        SameResult (reduce sampleSession.manager.depth ⟨2⟩ (afterReduction red2 red1) newNumExits2)
          (reduceTwice sampleSession.manager.depth ⟨2⟩ red1 newNumExits1 red2 newNumExits2)
          sampleSession.manager :=
  reduce_spec sampleSession_reachable sampleSession_records.1

end Reduction

section Restriction

/-- What the restriction of a node of level `k` is. The operand is a node of `m`, the
restricted node is one of `m'`. -/
structure RestrictSpec (m m' : Manager) (k : ℕ) (node : NodeId) (i : ℕ) (v : Bool)
    (node' : NodeId) (mapHandle : List ℕ) : Prop where
  /-- The restricted node is in canonical form, and the map has an entry for each exit. -/
  wellFormed : NodeWellFormed m' node' k mapHandle.length
  nodup : mapHandle.Nodup
  /-- The entry of an exit is the exit that the node takes when the variable is fixed. -/
  exits : ∀ a : List Bool, a.length = 2 ^ k → ∃ exit exit',
    m.evaluateNode m.depth node (a.set i v) = .ok exit ∧
      m'.evaluateNode m'.depth node' a = .ok exit' ∧ mapHandle[exit']? = some exit
  /-- The entries are the exits that are taken when the variable has the value. -/
  mem : ∀ exit, exit ∈ mapHandle ↔ ∃ a ∈ m.reaching node k exit, a[i]? = some v

variable {m m' : Manager} {k : ℕ} {α : Type} [DecidableEq α] {g : Asg k → α} {node node' : NodeId}
  {i : ℕ} {v : Bool} {mapHandle : List ℕ}

/-- The map of a restriction holds the exits that are reached with the variable fixed. -/
theorem Represents.mem_restrictMap (h : Represents m k g node) (hk : k ≤ m.level) (hi : i < 2 ^ k)
    (exit : ℕ) :
    exit ∈ restrictMap g i v ↔ ∃ a ∈ m.reaching node k exit, a[i]? = some v := by
  rw [h.reaching_eq hk, restrictMap, mem_visited, Set.exists_mem_image]
  constructor
  · rintro ⟨a, ha⟩
    refine ⟨a.set i v, ha, ?_⟩
    rw [Asg.getElem?_toList _ hi, Asg.get_set_self a hi]
  · rintro ⟨a, ha, hv⟩
    rw [Asg.getElem?_toList a hi] at hv
    refine ⟨a, ?_⟩
    rw [Asg.set_of_get a hi (Option.some.inj hv)]
    exact ha

/-- A restricted node is what the specification asks for. -/
theorem IsRestriction.spec (hle : m ≤ m') (hm' : m'.Inv) (hk : k ≤ m.level) (hi : i < 2 ^ k)
    (h : Represents m k g node) (h' : IsRestriction m' g i v (node', mapHandle)) :
    RestrictSpec m m' k node i v node' mapHandle := by
  obtain ⟨hnode, rfl : mapHandle = restrictMap g i v⟩ := h'
  have hlength : (restrictMap g i v).length = (visited fun a : Asg k => g (a.set i v)).length := by
    rw [restrictMap_eq_map, List.length_map]
  refine ⟨?_, nodup_visited _, ?_, h.mem_restrictMap hk hi⟩
  · rw [hlength]
    exact hnode.nodeWellFormed hm'
  · refine forall_toList_iff.mp fun a => ?_
    have hexit := h.evaluateNode (Manager.lt_depth hk) (a.set i v)
    rw [Asg.toList_set a hi] at hexit
    refine ⟨_, _, hexit, hnode.evaluateNode (Manager.lt_depth (by rwa [hle.level])) a, ?_⟩
    rw [restrictMap_eq_map, List.getElem?_map, getElem?_number, Option.map_some]
    rfl

/-- **Specification of `restrict_node`:** for any node in a reachable session and any of its
variables it gives the node with the variable fixed, in canonical form, and the list of the
exits that are still taken. The A-case alone, which interns its node without merging
B-connections, gives a record in canonical form, so that no two of its B-connections are
equal. -/
theorem restrict_node_spec {L : ℕ} {s : Session} (hs : Reachable L s) {node : NodeId}
    {r : NodeRecord} (hr : s.manager.record? node = some r) {i : ℕ} (hi : i < 2 ^ r.level)
    (v : Bool) :
    (∃ node' mapHandle m',
      restrictNode s.manager.depth node i v [] s.manager = .ok (node', mapHandle) m' ∧
        m'.WellFormed ∧ RestrictSpec s.manager m' r.level node i v node' mapHandle) ∧
    ∀ level numExits aConn bConns, r = .internal level numExits aConn bConns →
      i < 2 ^ (level - 1) →
      ∃ node' mapHandle m' aConn' bConns',
        restrictACase (restrictNode s.manager.level) level aConn bConns i v [] s.manager =
          .ok (node', mapHandle) m' ∧ m'.WellFormed ∧
        m'.record? node' = some (.internal level mapHandle.length aConn' bConns') ∧
        (bConns'.map fun b => (b.target, m'.body? b.returnMap)).Nodup := by
  have hm := hs.valid.inv
  constructor
  · obtain ⟨hk, e, he, -⟩ := hm.exists_represents hr
    obtain ⟨⟨node', mapHandle⟩, m', hok, hle, hm', hrestriction, -⟩ :=
      restrictNode_returns (he.lt_depth hm) i v hm he
    exact ⟨node', mapHandle, m', hok, hm'.wellFormed, hrestriction.spec hle hm' hk hi he⟩
  · rintro level numExits aConn bConns rfl hhalf
    obtain ⟨k, e, rfl, hk, rfl, hnumber, -, hparts⟩ := hm.exists_parts hr
    obtain ⟨⟨node', mapHandle⟩, m', hok, -, hm', ⟨hnode, hexits⟩, -⟩ :=
      restrictACase_returns (restrictNode_returns hk) hm hk hnumber hparts hhalf v
    obtain rfl : mapHandle = restrictMap e i v := hexits
    obtain ⟨aConn', bConns', hrecord, hparts'⟩ := hnode.parts
    refine ⟨node', _, m', aConn', bConns', hok, hm'.wellFormed, ?_, hparts'.nodup_bConns⟩
    rw [restrictMap_eq_map, List.length_map]
    exact hrecord

theorem restrict_node_spec_sample :
    (∃ node' mapHandle m',
      restrictNode sampleSession.manager.depth ⟨2⟩ 0 true [] sampleSession.manager =
          .ok (node', mapHandle) m' ∧
        m'.WellFormed ∧ RestrictSpec sampleSession.manager m' 1 ⟨2⟩ 0 true node' mapHandle) ∧
    ∀ level numExits aConn bConns,
      NodeRecord.internal 1 2 ⟨⟨1⟩, ⟨2⟩⟩ [⟨⟨0⟩, ⟨0⟩⟩, ⟨⟨0⟩, ⟨1⟩⟩] =
        .internal level numExits aConn bConns → 0 < 2 ^ (level - 1) →
      ∃ node' mapHandle m' aConn' bConns',
        restrictACase (restrictNode sampleSession.manager.level) level aConn bConns 0 true []
          sampleSession.manager = .ok (node', mapHandle) m' ∧ m'.WellFormed ∧
        m'.record? node' = some (.internal level mapHandle.length aConn' bConns') ∧
        (bConns'.map fun b => (b.target, m'.body? b.returnMap)).Nodup :=
  restrict_node_spec sampleSession_reachable sampleSession_records.1 (show 0 < 2 ^ 1 by decide) true

end Restriction

end Cflobdd
