import Cflobdd.Garbage
import Cflobdd.Work
import Mathlib.Data.List.Sym

/-!
# How many reductions are remembered

A reduction map is determined by the node it is applied to and by the node that results. So
the memo table of `reduce` has no more entries than there are pairs of nodes, although its
keys name return maps, and a call memoizes no more reductions than there are pairs of a node
below the operand and a node below the result.
-/

namespace Cflobdd

open FirstVisit Enumerated Growing Traversal

section Entries

variable {m : Manager} {n result : NodeId} {red red' : ReturnMapId}

/-- The reduction map is determined by the node and the result. -/
theorem ReductionEntry.map_unique (h : ReductionEntry m (n, red) result)
    (h' : ReductionEntry m (n, red') result) : red = red' := by
  obtain ⟨k, e, ρ, hnode, hbody, hresult⟩ := h
  obtain ⟨k', e', ρ', hnode', hbody', hresult'⟩ := h'
  obtain rfl : k = k' := hnode.level_unique hnode'
  refine m.returnMaps.body?_inj hbody ?_
  have hreduction : reduction e ρ = reduction e' ρ' := by
    refine eq_reduction ?_ fun x => ?_
    · obtain ⟨r, hr, -⟩ := hnode.record
      rw [length_reduction, ← hnode.numExits_eq hr, hnode'.numExits_eq hr]
    · rw [← hnode.number_eq hnode', getElem?_reduction, hresult.number_eq hresult']
  rw [hreduction]
  exact hbody'

/-- The entries of the table are right. -/
theorem Manager.Inv.reductionEntry (hm : m.Inv) (hnodup : (m.reduceCache.keys id).Nodup)
    {e : (NodeId × ReturnMapId) × NodeId} (he : e ∈ m.reduceCache.entries) :
    ReductionEntry m e.1 e.2 :=
  hm.reductions e.1 e.2 (Table.get?_of_mem hnodup he)

/-- No two entries have one node and one result. -/
theorem Manager.Inv.nodup_reductions (hm : m.Inv) (hnodup : (m.reduceCache.keys id).Nodup) :
    (m.reduceCache.entries.map fun e => (e.1.1, e.2)).Nodup := by
  refine List.Nodup.map_on ?_ (List.Nodup.of_map _ hnodup)
  rintro ⟨⟨n, red⟩, result⟩ he ⟨⟨n', red'⟩, result'⟩ he' heq
  obtain ⟨rfl, rfl⟩ := Prod.mk.inj heq
  obtain rfl := (hm.reductionEntry hnodup he).map_unique (hm.reductionEntry hnodup he')
  rfl

/-- The node and the result of an entry are of one level. -/
theorem ReductionEntry.levelOf_eq (h : ReductionEntry m (n, red) result) :
    m.levelOf n = m.levelOf result := by
  obtain ⟨k, e, ρ, hnode, -, hresult⟩ := h
  rw [hnode.levelOf_eq, hresult.levelOf_eq]

/-- The ids of the stored nodes. -/
def Manager.nodeIds (m : Manager) : List NodeId := (List.range m.nodeCount).map NodeId.mk

/-- There are as many ids as nodes. -/
theorem Manager.length_nodeIds (m : Manager) : m.nodeIds.length = m.nodeCount := by
  rw [nodeIds, List.length_map, List.length_range]

/-- A node that represents a function is stored. -/
theorem Represents.mem_nodeIds {k : ℕ} {α : Type} [DecidableEq α] {g : Asg k → α}
    (h : Represents m k g n) : n ∈ m.nodeIds := by
  obtain ⟨r, hr, -⟩ := h.record
  exact List.mem_map.mpr ⟨n.raw, List.mem_range.mpr (Manager.lt_nodeCount hr), rfl⟩

end Entries

section Tables

variable {L : ℕ} {s : Session}

/-- **The memo tables are polynomial in the store:** in every session, calls that panicked
included, there are no more memoized products than unordered pairs of nodes, no more memoized
reductions than pairs of nodes, and no more vectors of path counts than nodes. -/
theorem tables_bounded (hs : AfterScript L s) :
    s.manager.pairProductCache.entries.length ≤ (s.manager.nodeCount + 1).choose 2 ∧
    s.manager.reduceCache.entries.length ≤ s.manager.nodeCount * s.manager.nodeCount ∧
    s.manager.pathCounts.entries.length ≤ s.manager.nodeCount := by
  have hm := hs.valid.inv
  obtain ⟨hproducts, hreductions, hcounts, -⟩ := hs.memoizedOnce
  rw [← s.manager.length_nodeIds]
  refine ⟨?_, ?_, ?_⟩
  · rw [← List.length_sym2]
    refine length_le_of_names (fun e => s(e.1.1, e.1.2)) hproducts fun e he => ?_
    have hkeys : (s.manager.pairProductCache.keys id).Nodup := by
      refine List.Nodup.of_map (fun p : NodeId × NodeId => s(p.1, p.2)) ?_
      rwa [Table.keys, List.map_map]
    obtain ⟨k, e₁, e₂, h₁, h₂, -⟩ := hm.pairProducts _ _ (Table.get?_of_mem hkeys he)
    exact List.mk_mem_sym2 h₁.mem_nodeIds h₂.mem_nodeIds
  · rw [← List.length_product]
    refine length_le_of_names _ (hm.nodup_reductions hreductions) fun e he => ?_
    obtain ⟨k, g, ρ, hnode, -, hresult⟩ := hm.reductionEntry hreductions he
    exact List.pair_mem_product.mpr ⟨hnode.mem_nodeIds, hresult.mem_nodeIds⟩
  · refine length_le_of_names (fun e => e.1) hcounts fun e he => ?_
    obtain ⟨k, g, -, hnode, -⟩ := hm.pathCounts _ _ (Table.get?_of_mem hcounts he)
    exact hnode.mem_nodeIds

theorem tables_bounded_sample :
    sampleSession.manager.pairProductCache.entries.length ≤
        (sampleSession.manager.nodeCount + 1).choose 2 ∧
      sampleSession.manager.reduceCache.entries.length ≤
        sampleSession.manager.nodeCount * sampleSession.manager.nodeCount ∧
      sampleSession.manager.pathCounts.entries.length ≤ sampleSession.manager.nodeCount :=
  tables_bounded sampleSession_reachable.afterScript

end Tables

/-- The store has grown, and the results of the reductions that have been memoized since are
below one of the roots. -/
structure ReducesBelow (roots : List NodeId) (m m' : Manager) : Prop where
  records : m.nodes.records <+: m'.nodes.records
  results : ∃ new, m'.reduceCache.entries = new ++ m.reduceCache.entries ∧
    ∀ e ∈ new, ∃ n ∈ roots, Reach m'.children n e.2

section ReducesBelow

variable {roots roots' : List NodeId} {m m₁ m' : Manager} {n : NodeId}

/-- Nothing but interning. -/
theorem ReducesBelow.of_interning (h : Footprint ∅ ∅ ∅ m m') : ReducesBelow roots m m' :=
  ⟨h.records, [], h.reductions.entries_eq, fun _ he => absurd he List.not_mem_nil⟩

/-- There may be more roots. -/
theorem ReducesBelow.mono (h : ReducesBelow roots m m') (hsub : roots ⊆ roots') :
    ReducesBelow roots' m m' := by
  obtain ⟨hrecords, new, hnew, hbelow⟩ := h
  refine ⟨hrecords, new, hnew, fun e he => ?_⟩
  obtain ⟨n, hn, hreach⟩ := hbelow e he
  exact ⟨n, hsub hn, hreach⟩

/-- Two programs reduce below the roots of both. -/
theorem ReducesBelow.trans (h : ReducesBelow roots m m₁) (h' : ReducesBelow roots' m₁ m') :
    ReducesBelow (roots ++ roots') m m' := by
  obtain ⟨hrecords, new, hnew, hbelow⟩ := h
  obtain ⟨hrecords', new', hnew', hbelow'⟩ := h'
  refine ⟨hrecords.trans hrecords', new' ++ new, ?_, fun e he => ?_⟩
  · rw [hnew', hnew, List.append_assoc]
  · rcases List.mem_append.mp he with he | he
    · obtain ⟨n, hn, hreach⟩ := hbelow' e he
      exact ⟨n, List.mem_append_right _ hn, hreach⟩
    · obtain ⟨n, hn, hreach⟩ := hbelow e he
      exact ⟨n, List.mem_append_left _ hn, reach_of_records hrecords' hreach⟩

/-- Interning afterwards changes nothing. -/
theorem ReducesBelow.interning (h : ReducesBelow roots m m₁) (h' : Footprint ∅ ∅ ∅ m₁ m') :
    ReducesBelow roots m m' :=
  (h.trans (ReducesBelow.of_interning h' : ReducesBelow [] m₁ m')).mono (by simp)

/-- A node above the roots takes their place. -/
theorem ReducesBelow.above (h : ReducesBelow roots m m')
    (hn : ∀ c ∈ roots, Reach m'.children n c) : ReducesBelow [n] m m' := by
  obtain ⟨hrecords, new, hnew, hbelow⟩ := h
  refine ⟨hrecords, new, hnew, fun e he => ?_⟩
  obtain ⟨c, hc, hreach⟩ := hbelow e he
  exact ⟨n, .head _, (hn c hc).trans hreach⟩

/-- A node is made of nodes that are above all results. -/
theorem internInternal_reduces (h : ReducesBelow roots m m₁) (level numExits : ℕ)
    {aConn : Connection} {bConns : List Connection}
    (hroots : roots ⊆ aConn.target :: bConns.map (·.target)) :
    Ends (internInternal level numExits aConn bConns) m₁ (fun n m' => ReducesBelow [n] m m')
      fun _ _ => True := by
  have hwithin : Within (Footprint ∅ ∅ ∅) (internInternal level numExits aConn bConns) m₁ :=
    internInternal_within level numExits aConn bConns m₁
  have hnew := internInternal_new level numExits aConn bConns m₁
  unfold Within at hwithin
  unfold Ends at hwithin hnew ⊢
  cases hresult : internInternal level numExits aConn bConns m₁ with
  | error e m' => trivial
  | ok n m' =>
    rw [hresult] at hwithin hnew
    obtain ⟨-, hrecord, -⟩ := hnew
    refine (h.interning hwithin).above fun c hc => .single ?_
    rw [Manager.children_of_record hrecord]
    exact hroots hc

end ReducesBelow

/-- Reductions are attributed to the nodes above their results. -/
theorem reducesBelow_attribution : Attribution ReducesBelow where
  refl m := .of_interning (refl_of _ m)
  mono h := h.mono
  trans h := h.trans
  internMap b m := (internMap_within b m).mono fun _ => .of_interning
  observe call m := (observe_within call m).mono fun _ => .of_interning
  noDistinction k m :=
    Ends.mono (noDistinction_within k m) (fun _ _ => .of_interning) fun _ _ _ => trivial
  internInternal level numExits _ _ h hroots := internInternal_reduces h level numExits hroots
  recordReduce := by
    rintro m m' n redId result ⟨hrecords, new, hnew, hbelow⟩
    refine ⟨hrecords, ((n, redId), result) :: new, ?_, fun e he => ?_⟩
    · change ((n, redId), result) :: m'.reduceCache.entries = _
      rw [hnew, List.cons_append]
    · rcases List.mem_cons.mp he with rfl | he
      · exact ⟨result, .head _, .refl⟩
      · exact hbelow e he
  recordPairProduct _ _ _ h := ⟨h.records, h.results⟩

section Calls

variable {m m' : Manager} {L i : ℕ} {f g : Bdd} {F G : Asg L → Bool} {n result : NodeId}
  {nodes : List NodeId}

/-- The reductions that have been memoized since are of nodes below one of `nodes`, with
results below `result`. -/
def ReducesTo (nodes : List NodeId) (result : NodeId) (m m' : Manager) : Prop :=
  ∃ new, m'.reduceCache.entries = new ++ m.reduceCache.entries ∧ ∀ e ∈ new,
    (∃ n ∈ nodes, Reach m'.children n e.1.1) ∧ Reach m'.children result e.2

/-- The nodes come from the keys that a program adds, and the results from the attribution. -/
theorem ReducesTo.of_footprint {P : Set (NodeId × NodeId)} {C : Set NodeId}
    (h : Footprint P (reductionsBelow m n) C m m') (hbelow : ReducesBelow [result] m m') :
    ReducesTo [n] result m m' := by
  obtain ⟨new, hnew, hkeys⟩ := h.reductions.entries
  obtain ⟨hrecords, new', hnew', hresults⟩ := hbelow
  obtain rfl : new = new' := List.append_cancel_right (hnew.symm.trans hnew')
  refine ⟨new, hnew, fun e he => ⟨⟨n, .head _, reach_of_records hrecords (hkeys e he)⟩, ?_⟩⟩
  obtain ⟨n', hn', hreach⟩ := hresults e he
  rwa [List.mem_singleton.mp hn'] at hreach

/-- Two programs with one result. -/
theorem ReducesTo.trans {m₁ : Manager} {nodes' : List NodeId} (h : ReducesTo nodes result m m₁)
    (h' : ReducesTo nodes' result m₁ m') (hrecords : m₁.nodes.records <+: m'.nodes.records) :
    ReducesTo (nodes ++ nodes') result m m' := by
  obtain ⟨new, hnew, hbelow⟩ := h
  obtain ⟨new', hnew', hbelow'⟩ := h'
  refine ⟨new' ++ new, by rw [hnew', hnew, List.append_assoc], fun e he => ?_⟩
  rcases List.mem_append.mp he with he | he
  · obtain ⟨⟨n, hn, hkey⟩, hresult⟩ := hbelow' e he
    exact ⟨⟨n, List.mem_append_right _ hn, hkey⟩, hresult⟩
  · obtain ⟨⟨n, hn, hkey⟩, hresult⟩ := hbelow e he
    exact ⟨⟨n, List.mem_append_left _ hn, reach_of_records hrecords hkey⟩,
      reach_of_records hrecords hresult⟩

/-- Nothing is memoized by a program that leaves the table alone. -/
theorem ReducesTo.of_entries_eq (h : m'.reduceCache.entries = m.reduceCache.entries) :
    ReducesTo nodes result m m' := ⟨[], h, fun _ he => absurd he List.not_mem_nil⟩

/-- The reductions that have been memoized since are of pairs of nodes of one level, and there
are no more of them than such pairs. -/
def NewReductions (nodes : List NodeId) (result : NodeId) (m m' : Manager) : Prop :=
  ∃ new, m'.reduceCache.entries = new ++ m.reduceCache.entries ∧
    (∀ e ∈ new, ∃ n ∈ nodes, (e.1.1, e.2) ∈ m'.reachablePairs n result) ∧
    new.length ≤ (nodes.map fun n => (m'.reachablePairs n result).length).sum

/-- Since node and result determine an entry, there are no more than pairs. -/
theorem ReducesTo.newReductions (h : ReducesTo nodes result m m') (hm' : m'.Inv)
    (hnodup : (m'.reduceCache.keys id).Nodup)
    (hnodes : ∀ n ∈ nodes, ∃ r, m'.record? n = some r) (hresult : ∃ r, m'.record? result = some r) :
    NewReductions nodes result m m' := by
  obtain ⟨new, hnew, hbelow⟩ := h
  obtain ⟨r', hr'⟩ := hresult
  have hpairs : ∀ e ∈ new, ∃ n ∈ nodes, (e.1.1, e.2) ∈ m'.reachablePairs n result := by
    intro e he
    obtain ⟨⟨n, hn, hkey⟩, hreach⟩ := hbelow e he
    obtain ⟨r, hr⟩ := hnodes n hn
    have hmem : e ∈ m'.reduceCache.entries := by
      rw [hnew]
      exact List.mem_append_left _ he
    refine ⟨n, hn, ?_⟩
    rw [Manager.reachablePairs, List.mem_filter, List.pair_mem_product,
      Manager.mem_reachable hm' hr, Manager.mem_reachable hm' hr', decide_eq_true_iff]
    exact ⟨⟨hkey, hreach⟩, (hm'.reductionEntry hnodup hmem).levelOf_eq⟩
  refine ⟨new, hnew, hpairs, ?_⟩
  have hnames := hm'.nodup_reductions hnodup
  rw [hnew, List.map_append] at hnames
  rw [← List.length_flatMap]
  refine length_le_of_names _ hnames.of_append_left fun e he => ?_
  exact List.mem_flatMap.mpr (hpairs e he)

/-- What is merged are exits of nodes below `n`. -/
theorem Reduced.reducesTo (h : Reduced m n result m') {r : NodeRecord}
    (hr : m.record? n = some r) : ReducesTo [n] result m m' := by
  obtain ⟨values, id, m₁, fuel, red, newNumExits, hintern, hm₁, hok⟩ := h.run
  have hsame := (internMap_within (P := ∅) (R := ∅) (C := ∅) values m).of_ok hintern
  have hr₁ := record?_of_records hsame.records hr
  have hW := (reduce_within hm₁ hr₁ List.prefix_rfl red newNumExits).of_ok hok
  have hbefore : ReducesTo [] result m m₁ := .of_entries_eq hsame.reductions.entries_eq
  refine hbefore.trans (.of_footprint hW ?_) hW.records
  exact (reducesBelow_attribution.reduce fuel n red newNumExits m₁).of_ok hok

/-- A product merges nothing. -/
theorem Multiplied.entries_eq {n1 n2 p : NodeId} {r1 r2 : NodeRecord}
    (h : Multiplied m n1 n2 p m') (hm : m.Inv) (h1 : m.record? n1 = some r1)
    (h2 : m.record? n2 = some r2) : m'.reduceCache.entries = m.reduceCache.entries := by
  obtain ⟨pairMap, hok⟩ := h.run
  exact ((pairProduct_within hm h1 h2 List.prefix_rfl).of_ok hok).reductions.entries_eq

/-- The product that a run has made is the one that is asked for. -/
theorem Multiplied.gives {n1 n2 p : NodeId} (h : Multiplied m n1 n2 p m') :
    Gives (productNode m.depth n1 n2) m p := by
  obtain ⟨pairMap, hok⟩ := h.run
  exact ⟨m', by rw [productNode, bind_ok hok]; rfl⟩

/-- `restrict` reduces on the way nodes below its operand, and at the end the restricted node. -/
theorem restrict_reducesTo (hm : m.Inv) (hL : m.level = L) (hf : Denotes m L f F)
    (hi : i < 2 ^ L) (v : Bool) {h : Bdd} (hok : restrict f i v m = .ok h m') :
    ReducesTo [f.root, h.root] h.root m m' := by
  obtain ⟨r, hr, -⟩ := hf.root.record
  obtain ⟨map, m₁, hok₁, hnode, hreduced⟩ := restrict_runs hm hL hf hi v hok
  obtain ⟨r₁, hr₁, -⟩ := hnode.record
  have hbefore : ReducesTo [f.root] h.root m m₁ :=
    .of_footprint ((restrictNode_within hm hr List.prefix_rfl i v []).of_ok hok₁)
      ((reducesBelow_attribution.restrictNode m.depth f.root i v [] m).of_ok hok₁)
  exact hbefore.trans (hreduced.reducesTo hr₁) hreduced.le.nodes

end Calls

section Sessions

variable {L : ℕ} {s : Session} {f g : Returned}

/-- **Which reductions are memoized:** in every session, calls that panicked included, a call of
`apply` memoizes reductions of nodes below the product of its operands to nodes below its
result, no more of them than there are such pairs of one level, and none if it panics. A call of
`restrict` memoizes reductions of nodes below its operand or its result to nodes below its
result. -/
theorem reduction_work (hs : AfterScript L s) (hf : f ∈ s.returned) (hg : g ∈ s.returned)
    (op : BoolOp) :
    (∀ h m', apply f.bdd g.bdd op s.manager = .ok h m' →
      ∃ p, Gives (productNode s.manager.depth f.bdd.root g.bdd.root) s.manager p ∧
        NewReductions [p] h.root s.manager m') ∧
    (∀ e m', apply f.bdd g.bdd op s.manager = .error e m' →
      m'.reduceCache.entries = s.manager.reduceCache.entries) ∧
    ∀ i v h m', restrict f.bdd i v s.manager = .ok h m' →
      NewReductions [f.bdd.root, h.root] h.root s.manager m' := by
  have hv := hs.valid
  have hF := hv.returned f hf
  have hG := hv.returned g hg
  obtain ⟨r1, hr1, -⟩ := hF.root.record
  obtain ⟨r2, hr2, -⟩ := hG.root.record
  have hends := apply_runs hv.inv hv.level hF hG op
  refine ⟨fun h m' hok => ?_, fun e m' herror => ?_, fun i v h m' hok => ?_⟩
  · obtain ⟨p, m₁, hmultiplied, hreduced⟩ := hends.of_ok hok
    obtain ⟨r, hr⟩ := hmultiplied.record
    have hW := (apply_within hv.inv hv.level hF hG op).of_ok hok
    have hbefore : ReducesTo [] h.root s.manager m₁ :=
      .of_entries_eq (hmultiplied.entries_eq hv.inv hr1 hr2)
    have hreduces : ReducesTo [p] h.root s.manager m' :=
      hbefore.trans (hreduced.reducesTo hr) hreduced.le.nodes
    refine ⟨p, hmultiplied.gives, hreduces.newReductions hreduced.inv ?_ ?_ hreduced.record⟩
    · exact hW.reductions.nodup hs.memoizedOnce.reductions
    · intro n hn
      rw [List.mem_singleton.mp hn]
      exact ⟨r, Manager.record?_mono hreduced.le hr⟩
  · obtain ⟨p, hmultiplied⟩ := hends.of_error herror
    exact hmultiplied.entries_eq hv.inv hr1 hr2
  · by_cases hi : i < 2 ^ L
    · obtain ⟨hle, hm', hh⟩ := (restrict_returns hv.inv hv.level hF hi v).of_ok hok
      have hW := (restrict_within hv.inv hv.level hF i v).of_ok hok
      have hresult : ∃ r, m'.record? h.root = some r := hh.root.record.imp fun _ hr => hr.1
      refine (restrict_reducesTo hv.inv hv.level hF hi v hok).newReductions hm' ?_ ?_ hresult
      · exact hW.reductions.nodup hs.memoizedOnce.reductions
      · intro n hn
        rcases List.mem_cons.mp hn with rfl | hn
        · exact ⟨r1, Manager.record?_mono hle hr1⟩
        · rwa [List.mem_singleton.mp hn]
    · rw [restrict_outOfRange (by rwa [Manager.totalVars, hv.level])] at hok
      cases hok

/-- The variable and its negation, and the variable set to true. -/
theorem reduction_work_sample :
    (∀ h m', apply ⟨⟨2⟩, ⟨2⟩⟩ ⟨⟨2⟩, ⟨3⟩⟩ .xor sampleLiterals.manager = .ok h m' →
      ∃ p, Gives (productNode sampleLiterals.manager.depth ⟨2⟩ ⟨2⟩) sampleLiterals.manager p ∧
        NewReductions [p] h.root sampleLiterals.manager m') ∧
    (∀ e m', apply ⟨⟨2⟩, ⟨2⟩⟩ ⟨⟨2⟩, ⟨3⟩⟩ .xor sampleLiterals.manager = .error e m' →
      m'.reduceCache.entries = sampleLiterals.manager.reduceCache.entries) ∧
    ∀ i v h m', restrict ⟨⟨2⟩, ⟨2⟩⟩ i v sampleLiterals.manager = .ok h m' →
      NewReductions [⟨2⟩, h.root] h.root sampleLiterals.manager m' :=
  reduction_work sampleLiterals_reachable.1.afterScript sampleVar_mem sampleNot_mem .xor

end Sessions

end Cflobdd
