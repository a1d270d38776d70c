import Cflobdd.Attribution

/-!
# What the operations leave behind

Nothing is ever removed from the stores. The recursions make each node below the node that
they return, apart from constant nodes. So `apply` leaves behind the nodes of the product
and those of its result, and `restrict` those of its result: what a call adds to the store is
bounded by the sizes of its operands and of its result.
-/

namespace Cflobdd

open FirstVisit Enumerated Growing Traversal

/-- Each node that the store of `m'` has and that of `m` lacks is below one of the roots, or
its record is of the kind `G`. -/
structure AddsBelow (G : NodeRecord → Prop) (roots : List NodeId) (m m' : Manager) : Prop where
  records : m.nodes.records <+: m'.nodes.records
  below : ∀ v r, m'.record? v = some r →
    m.record? v = some r ∨ G r ∨ ∃ n ∈ roots, Reach m'.children n v

/-- The store of nodes stays as it is. -/
def SameNodes (m m' : Manager) : Prop := m'.nodes = m.nodes

instance : IsPreorder Manager SameNodes where
  refl _ := rfl
  trans _ _ _ h h' := h'.trans h

section AddsBelow

variable {G : NodeRecord → Prop} {roots roots' : List NodeId} {m m₁ m' : Manager}
  {n v : NodeId}

/-- What is below a node remains below it. -/
theorem reach_of_records (hle : m.nodes.records <+: m'.nodes.records)
    (h : Reach m.children n v) : Reach m'.children n v := by
  refine Relation.ReflTransGen.mono (fun x c hc => ?_) _ _ h
  cases hr : m.record? x with
  | none => simp [Manager.children, hr] at hc
  | some r =>
    rw [Manager.children_of_record hr] at hc
    rwa [Manager.children_of_record (record?_of_records hle hr)]

/-- What is below a stored node has been below it before the store has grown. -/
theorem Manager.Inv.reach_of_records (hm : m.Inv) {r : NodeRecord} (hr : m.record? n = some r)
    (hle : m.nodes.records <+: m'.nodes.records) (h : Reach m'.children n v) :
    Reach m.children n v := by
  induction h with
  | refl => exact .refl
  | tail _ hstep ih =>
    obtain ⟨r', hr'⟩ := Manager.exists_record_of_reach hm hr ih
    rw [Manager.children_of_record (record?_of_records hle hr')] at hstep
    exact ih.tail (by rwa [Manager.children_of_record hr'])

/-- Nothing is added by a program that leaves the nodes alone. -/
theorem AddsBelow.of_same (h : SameNodes m m') : AddsBelow G roots m m' := by
  refine ⟨by rw [h], fun v r hr => .inl ?_⟩
  rwa [Manager.record?, h] at hr

/-- There may be more roots. -/
theorem AddsBelow.mono (h : AddsBelow G roots m m') (hsub : roots ⊆ roots') :
    AddsBelow G roots' m m' := by
  refine ⟨h.records, fun v r hr => ?_⟩
  obtain hold | hG | ⟨n, hn, hreach⟩ := h.below v r hr
  · exact .inl hold
  · exact .inr (.inl hG)
  · exact .inr (.inr ⟨n, hsub hn, hreach⟩)

/-- Two programs add below the roots of both. -/
theorem AddsBelow.trans (h : AddsBelow G roots m m₁) (h' : AddsBelow G roots' m₁ m') :
    AddsBelow G (roots ++ roots') m m' := by
  refine ⟨h.records.trans h'.records, fun v r hr => ?_⟩
  obtain hmid | hG | ⟨n, hn, hreach⟩ := h'.below v r hr
  · obtain hold | hG | ⟨n, hn, hreach⟩ := h.below v r hmid
    · exact .inl hold
    · exact .inr (.inl hG)
    · exact .inr (.inr ⟨n, List.mem_append_left _ hn, reach_of_records h'.records hreach⟩)
  · exact .inr (.inl hG)
  · exact .inr (.inr ⟨n, List.mem_append_right _ hn, hreach⟩)

/-- A node above the roots takes their place. -/
theorem AddsBelow.above (h : AddsBelow G roots m m')
    (hn : ∀ c ∈ roots, Reach m'.children n c) : AddsBelow G [n] m m' := by
  refine ⟨h.records, fun v r hr => ?_⟩
  obtain hold | hG | ⟨c, hc, hreach⟩ := h.below v r hr
  · exact .inl hold
  · exact .inr (.inl hG)
  · exact .inr (.inr ⟨n, .head _, (hn c hc).trans hreach⟩)

end AddsBelow

/-- Interning a return map leaves the nodes alone. -/
theorem internMap_same (b : List ℕ) (m : Manager) : Within SameNodes (internMap b) m := rfl

/-- Noting a call leaves the nodes alone. -/
theorem observe_same (call : ReduceCall) (m : Manager) : Within SameNodes (observe call) m := rfl

/-- What is added is below the node that is returned, or of the kind `G`. -/
abbrev MakesBelow {α : Type} (G : NodeRecord → Prop) : (α → NodeId) → ManagerM α → Manager →
    Manager → Prop :=
  Attributes (AddsBelow G)

section Making

variable {G : NodeRecord → Prop} {m₀ m : Manager} {roots : List NodeId}

/-- One node is interned: it is the only one that may be new. -/
theorem internInternal_new (level numExits : ℕ) (aConn : Connection) (bConns : List Connection)
    (m : Manager) :
    Ends (internInternal level numExits aConn bConns) m
      (fun id m' => m.nodes.records <+: m'.nodes.records ∧
        m'.record? id = some (.internal level numExits aConn bConns) ∧
        ∀ v r, m'.record? v = some r → m.record? v = some r ∨
          v = id ∧ r = .internal level numExits aConn bConns) fun _ _ => True := by
  unfold internInternal debugAssert
  refine Ends.bind_unchanged (within_assert _ _ m) fun _ => ?_
  refine Ends.bind_unchanged (within_assert _ _ m) fun _ => ?_
  refine Ends.bind_unchanged (within_assert _ _ m) fun _ => ?_
  have hrecord := record?_withInternal (m := m) level numExits aConn bConns
  have hle := (withInternal_le (m := m) level numExits aConn bConns).nodes
  refine ⟨hle, hrecord, fun v r hr => ?_⟩
  have hmem : r ∈ see m.nodes.records (.internal level numExits aConn bConns) := by
    rw [← (m.nodes.internInternal_spec _ _ _ _).2]
    exact List.mem_of_getElem? hr
  rcases mem_see.mp hmem with hold | rfl
  · obtain ⟨i, hi⟩ := List.getElem?_of_mem hold
    have hi' : m.record? ⟨i⟩ = some r := hi
    obtain rfl : v = ⟨i⟩ := NodeStore.record?_inj _ hr (record?_of_records hle hi')
    exact .inl hi'
  · exact .inr ⟨NodeStore.record?_inj _ hr hrecord, rfl⟩

/-- A node is made of nodes that are above all that has been added. -/
theorem internInternal_below (h : AddsBelow G roots m₀ m) (level numExits : ℕ)
    {aConn : Connection} {bConns : List Connection}
    (hroots : roots ⊆ aConn.target :: bConns.map (·.target)) :
    MakesBelow G id (internInternal level numExits aConn bConns) m₀ m := by
  refine Ends.mono (internInternal_new level numExits aConn bConns m) ?_ fun _ _ h => h
  rintro n m' ⟨hle, hrecord, hnew⟩
  have hadds : AddsBelow G [n] m m' := by
    refine ⟨hle, fun v r hr => ?_⟩
    obtain hold | ⟨rfl, -⟩ := hnew v r hr
    · exact .inl hold
    · exact .inr (.inr ⟨v, .head _, .refl⟩)
  refine (h.trans hadds).above fun c hc => ?_
  rcases List.mem_append.mp hc with hc | hc
  · refine .single ?_
    change c ∈ m'.children n
    rw [Manager.children_of_record hrecord]
    exact hroots hc
  · exact List.mem_singleton.mp hc ▸ .refl

/-- The constant nodes that are added are below the one returned. -/
theorem noDistinction_below (k : ℕ) (m : Manager) :
    MakesBelow G id (noDistinction k) m m := by
  induction k generalizing m with
  | zero => exact Ends.pure (.of_same rfl)
  | succ k ih =>
    unfold noDistinction
    refine Ends.bind_unchanged (within_reads _ m) fun size => ?_
    refine Ends.bind_unchanged (within_assert _ _ m) fun _ => ?_
    have hcompute : MakesBelow G id (do
        let child ← noDistinction k
        let map ← reads (·.rmSingleton0)
        internInternal (k + 1) 1 ⟨child, map⟩ [⟨child, map⟩]) m m := by
      refine Ends.bind (ih m) fun child m₁ hchild => ?_
      refine Ends.bind_unchanged (within_reads _ m₁) fun map => ?_
      exact internInternal_below hchild _ _ (by simp)
    refine Ends.memoized (fun _ => hcompute) (fun _ _ _ => .of_same rfl) fun _ _ => ?_
    exact Ends.mono hcompute (fun id m' h => ⟨h.records, h.below⟩) fun _ _ h => h

/-- A node with one exit, that is, a constant node. -/
def HasOneExit (r : NodeRecord) : Prop := r.numExits = 1

/-- `no_distinction` makes nodes with one exit only. -/
theorem noDistinction_hasOneExit (k : ℕ) (m : Manager) :
    Ends (noDistinction k) m (fun _ m' => AddsBelow HasOneExit [] m m') fun _ _ => True := by
  induction k generalizing m with
  | zero => exact Ends.pure (.of_same rfl)
  | succ k ih =>
    unfold noDistinction
    refine Ends.bind_unchanged (within_reads _ m) fun size => ?_
    refine Ends.bind_unchanged (within_assert _ _ m) fun _ => ?_
    have hcompute : Ends (do
        let child ← noDistinction k
        let map ← reads (·.rmSingleton0)
        internInternal (k + 1) 1 ⟨child, map⟩ [⟨child, map⟩]) m
        (fun _ m' => AddsBelow HasOneExit [] m m') fun _ _ => True := by
      refine Ends.bind (ih m) fun child m₁ hchild => ?_
      refine Ends.bind_unchanged (within_reads _ m₁) fun map => ?_
      refine Ends.mono (internInternal_new _ _ _ _ m₁) ?_ fun _ _ h => h
      rintro n m' ⟨hle, -, hnew⟩
      refine ⟨hchild.records.trans hle, fun v r hr => ?_⟩
      obtain hmid | ⟨-, rfl⟩ := hnew v r hr
      · obtain hold | hG | ⟨n, hn, -⟩ := hchild.below v r hmid
        · exact .inl hold
        · exact .inr (.inl hG)
        · cases hn
      · exact .inr (.inl rfl)
    refine Ends.memoized (fun _ => hcompute) (fun _ _ _ => .of_same rfl) fun _ _ => ?_
    exact Ends.mono hcompute (fun id m' h => ⟨h.records, h.below⟩) fun _ _ h => h

/-- Nodes are attributed to the nodes above them, apart from constant nodes. -/
theorem addsBelow_attribution : Attribution (AddsBelow HasOneExit) where
  refl _ := .of_same rfl
  mono h := h.mono
  trans h := h.trans
  internMap b m := (internMap_same b m).mono fun _ => .of_same
  observe call m := (observe_same call m).mono fun _ => .of_same
  noDistinction := noDistinction_hasOneExit
  internInternal level numExits _ _ h hroots := internInternal_below h level numExits hroots
  recordReduce _ _ _ h := ⟨h.records, h.below⟩
  recordPairProduct _ _ _ h := ⟨h.records, h.below⟩

end Making

section Growth

variable {m m' : Manager} {roots : List NodeId}

/-- A node with one exit represents the constants. -/
theorem Represents.const_of_hasOneExit {k : ℕ} {e : Asg k → ℕ} {n : NodeId} {r : NodeRecord}
    (h : Represents m k e n) (hr : m.record? n = some r) (hone : HasOneExit r) :
    Represents m k (fun _ : Asg k => ()) n := by
  obtain ⟨r', hr', -, hexits⟩ := h.record
  obtain rfl := Option.some.inj (hr'.symm.trans hr)
  refine h.congr fun a b => iff_of_true (const_of_length_visited ?_ a b) rfl
  rw [← hexits, hone]

/-- What is below a root is listed by the traversal from it. -/
theorem Manager.Inv.reachable_of_root (hm : m.Inv) {root : NodeId} {r : NodeRecord}
    (hr : m.record? root = some r) :
    ∀ n ∈ [root], ∀ v, Reach m.children n v → v ∈ m.reachable root := by
  intro n hn v hv
  rw [List.mem_singleton.mp hn] at hv
  exact (Manager.mem_reachable hm hr).mpr hv

/-- The nodes that are added are among those listed, besides those of the kind `G`, which have
partners of their own in a second list. -/
theorem AddsBelow.nodeCount_le_of {G : NodeRecord → Prop} {κ : Type} {R : NodeId → κ → Prop}
    (h : AddsBelow G roots m m') (listed : List NodeId) (others : List κ)
    (hlisted : ∀ n ∈ roots, ∀ v, Reach m'.children n v → v ∈ listed)
    (hothers : ∀ v r, m'.record? v = some r → m.nodeCount ≤ v.raw → G r → ∃ k ∈ others, R v k)
    (hR : ∀ v v' k, R v k → R v' k → v = v') :
    m'.nodeCount ≤ m.nodeCount + listed.length + others.length := by
  let added := (List.range' m.nodeCount (m'.nodeCount - m.nodeCount)).map NodeId.mk
  let partners : List (NodeId ⊕ κ) := listed.map .inl ++ others.map .inr
  have hadded : added.length ≤ partners.length := by
    refine length_le_of_partners (R := fun (v : NodeId) (y : NodeId ⊕ κ) => y.elim (v = ·) (R v))
      ?_ ?_ ?_
    · exact List.Nodup.map (fun i j hij => NodeId.mk.inj hij) List.nodup_range'
    · intro v hv
      obtain ⟨i, hi, rfl⟩ := List.mem_map.mp hv
      rw [List.mem_range'_1] at hi
      have hr : m'.record? ⟨i⟩ = some _ := List.getElem?_eq_getElem (show i < m'.nodeCount by omega)
      obtain hold | hG | ⟨n, hn, hreach⟩ := h.below _ _ hr
      · exact absurd (Manager.lt_nodeCount hold) (Nat.not_lt.mpr hi.1)
      · obtain ⟨k, hk, hRk⟩ := hothers _ _ hr hi.1 hG
        exact ⟨.inr k, List.mem_append_right _ (List.mem_map_of_mem hk), hRk⟩
      · exact ⟨.inl ⟨i⟩, List.mem_append_left _ (List.mem_map_of_mem (hlisted n hn _ hreach)), rfl⟩
    · rintro v v' (w | k) hv hv'
      · exact hv.trans hv'.symm
      · exact hR v v' k hv hv'
  simp only [added, partners, List.length_map, List.length_append, List.length_range'] at hadded
  omega

/-- Constant nodes are added once at each level but the last. -/
theorem AddsBelow.nodeCount_le (h : AddsBelow HasOneExit roots m m') (hm' : m'.Inv)
    (listed : List NodeId)
    (hlisted : ∀ n ∈ roots, ∀ v, Reach m'.children n v → v ∈ listed) :
    m'.nodeCount ≤ m.nodeCount + listed.length + m'.level := by
  have hcount := h.nodeCount_le_of listed (List.range' 1 m'.level)
    (R := fun v k => Represents m' k (fun _ : Asg k => ()) v) hlisted ?_
    fun v v' k hv hv' => hv.unique hv'
  · rwa [List.length_range'] at hcount
  · intro v r hr hnew hone
    obtain ⟨hk, e, he, -⟩ := hm'.exists_represents hr
    have hconst := he.const_of_hasOneExit hr hone
    refine ⟨r.level, ?_, hconst⟩
    rw [List.mem_range'_1]
    refine ⟨Nat.pos_of_ne_zero fun hzero => ?_, by omega⟩
    -- The constant node of level zero has always been there.
    rw [hzero] at hconst
    obtain rfl : v = .dontCare := hconst
    have hlt := Manager.lt_nodeCount m.record?_dontCare
    omega

/-- A product that has been made is no larger than the pairs of nodes of the operands. -/
theorem Multiplied.nodeCount_le {m₁ : Manager} {n1 n2 p : NodeId} {r1 r2 : NodeRecord}
    (h : Multiplied m n1 n2 p m₁) (hm : m.Inv) (h1 : m.record? n1 = some r1)
    (h2 : m.record? n2 = some r2) (hadds : AddsBelow HasOneExit roots m₁ m') (hm' : m'.Inv)
    (listed : List NodeId) (hlisted : ∀ n ∈ roots, ∀ v, Reach m'.children n v → v ∈ listed) :
    m'.nodeCount ≤ m.nodeCount + (m.reachablePairs n1 n2).length + listed.length + m'.level := by
  obtain ⟨r, hr⟩ := h.record
  have hsize := (h.product.length_reachable_le h.inv).trans_eq
    (hm.length_reachablePairs h.inv h.le h1 h2)
  have hcount := ((addsBelow_attribution.multiplied h).trans hadds).nodeCount_le hm'
    (m₁.reachable p ++ listed) ?_
  · rw [List.length_append] at hcount
    omega
  · intro n hn v hv
    rcases List.mem_cons.mp hn with rfl | hn
    · refine List.mem_append_left _ ((Manager.mem_reachable h.inv hr).mpr ?_)
      exact h.inv.reach_of_records hr hadds.records hv
    · exact List.mem_append_right _ (hlisted n hn v hv)

end Growth

section Calls

variable {m : Manager} {L i : ℕ} {f g : Bdd} {F G : Asg L → Bool}

/-- What `apply` adds: products of pairs, nodes of the result and constant nodes. -/
theorem apply_nodeCount_le (hm : m.Inv) (hL : m.level = L) (hf : Denotes m L f F)
    (hg : Denotes m L g G) (op : BoolOp) :
    Ends (apply f g op) m
      (fun h m' => m'.nodeCount ≤ m.nodeCount + (m.reachablePairs f.root g.root).length +
        (m'.reachable h.root).length + L)
      fun _ m' => m'.nodeCount ≤ m.nodeCount + (m.reachablePairs f.root g.root).length + L := by
  obtain ⟨r1, hr1, -⟩ := hf.root.record
  obtain ⟨r2, hr2, -⟩ := hg.root.record
  refine Ends.mono (apply_runs hm hL hf hg op) ?_ ?_
  · rintro h m' ⟨p, m₁, hmultiplied, hreduced⟩
    obtain ⟨r, hr⟩ := hreduced.record
    have hcount := hmultiplied.nodeCount_le hm hr1 hr2 (addsBelow_attribution.reduced hreduced)
      hreduced.inv _ (hreduced.inv.reachable_of_root hr)
    rwa [hreduced.le.level, hmultiplied.le.level, hL] at hcount
  · rintro e m' ⟨p, hmultiplied⟩
    have hcount := hmultiplied.nodeCount_le hm hr1 hr2 (addsBelow_attribution.refl m')
      hmultiplied.inv [] fun n hn => absurd hn List.not_mem_nil
    rwa [hmultiplied.le.level, hL] at hcount

/-- What `restrict` adds: nodes of the result and constant nodes. -/
theorem restrict_nodeCount_le (hm : m.Inv) (hL : m.level = L) (hf : Denotes m L f F)
    (i : ℕ) (v : Bool) :
    Ends (restrict f i v) m
      (fun h m' => m'.nodeCount ≤ m.nodeCount + (m'.reachable h.root).length + L)
      fun _ m' => m' = m := by
  by_cases hi : i < 2 ^ L
  · obtain ⟨h, m', hok, hle, hm', hh, -⟩ := restrict_returns hm hL hf hi v
    obtain ⟨r, hr, -⟩ := hh.root.record
    have hcount := (addsBelow_attribution.restricted hm hL hf hi v hok).nodeCount_le hm' _
      (hm'.reachable_of_root hr)
    rw [Ends, hok]
    rwa [hle.level, hL] at hcount
  · rw [Ends, restrict_outOfRange (by rwa [Manager.totalVars, hL]) v]

end Calls

section Sessions

variable {L : ℕ} {s : Session} {f g : Returned}

/-- **What `apply` adds to the store:** in every session, calls that panicked included, no more
nodes than there are pairs of nodes of one level below the operands, the nodes of the result,
and one constant node at each level but the last. A call that panics leaves no result. -/
theorem apply_growth (hs : AfterScript L s) (hf : f ∈ s.returned) (hg : g ∈ s.returned)
    (op : BoolOp) :
    (∀ h m', apply f.bdd g.bdd op s.manager = .ok h m' → m'.nodeCount ≤ s.manager.nodeCount +
      (s.manager.reachablePairs f.bdd.root g.bdd.root).length + (m'.reachable h.root).length +
        L) ∧
    ∀ e m', apply f.bdd g.bdd op s.manager = .error e m' → m'.nodeCount ≤ s.manager.nodeCount +
      (s.manager.reachablePairs f.bdd.root g.bdd.root).length + L := by
  have hv := hs.valid
  have hends := apply_nodeCount_le hv.inv hv.level (hv.returned f hf) (hv.returned g hg) op
  exact ⟨fun h m' hok => hends.of_ok hok, fun e m' herror => hends.of_error herror⟩

theorem apply_growth_sample :
    (∀ h m', apply ⟨⟨2⟩, ⟨2⟩⟩ ⟨⟨2⟩, ⟨3⟩⟩ .xor sampleLiterals.manager = .ok h m' →
      m'.nodeCount ≤ sampleLiterals.manager.nodeCount +
        (sampleLiterals.manager.reachablePairs ⟨2⟩ ⟨2⟩).length + (m'.reachable h.root).length +
          1) ∧
    ∀ e m', apply ⟨⟨2⟩, ⟨2⟩⟩ ⟨⟨2⟩, ⟨3⟩⟩ .xor sampleLiterals.manager = .error e m' →
      m'.nodeCount ≤ sampleLiterals.manager.nodeCount +
        (sampleLiterals.manager.reachablePairs ⟨2⟩ ⟨2⟩).length + 1 :=
  apply_growth sampleLiterals_reachable.1.afterScript sampleVar_mem sampleNot_mem .xor

/-- **What `restrict` adds to the store:** in every session, calls that panicked included, the
nodes of the result and one constant node at each level but the last. A call that panics
leaves the manager as it was. -/
theorem restrict_growth (hs : AfterScript L s) (hf : f ∈ s.returned) (i : ℕ) (v : Bool) :
    (∀ h m', restrict f.bdd i v s.manager = .ok h m' →
      m'.nodeCount ≤ s.manager.nodeCount + (m'.reachable h.root).length + L) ∧
    ∀ e m', restrict f.bdd i v s.manager = .error e m' → m' = s.manager := by
  have hvalid := hs.valid
  have hends := restrict_nodeCount_le hvalid.inv hvalid.level (hvalid.returned f hf) i v
  exact ⟨fun h m' hok => hends.of_ok hok, fun e m' herror => hends.of_error herror⟩

theorem restrict_growth_sample :
    (∀ h m', restrict ⟨⟨2⟩, ⟨2⟩⟩ 0 true sampleLiterals.manager = .ok h m' →
      m'.nodeCount ≤ sampleLiterals.manager.nodeCount + (m'.reachable h.root).length + 1) ∧
    ∀ e m', restrict ⟨⟨2⟩, ⟨2⟩⟩ 0 true sampleLiterals.manager = .error e m' →
      m' = sampleLiterals.manager :=
  restrict_growth sampleLiterals_reachable.1.afterScript sampleVar_mem 0 true

end Sessions

end Cflobdd
