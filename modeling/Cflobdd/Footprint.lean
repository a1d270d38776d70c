import Cflobdd.Growing.Additions
import Cflobdd.Isomorphism
import Mathlib.Data.Sym.Sym2

/-!
# What the operations add to the memo tables

The recursions run over the nodes of the operands only, on a store that grows meanwhile.
They add entries to the memo tables for nodes that are reached from the operands, and each of
them when its key is missing. The nodes that a recursion reaches below a node are of lower
levels, so that no recursion computes its own result on the way.
-/

namespace Cflobdd

open FirstVisit Growing Traversal

/-- What a program does to the store and to the memo tables: it appends records, and it adds
entries for missing keys, which are in the three given sets. A product is looked up under both
orders of its operands, so that its key is an unordered pair. -/
structure Footprint (products : Set (NodeId × NodeId)) (reductions : Set (NodeId × ReturnMapId))
    (counts : Set NodeId) (m m' : Manager) : Prop where
  records : m.nodes.records <+: m'.nodes.records
  memo : m'.probe.memo = m.probe.memo
  pairProducts : Table.Adds (fun p => s(p.1, p.2)) products m.pairProductCache m'.pairProductCache
  reductions : Table.Adds id reductions m.reduceCache m'.reduceCache
  pathCounts : Table.Adds id counts m.pathCounts m'.pathCounts

section Footprint

variable {P P' : Set (NodeId × NodeId)} {R R' : Set (NodeId × ReturnMapId)} {C C' : Set NodeId}
  {m m' : Manager}

instance : IsPreorder Manager (Footprint P R C) where
  refl _ := ⟨List.prefix_rfl, rfl, .refl _, .refl _, .refl _⟩
  trans _ _ _ h h' := ⟨h.records.trans h'.records, h'.memo.trans h.memo,
    h.pairProducts.trans h'.pairProducts, h.reductions.trans h'.reductions,
    h.pathCounts.trans h'.pathCounts⟩

/-- The sets of keys may be larger. -/
theorem Footprint.mono (hP : P ⊆ P') (hR : R ⊆ R') (hC : C ⊆ C') (h : Footprint P R C m m') :
    Footprint P' R' C' m m' :=
  ⟨h.records, h.memo, h.pairProducts.mono hP, h.reductions.mono hR, h.pathCounts.mono hC⟩

/-- A step that leaves the memo tables alone. -/
theorem Footprint.of_tables (hrecords : m.nodes.records <+: m'.nodes.records)
    (hmemo : m'.probe.memo = m.probe.memo) (hproducts : m'.pairProductCache = m.pairProductCache)
    (hreductions : m'.reduceCache = m.reduceCache) (hcounts : m'.pathCounts = m.pathCounts) :
    Footprint P R C m m' :=
  ⟨hrecords, hmemo, hproducts ▸ .refl _, hreductions ▸ .refl _, hcounts ▸ .refl _⟩

end Footprint

section Steps

variable {W : Manager → Manager → Prop} [IsPreorder Manager W] {α β : Type} {m : Manager}

omit [IsPreorder Manager W] in
/-- The rule for a program that starts by reading. -/
theorem within_reads_bind {f : Manager → α} {g : α → ManagerM β} (hg : Within W (g (f m)) m) :
    Within W (reads f >>= g) m := hg

/-- The rule for a program that starts by indexing, in range or not. -/
theorem within_index_bind {xs : List α} {i : ℕ} {g : α → ManagerM β}
    (hg : ∀ x ∈ xs, Within W (g x) m) : Within W (index xs i >>= g) m := by
  cases h : xs[i]? with
  | some x =>
    rw [index_of_some h, pure_bind]
    exact hg x (List.mem_of_getElem? h)
  | none =>
    rw [index, h]
    exact Within.throw Panic.indexOutOfBounds m

/-- The rule for a program that starts with an assertion, which holds for the rest. -/
theorem within_assert_bind {condition : Bool} {panic : Panic} {g : Unit → ManagerM β}
    (hg : condition = true → Within W (g ()) m) : Within W (assert condition panic >>= g) m := by
  cases h : condition with
  | true =>
    rw [assert_of_true rfl, pure_bind]
    exact hg h
  | false =>
    rw [assert_of_false rfl]
    exact Within.throw panic m

/-- The rule for a program that starts by reading a record. -/
theorem within_record_bind {id : NodeId} {g : NodeRecord → ManagerM β}
    (hg : ∀ r, m.record? id = some r → Within W (g r) m) : Within W (record id >>= g) m := by
  cases h : m.record? id with
  | some r =>
    refine Within.bind (by rw [Within, Ends, record_ok h]; exact refl_of W m) ?_
    intro r' m' hok _
    rw [record_ok h] at hok
    cases hok
    exact hg r h
  | none =>
    have herror : record id m = .error .indexOutOfBounds m := by
      change (index m.nodes.records id.raw : ManagerM NodeRecord) m = _
      rw [index, show m.nodes.records[id.raw]? = none from h]
      rfl
    rw [Within, Ends, bind_error herror]
    exact refl_of W m

/-- The rule for a program that starts by reading a body. -/
theorem within_body_bind {id : ReturnMapId} {g : List ℕ → ManagerM β}
    (hg : ∀ b, Within W (g b) m) : Within W (body id >>= g) m := by
  unfold body
  rw [bind_assoc]
  exact within_reads_bind (within_index_bind fun b _ => hg b)

/-- Reading changes nothing. -/
theorem within_reads (f : Manager → α) (m : Manager) : Within W (reads f) m := refl_of W m

/-- Reading a record changes nothing. -/
theorem within_record (id : NodeId) (m : Manager) : Within W (record id) m := by
  rw [← bind_pure (record id)]
  exact within_record_bind fun r _ => Within.pure r m

/-- Indexing changes nothing. -/
theorem within_index (xs : List α) (i : ℕ) (m : Manager) :
    Within W (index xs i : ManagerM α) m := by
  rw [← bind_pure (index xs i : ManagerM α)]
  exact within_index_bind fun x _ => Within.pure x m

/-- An assertion changes nothing. -/
theorem within_assert (condition : Bool) (panic : Panic) (m : Manager) :
    Within W (assert condition panic : ManagerM Unit) m := by
  rw [← bind_pure (assert condition panic : ManagerM Unit)]
  exact within_assert_bind fun _ => Within.pure _ m

/-- Reading a body changes nothing. -/
theorem within_body (id : ReturnMapId) (m : Manager) : Within W (body id) m := by
  rw [← bind_pure (body id)]
  exact within_body_bind fun b => Within.pure b m

end Steps

section Store

variable {P : Set (NodeId × NodeId)} {R : Set (NodeId × ReturnMapId)} {C : Set NodeId}
  {m : Manager}

/-- Interning a return map has no footprint. -/
theorem internMap_within (b : List ℕ) (m : Manager) : Within (Footprint P R C) (internMap b) m :=
  .of_tables List.prefix_rfl rfl rfl rfl rfl

/-- Interning a node appends a record and leaves the tables alone. -/
theorem internInternal_within (level numExits : ℕ) (aConn : Connection)
    (bConns : List Connection) (m : Manager) :
    Within (Footprint P R C) (internInternal level numExits aConn bConns) m := by
  unfold internInternal debugAssert
  refine within_assert_bind fun _ => within_assert_bind fun _ => within_assert_bind fun _ => ?_
  refine .of_tables ?_ rfl rfl rfl rfl
  rw [(m.nodes.internInternal_spec level numExits aConn bConns).2]
  exact prefix_see _ _

/-- Noting a call has no footprint. -/
theorem observe_within (call : ReduceCall) (m : Manager) :
    Within (Footprint P R C) (observe call) m := .of_tables List.prefix_rfl rfl rfl rfl rfl

/-- The constant nodes have a table of their own. -/
theorem noDistinction_within (k : ℕ) (m : Manager) :
    Within (Footprint P R C) (noDistinction k) m := by
  induction k generalizing m with
  | zero => exact Within.pure _ m
  | succ k ih =>
    unfold noDistinction
    refine within_reads_bind (within_assert_bind fun _ => ?_)
    refine Within.memoized (W := Footprint P R C) ?_ (fun _ h => h) ?_
    · refine Within.bind (ih m) fun child m₁ _ _ => within_reads_bind ?_
      exact internInternal_within _ _ _ _ m₁
    · exact fun id t _ _ => .of_tables List.prefix_rfl rfl rfl rfl rfl

/-- Making a variable interns nodes only. -/
theorem mkDistinction_within (level i : ℕ) (m : Manager) :
    Within (Footprint P R C) (mkDistinction level i) m := by
  induction level generalizing i m with
  | zero => exact within_assert_bind fun _ => Within.pure _ m
  | succ level ih =>
    unfold mkDistinction
    dsimp only
    split
    · refine Within.bind (ih i m) fun aTarget m₁ _ _ => within_reads_bind ?_
      refine Within.bind (noDistinction_within level m₁) fun nd m₂ _ _ => ?_
      exact within_reads_bind (within_reads_bind (internInternal_within _ _ _ _ m₂))
    · refine Within.bind (noDistinction_within level m) fun nd m₁ _ _ => within_reads_bind ?_
      refine Within.bind (ih _ m₁) fun bTarget m₂ _ _ => within_reads_bind ?_
      exact internInternal_within _ _ _ _ m₂

/-- `not` interns one return map. -/
theorem not_within {W : Manager → Manager → Prop} [IsPreorder Manager W]
    (hintern : ∀ b m, Within W (internMap b) m) (f : Bdd) (m : Manager) :
    Within W (not f) m := by
  unfold Cflobdd.not
  refine within_body_bind fun values => ?_
  refine Within.bind (Within.foldlM (fun v _ out t _ => ?_) _) fun flipped m₁ _ _ => ?_
  · unfold flipValue
    split
    · exact Within.pure _ t
    · exact Within.throw _ t
  · exact Within.bind (hintern _ m₁) fun _ m₂ _ _ => Within.pure _ m₂

end Store

section Below

variable {m₀ m : Manager} {n n1 n2 c v : NodeId} {r : NodeRecord}

/-- The store of `m₀` may have grown. -/
theorem record?_of_records (hle : m₀.nodes.records <+: m.nodes.records)
    (hr : m₀.record? n = some r) : m.record? n = some r := by
  obtain ⟨rest, hrest⟩ := hle
  have hlt : n.raw < m₀.nodes.records.length := (List.getElem?_eq_some_iff.mp hr).choose
  rw [Manager.record?, NodeStore.record?, ← hrest, List.getElem?_append_left hlt]
  exact hr

/-- The pairs of children of a pair of nodes. -/
def Manager.pairChildren (m : Manager) (p : NodeId × NodeId) : List (NodeId × NodeId) :=
  (m.children p.1).product (m.children p.2)

/-- The pairs that the product of two nodes recurs to. -/
def productsBelow (m : Manager) (p : NodeId × NodeId) : Set (NodeId × NodeId) :=
  {q | Reach m.pairChildren p q}

/-- The keys of the reductions of the nodes below a node. -/
def reductionsBelow (m : Manager) (n : NodeId) : Set (NodeId × ReturnMapId) :=
  {key | Reach m.children n key.1}

/-- The nodes below a node. -/
def nodesBelow (m : Manager) (n : NodeId) : Set NodeId := {v | Reach m.children n v}

/-- The products below a child are among those below the pair. -/
theorem productsBelow_subset {p q : NodeId × NodeId} (hq : q ∈ m.pairChildren p) :
    productsBelow m q ⊆ productsBelow m p := fun _ h => .head hq h

/-- The reductions below a child are among those below the node. -/
theorem reductionsBelow_subset (hc : c ∈ m.children n) :
    reductionsBelow m c ⊆ reductionsBelow m n := fun _ h => .head hc h

/-- The nodes below a child are among those below the node. -/
theorem nodesBelow_subset (hc : c ∈ m.children n) : nodesBelow m c ⊆ nodesBelow m n :=
  fun _ h => .head hc h

/-- No node is below its children. -/
theorem Manager.Inv.not_reach_child (hm : m.Inv) (hc : c ∈ m.children n) :
    ¬Reach m.children c n := by
  intro h
  have hle := level_le_of_reach hm.child_level h
  have hlt := hm.child_level n c hc
  omega

/-- The two nodes of a pair that is reached are reached. -/
theorem reach_of_pairChildren {p q : NodeId × NodeId} (h : Reach m.pairChildren p q) :
    Reach m.children p.1 q.1 ∧ Reach m.children p.2 q.2 := by
  induction h with
  | refl => exact ⟨.refl, .refl⟩
  | tail _ hstep ih =>
    obtain ⟨h₁, h₂⟩ := List.pair_mem_product.mp hstep
    exact ⟨ih.1.tail h₁, ih.2.tail h₂⟩

/-- No pair is below a pair of its children, in either order. -/
theorem Manager.Inv.pair_ne_of_child (hm : m.Inv) {p c q : NodeId × NodeId}
    (hc : c ∈ m.pairChildren p) (hq : q ∈ productsBelow m c) : s(q.1, q.2) ≠ s(p.1, p.2) := by
  obtain ⟨h₁, h₂⟩ := reach_of_pairChildren hq
  obtain ⟨hc₁, hc₂⟩ := List.pair_mem_product.mp hc
  have hle₁ := level_le_of_reach hm.child_level h₁
  have hle₂ := level_le_of_reach hm.child_level h₂
  have hlt₁ := hm.child_level _ _ hc₁
  have hlt₂ := hm.child_level _ _ hc₂
  intro heq
  rcases Sym2.eq_iff.mp heq with ⟨heq₁, -⟩ | ⟨heq₁, heq₂⟩
  · rw [heq₁] at hle₁
    omega
  · -- The flipped pair would put each of the nodes below the other.
    rw [heq₁] at hle₁
    rw [heq₂] at hle₂
    omega

end Below

section Product

variable {P : Set (NodeId × NodeId)} {R : Set (NodeId × ReturnMapId)} {C : Set NodeId}
  {m₀ m : Manager} {n1 n2 : NodeId} {r1 r2 : NodeRecord}

/-- The exits of a product are numbered without the manager. -/
theorem crossExit_within {W : Manager → Manager → Prop} [IsPreorder Manager W]
    (b1Map b2Map : List ℕ) (state : Dedup (ℕ × ℕ) × List ℕ) (c : ℕ × ℕ) (m : Manager) :
    Within W (crossExit b1Map b2Map state c) m :=
  within_index_bind fun _ _ => within_index_bind fun _ _ => Within.pure _ m

/-- The product of two nodes has the footprint of the products of their children. -/
theorem pairProductUncached_within {f : NodeId → NodeId → ManagerM (NodeId × PairProductMap)}
    (h1 : m₀.record? n1 = some r1) (h2 : m₀.record? n2 = some r2)
    (hf : ∀ c ∈ m₀.pairChildren (n1, n2), ∀ m : Manager, m₀.nodes.records <+: m.nodes.records →
      Within (Footprint P R C) (f c.1 c.2) m)
    (hle : m₀.nodes.records <+: m.nodes.records) :
    Within (Footprint P R C) (pairProductUncached f n1 n2) m := by
  unfold pairProductUncached
  refine within_record_bind fun r hr => within_record_bind fun r' hr' => ?_
  obtain rfl := Option.some.inj (hr.symm.trans (record?_of_records hle h1))
  obtain rfl := Option.some.inj (hr'.symm.trans (record?_of_records hle h2))
  cases r with
  | dontCare => cases r' <;> first | exact Within.pure _ m | exact Within.throw _ m
  | fork => cases r' <;> first | exact Within.pure _ m | exact Within.throw _ m
  | internal l1 ne1 a1 b1 =>
    cases r' with
    | dontCare | fork => exact Within.throw _ m
    | internal l2 ne2 a2 b2 =>
      have hchild : ∀ c1 ∈ a1.target :: b1.map (·.target),
          ∀ c2 ∈ a2.target :: b2.map (·.target), (c1, c2) ∈ m₀.pairChildren (n1, n2) := by
        intro c1 hc1 c2 hc2
        rw [Manager.pairChildren, List.pair_mem_product, Manager.children_of_record h1,
          Manager.children_of_record h2]
        exact ⟨hc1, hc2⟩
      have hcross : ∀ t : Manager, m₀.nodes.records <+: t.nodes.records →
          Within (Footprint P R C) (crossProduct f l1 a1 b1 a2 b2) t := by
        intro t ht
        unfold crossProduct debugAssert
        refine Within.bind (hf _ (hchild _ (.head _) _ (.head _)) t ht) ?_
        rintro ⟨aNode, aPairMap⟩ t₁ - hW₁
        refine Within.bind (internMap_within _ t₁) fun aReturnMap t₂ _ hW₂ => ?_
        refine within_body_bind fun a1Map => within_body_bind fun a2Map => ?_
        refine within_assert_bind fun _ => within_assert_bind fun _ => ?_
        refine Within.bind (Within.foldlM ?_ _) ?_
        · intro bIdx _ state t₃ hW₃
          refine within_index_bind fun b1c hb1c => within_index_bind fun b2c hb2c => ?_
          have hb := hchild _ (.tail _ (List.mem_map_of_mem hb1c)) _
            (.tail _ (List.mem_map_of_mem hb2c))
          refine Within.bind (hf _ hb t₃
            (((ht.trans hW₁.records).trans hW₂.records).trans hW₃.records)) ?_
          rintro ⟨bNode, bPairMap⟩ t₄ - -
          refine within_body_bind fun b1Map => within_body_bind fun b2Map => ?_
          refine Within.bind (Within.foldlM (fun c _ state t _ =>
            crossExit_within b1Map b2Map state c t) _) ?_
          rintro ⟨exits, bReturnMap⟩ t₅ - -
          exact Within.bind (internMap_within _ t₅) fun _ t₆ _ _ => Within.pure _ t₆
        · intro state t₃ _ _
          exact Within.bind (internInternal_within _ _ _ _ t₃) fun _ t₄ _ _ => Within.pure _ t₄
      refine within_assert_bind fun _ => within_reads_bind ?_
      split
      · refine Within.bind (noDistinction_within l1 m) fun nd m₁ _ hW => ?_
        split_ifs
        · exact Within.pure _ m₁
        · exact Within.pure _ m₁
        · exact Within.pure _ m₁
        · exact hcross m₁ (hle.trans hW.records)
      · exact hcross m hle

/-- A product that is not found is missing under both orders of its key. -/
theorem not_mem_of_lookupPairProduct (h : lookupPairProduct n1 n2 m = none) :
    s(n1, n2) ∉ m.pairProductCache.keys fun p => s(p.1, p.2) := by
  intro hmem
  obtain ⟨e, he, heq⟩ := List.mem_map.mp hmem
  have hfound : ∃ memo, m.pairProductCache.get? e.1 = some memo := by
    rw [← Option.ne_none_iff_exists', Ne, Table.get?_eq_none_iff, not_not]
    exact List.mem_map_of_mem he
  have hsome : (lookupPairProduct n1 n2 m).isSome = true := by
    rw [isSome_lookupPairProduct]
    rcases (Sym2.mk_eq_mk_iff (q := (n1, n2))).mp heq with hkey | hkey
    · exact .inl (hkey ▸ hfound)
    · exact .inr (by rwa [hkey] at hfound)
  rw [h] at hsome
  cases hsome

/-- **The footprint of `pair_product`:** products of nodes below the two operands. -/
theorem pairProduct_within (hm₀ : m₀.Inv) {fuel : ℕ} (h1 : m₀.record? n1 = some r1)
    (h2 : m₀.record? n2 = some r2) (hle : m₀.nodes.records <+: m.nodes.records) :
    Within (Footprint (productsBelow m₀ (n1, n2)) ∅ ∅) (pairProduct fuel n1 n2) m := by
  induction fuel generalizing n1 n2 r1 r2 m with
  | zero => exact Within.throw _ m
  | succ fuel ih =>
    unfold pairProduct
    refine Within.memoized
      (W := Footprint {q | ∃ c ∈ m₀.pairChildren (n1, n2), q ∈ productsBelow m₀ c} ∅ ∅) ?_ ?_ ?_
    · refine pairProductUncached_within h1 h2 ?_ hle
      intro c hc t ht
      obtain ⟨hc1, hc2⟩ := List.pair_mem_product.mp hc
      obtain ⟨r, hr⟩ := (hm₀.child hc1).1
      obtain ⟨r', hr'⟩ := (hm₀.child hc2).1
      exact (ih hr hr' ht).mono fun _ => .mono (fun _ hq => ⟨c, hc, hq⟩) le_rfl le_rfl
    · intro t
      refine .mono ?_ le_rfl le_rfl
      rintro q ⟨c, hc, hq⟩
      exact productsBelow_subset hc hq
    · intro result t hmiss hW
      refine ⟨List.prefix_rfl, rfl, Table.Adds.insert .refl ?_ _, .refl _, .refl _⟩
      refine hW.pairProducts.not_mem ?_ ?_
      · rintro q ⟨c, hc, hq⟩
        exact hm₀.pair_ne_of_child hc hq
      · exact not_mem_of_lookupPairProduct hmiss

end Product

section Reduce

variable {P : Set (NodeId × NodeId)} {R : Set (NodeId × ReturnMapId)} {C : Set NodeId}
  {m₀ m : Manager} {n : NodeId} {r : NodeRecord}

/-- Composing return maps only interns the result. -/
theorem composeAndReduce_within {W : Manager → Manager → Prop} [IsPreorder Manager W]
    (hintern : ∀ b m, Within W (internMap b) m) (map red : List ℕ) (m : Manager) :
    Within W (composeAndReduce map red) m := by
  unfold composeAndReduce
  refine within_reads_bind ?_
  split
  · exact Within.bind (hintern _ m) fun _ m₁ _ _ => Within.pure _ m₁
  · refine Within.bind (Within.foldlM (fun i _ state t _ => ?_) _) ?_
    · refine within_index_bind fun parentNew _ => ?_
      split
      · exact Within.pure _ t
      · exact Within.throw _ t
    · rintro ⟨slots, inducedRed⟩ m₁ - -
      exact Within.bind (hintern _ m₁) fun _ m₂ _ _ => Within.pure _ m₂

/-- The reduction of a node has the footprint of the reductions of its children. -/
theorem reduceInner_within {f : NodeId → List ℕ → ℕ → ManagerM NodeId}
    (hr : m₀.record? n = some r)
    (hf : ∀ c ∈ m₀.children n, ∀ red newNumExits, ∀ m : Manager,
      m₀.nodes.records <+: m.nodes.records → Within (Footprint P R C) (f c red newNumExits) m)
    (hle : m₀.nodes.records <+: m.nodes.records) (red : List ℕ) (newNumExits : ℕ) :
    Within (Footprint P R C) (reduceInner f n red newNumExits) m := by
  unfold reduceInner
  refine Within.bind (observe_within _ m) fun _ m₁ _ hW₁ => ?_
  have hle₁ := hle.trans hW₁.records
  refine within_record_bind fun r' hr' => ?_
  obtain rfl := Option.some.inj (hr'.symm.trans (record?_of_records hle₁ hr))
  cases r' with
  | dontCare => exact within_assert_bind fun _ => Within.pure _ m₁
  | fork =>
    refine within_assert_bind fun _ => within_index_bind fun _ _ => within_index_bind fun _ _ => ?_
    split
    · exact Within.pure _ m₁
    · exact Within.pure _ m₁
  | internal level numExits aConn bConns =>
    rw [Manager.children_of_record hr] at hf
    refine Within.bind (Within.foldlM ?_ _) ?_
    · intro b hb state t hW
      refine within_body_bind fun childMap => ?_
      refine Within.bind (composeAndReduce_within internMap_within _ _ t) ?_
      rintro ⟨inducedRed, inducedId, inducedNumExits⟩ t₁ - hW₁
      have ht₁ := (hle₁.trans hW.records).trans hW₁.records
      refine Within.bind (hf _ (.tail _ (List.mem_map_of_mem hb)) _ _ t₁ ht₁) ?_
      exact fun _ t₂ _ _ => Within.pure _ t₂
    · rintro ⟨newBConns, aRed⟩ m₂ - hW₂
      refine within_body_bind fun aChildMap => ?_
      refine Within.bind (composeAndReduce_within internMap_within _ _ m₂) ?_
      rintro ⟨inducedARed, newAReturnMapId, newANumExits⟩ m₃ - hW₃
      refine Within.bind (hf _ (.head _) _ _ m₃
        ((hle₁.trans hW₂.records).trans hW₃.records)) fun _ m₄ _ _ => ?_
      exact within_assert_bind fun _ => internInternal_within _ _ _ _ m₄

/-- **The footprint of `reduce`:** reductions of nodes below the operand. -/
theorem reduce_within (hm₀ : m₀.Inv) {fuel : ℕ} (hr : m₀.record? n = some r)
    (hle : m₀.nodes.records <+: m.nodes.records) (red : List ℕ) (newNumExits : ℕ) :
    Within (Footprint ∅ (reductionsBelow m₀ n) ∅) (reduce fuel n red newNumExits) m := by
  induction fuel generalizing n r m red newNumExits with
  | zero => exact Within.throw _ m
  | succ fuel ih =>
    unfold reduce
    refine Within.bind (observe_within _ m) fun _ m₁ _ hW₁ => within_reads_bind ?_
    split
    · exact within_record_bind fun _ _ => noDistinction_within _ m₁
    split
    · exact Within.pure _ m₁
    refine Within.bind (internMap_within _ m₁) fun redId m₂ _ hW₂ => ?_
    have hle₂ := (hle.trans hW₁.records).trans hW₂.records
    refine Within.memoized
      (W := Footprint ∅ {key | ∃ c ∈ m₀.children n, key ∈ reductionsBelow m₀ c} ∅) ?_ ?_ ?_
    · refine reduceInner_within hr ?_ hle₂ red newNumExits
      intro c hc red' newNumExits' t ht
      obtain ⟨r', hr'⟩ := (hm₀.child hc).1
      exact (ih hr' ht red' newNumExits').mono fun _ =>
        .mono le_rfl (fun _ hkey => ⟨c, hc, hkey⟩) le_rfl
    · intro t
      refine .mono le_rfl ?_ le_rfl
      rintro key ⟨c, hc, hkey⟩
      exact reductionsBelow_subset hc hkey
    · intro result t hmiss hW
      refine ⟨List.prefix_rfl, rfl, .refl _, Table.Adds.insert .refl ?_ _, .refl _⟩
      refine hW.reductions.not_mem ?_ ((Table.get?_eq_none_iff _ _).mp hmiss)
      rintro key ⟨c, hc, hkey⟩ rfl
      exact hm₀.not_reach_child hc hkey

end Reduce

section Restrict

variable {m₀ m : Manager} {n : NodeId} {r : NodeRecord}

/-- Translating exits only reads. -/
theorem translateLoop_within {W : Manager → Manager → Prop} [IsPreorder Manager W]
    (map xs ys : List ℕ) (m : Manager) : Within W (xs.foldlM (translateStep map) ys) m :=
  Within.foldlM (fun _ _ _ t _ => within_index_bind fun _ _ => Within.pure _ t) _

/-- The A-case has the footprint of its one recursive call. -/
theorem restrictACase_within {R : Set (NodeId × ReturnMapId)}
    {f : NodeId → ℕ → Bool → List ℕ → ManagerM (NodeId × List ℕ)} {aConn : Connection}
    {varIndex : ℕ} {value : Bool}
    (hf : Within (Footprint ∅ R ∅) (f aConn.target varIndex value []) m) (level : ℕ)
    (bConns : List Connection) (mapHandle : List ℕ) :
    Within (Footprint ∅ R ∅)
      (restrictACase f level aConn bConns varIndex value mapHandle) m := by
  unfold restrictACase
  refine Within.bind hf ?_
  rintro ⟨newATarget, aMap⟩ m₁ - -
  refine within_body_bind fun aConnMap => ?_
  refine Within.bind (translateLoop_within _ _ _ m₁) fun bIndices m₂ _ _ => ?_
  refine Within.bind (Within.foldlM (fun b _ state t _ => ?_) _) ?_
  · refine within_index_bind fun orig _ => within_body_bind fun origRm => ?_
    exact Within.bind (internMap_within _ t) fun _ t₁ _ _ => Within.pure _ t₁
  · rintro ⟨newBConns, handle⟩ m₃ - -
    refine Within.bind (internMap_within _ m₃) fun newAReturnMap m₄ _ _ => ?_
    exact Within.bind (internInternal_within _ _ _ _ m₄) fun _ m₅ _ _ => Within.pure _ m₅

/-- The B-case has the footprints of its recursive calls and of the reduction of the A-target. -/
theorem restrictBCase_within {R : Set (NodeId × ReturnMapId)}
    {f : NodeId → ℕ → Bool → List ℕ → ManagerM (NodeId × List ℕ)} {fuel : ℕ}
    {aConn : Connection} {bConns : List Connection} {adjIndex : ℕ} {value : Bool}
    (hf : ∀ b ∈ bConns, ∀ t : Manager, m₀.nodes.records <+: t.nodes.records →
      Within (Footprint ∅ R ∅) (f b.target adjIndex value []) t)
    (hreduce : ∀ red newNumExits, ∀ t : Manager, m₀.nodes.records <+: t.nodes.records →
      Within (Footprint ∅ R ∅) (reduce fuel aConn.target red newNumExits) t)
    (hle : m₀.nodes.records <+: m.nodes.records) (level : ℕ) (mapHandle : List ℕ) :
    Within (Footprint ∅ R ∅)
      (restrictBCase f fuel level aConn bConns adjIndex value mapHandle) m := by
  unfold restrictBCase
  refine Within.bind (Within.foldlM (fun b hb state t hW => ?_) _) fun state m₁ _ hW₁ => ?_
  · unfold restrictBStep
    refine Within.bind (hf b hb t (hle.trans hW.records)) ?_
    rintro ⟨newTarget, bMap⟩ t₁ - -
    refine within_body_bind fun origRm => ?_
    refine Within.bind (translateLoop_within _ _ _ t₁) fun translated t₂ _ _ => ?_
    exact Within.bind (internMap_within _ t₂) fun _ t₃ _ _ => Within.pure _ t₃
  · refine within_body_bind fun aConnRm => ?_
    refine Within.bind (translateLoop_within _ _ _ m₁) fun composedARm m₂ _ hW₂ => ?_
    refine Within.bind (internMap_within _ m₂) fun inducedARmId m₃ _ hW₃ => ?_
    refine within_body_bind fun inducedARm => ?_
    have hle₃ := ((hle.trans hW₁.records).trans hW₂.records).trans hW₃.records
    refine Within.bind (hreduce _ _ m₃ hle₃) fun reducedATarget m₄ _ _ => ?_
    exact Within.bind (internInternal_within _ _ _ _ m₄) fun _ m₅ _ _ => Within.pure _ m₅

/-- **The footprint of `restrict_node`:** reductions of nodes below the operand. -/
theorem restrictNode_within (hm₀ : m₀.Inv) {fuel : ℕ} (hr : m₀.record? n = some r)
    (hle : m₀.nodes.records <+: m.nodes.records) (varIndex : ℕ) (value : Bool)
    (mapHandle : List ℕ) :
    Within (Footprint ∅ (reductionsBelow m₀ n) ∅)
      (restrictNode fuel n varIndex value mapHandle) m := by
  induction fuel generalizing n r m varIndex mapHandle with
  | zero => exact Within.throw _ m
  | succ fuel ih =>
    unfold restrictNode
    refine within_record_bind fun r' hr' => ?_
    obtain rfl := Option.some.inj (hr'.symm.trans (record?_of_records hle hr))
    cases r' with
    | dontCare => exact Within.pure _ m
    | fork => exact Within.pure _ m
    | internal level numExits aConn bConns =>
      have hchild : ∀ c ∈ aConn.target :: bConns.map (·.target), c ∈ m₀.children n := by
        intro c hc
        rwa [Manager.children_of_record hr]
      have hnode : ∀ c ∈ aConn.target :: bConns.map (·.target), ∀ varIndex,
          ∀ t : Manager, m₀.nodes.records <+: t.nodes.records →
          Within (Footprint ∅ (reductionsBelow m₀ n) ∅) (restrictNode fuel c varIndex value []) t
          := by
        intro c hc varIndex t ht
        obtain ⟨rc, hrc⟩ := (hm₀.child (hchild c hc)).1
        exact (ih hrc ht varIndex []).mono fun _ =>
          .mono le_rfl (reductionsBelow_subset (hchild c hc)) le_rfl
      have hreduce : ∀ red newNumExits, ∀ t : Manager, m₀.nodes.records <+: t.nodes.records →
          Within (Footprint ∅ (reductionsBelow m₀ n) ∅)
            (reduce fuel aConn.target red newNumExits) t := by
        intro red newNumExits t ht
        obtain ⟨ra, hra⟩ := (hm₀.child (hchild _ (.head _))).1
        exact (reduce_within hm₀ hra ht red newNumExits).mono fun _ =>
          .mono le_rfl (reductionsBelow_subset (hchild _ (.head _))) le_rfl
      have hinternal : ∀ t : Manager, m₀.nodes.records <+: t.nodes.records →
          Within (Footprint ∅ (reductionsBelow m₀ n) ∅)
            (if varIndex < 2 ^ (level - 1) then
              restrictACase (restrictNode fuel) level aConn bConns varIndex value mapHandle
            else restrictBCase (restrictNode fuel) fuel level aConn bConns
              (varIndex - 2 ^ (level - 1)) value mapHandle) t := by
        intro t ht
        split
        · exact restrictACase_within (hnode _ (.head _) _ t ht) _ _ _
        · exact restrictBCase_within (fun b hb => hnode _ (.tail _ (List.mem_map_of_mem hb)) _)
            hreduce ht _ _
      dsimp only
      refine within_reads_bind ?_
      split
      · refine Within.bind (noDistinction_within level m) fun nd m₁ _ hW => ?_
        split
        · exact Within.pure _ m₁
        · exact hinternal m₁ (hle.trans hW.records)
      · exact hinternal m hle

end Restrict

section Paths

variable {P : Set (NodeId × NodeId)} {R : Set (NodeId × ReturnMapId)} {C : Set NodeId}
  {m₀ m : Manager} {n : NodeId} {r : NodeRecord}

/-- The rule for a checked operation, in range or not. -/
theorem within_expect_bind {α β : Type} {W : Manager → Manager → Prop} [IsPreorder Manager W]
    {value : Option α} {panic : Panic} {g : α → ManagerM β} (hg : ∀ a, Within W (g a) m) :
    Within W (expect value panic >>= g) m := by
  cases value with
  | some a => exact hg a
  | none => exact Within.throw panic m

/-- Adding up the paths of a B-connection changes nothing. -/
theorem pathExits_within {W : Manager → Manager → Prop} [IsPreorder Manager W] (aPathsI : ℕ)
    (bPaths : List ℕ) (entries : List (ℕ × ℕ)) (out : List ℕ) (m : Manager) :
    Within W (entries.foldlM (pathExit aPathsI bPaths) out) m := by
  refine Within.foldlM (fun pair _ out t _ => ?_) out
  refine within_index_bind fun bPathsJ _ => within_expect_bind fun term => ?_
  exact within_index_bind fun slot _ => within_expect_bind fun sum => Within.pure _ t

/-- The counts of a node have the effect of the counts of its children. -/
theorem computePathsUncached_within {W : Manager → Manager → Prop} [IsPreorder Manager W]
    (hW : ∀ {m m'}, W m m' → m.nodes.records <+: m'.nodes.records)
    {f : NodeId → ManagerM (List ℕ)} (hr : m₀.record? n = some r)
    (hf : ∀ c ∈ m₀.children n, ∀ m : Manager, m₀.nodes.records <+: m.nodes.records →
      Within W (f c) m)
    (hle : m₀.nodes.records <+: m.nodes.records) : Within W (computePathsUncached f n) m := by
  unfold computePathsUncached
  split_ifs
  · exact Within.pure _ m
  · exact Within.pure _ m
  refine within_record_bind fun r' hr' => ?_
  obtain rfl := Option.some.inj (hr'.symm.trans (record?_of_records hle hr))
  cases r' with
  | dontCare | fork => exact Within.throw _ m
  | internal level numExits aConn bConns =>
    rw [Manager.children_of_record hr] at hf
    refine Within.bind (hf _ (.head _) m hle) fun aPaths m₁ _ hW₁ => ?_
    refine within_body_bind fun aMap => within_assert_bind fun _ => within_assert_bind fun _ => ?_
    refine Within.foldlM (fun entry hentry out t hWt => ?_) _
    have hb : entry.1 ∈ bConns := List.fst_mem_of_mem_zipIdx hentry
    refine Within.bind (hf _ (.tail _ (List.mem_map_of_mem hb)) t
      ((hle.trans (hW hW₁)).trans (hW hWt))) fun bPaths t₁ _ _ => ?_
    refine within_body_bind fun bRm => within_assert_bind fun _ => ?_
    exact within_index_bind fun aPathsI _ => pathExits_within _ _ _ _ t₁

/-- **The footprint of `compute_paths`:** counts of nodes below the operand. -/
theorem computePaths_within (hm₀ : m₀.Inv) {fuel : ℕ} (hr : m₀.record? n = some r)
    (hle : m₀.nodes.records <+: m.nodes.records) :
    Within (Footprint ∅ ∅ (nodesBelow m₀ n)) (computePaths fuel n) m := by
  induction fuel generalizing n r m with
  | zero => exact Within.throw _ m
  | succ fuel ih =>
    unfold computePaths
    refine Within.memoized
      (W := Footprint ∅ ∅ {v | ∃ c ∈ m₀.children n, v ∈ nodesBelow m₀ c}) ?_ ?_ ?_
    · refine computePathsUncached_within Footprint.records hr ?_ hle
      intro c hc t ht
      obtain ⟨r', hr'⟩ := (hm₀.child hc).1
      exact (ih hr' ht).mono fun _ => .mono le_rfl le_rfl fun _ hv => ⟨c, hc, hv⟩
    · intro t
      refine .mono le_rfl le_rfl ?_
      rintro v ⟨c, hc, hv⟩
      exact nodesBelow_subset hc hv
    · intro result t hmiss hW
      refine ⟨List.prefix_rfl, rfl, .refl _, .refl _, Table.Adds.insert .refl ?_ _⟩
      refine hW.pathCounts.not_mem ?_ ((Table.get?_eq_none_iff _ _).mp hmiss)
      rintro v ⟨c, hc, hv⟩ rfl
      exact hm₀.not_reach_child hc hv

/-- Adding up the counts of the exits of the root changes nothing. -/
theorem sumLoop_within {W : Manager → Manager → Prop} [IsPreorder Manager W]
    (rootPaths : List ℕ) (entries : List (ℕ × ℕ)) (acc : ℕ) (m : Manager) :
    Within W (entries.foldlM (sumStep rootPaths) acc) m := by
  refine Within.foldlM (fun entry _ acc t _ => ?_) acc
  unfold sumStep
  dsimp only
  split
  · refine within_index_bind fun paths _ => ?_
    rw [← bind_pure (expect _ _)]
    exact within_expect_bind fun sum => Within.pure _ t
  · exact Within.pure _ t

end Paths

end Cflobdd
