import Cflobdd.Footprint
import Cflobdd.ProductSize

/-!
# How much the memo tables hold

Over the whole life of a manager, each product, each reduction and each vector of path counts
is memoized once: no entry of a memo table is ever overwritten. A call of `apply` memoizes
products of nodes of one level below its operands, and `path_count` memoizes the counts of
exactly the nodes below the root whose counts are missing.
-/

namespace Cflobdd

open FirstVisit Growing Traversal

section Calls

variable {m : Manager} {L : ℕ} {f g : Bdd} {F G : Asg L → Bool}

/-- **The footprint of `apply`:** products below the two roots, and reductions. -/
theorem apply_within (hm : m.Inv) (hL : m.level = L) (hf : Denotes m L f F) (hg : Denotes m L g G)
    (op : BoolOp) :
    Within (Footprint (productsBelow m (f.root, g.root)) Set.univ ∅) (apply f g op) m := by
  obtain ⟨r1, hr1, -⟩ := hf.root.record
  obtain ⟨r2, hr2, -⟩ := hg.root.record
  have hdepth : L < m.depth := Manager.lt_depth hL.ge
  unfold apply
  refine within_reads_bind ?_
  refine Within.bind ((pairProduct_within hm hr1 hr2 List.prefix_rfl).mono fun _ =>
    .mono le_rfl (Set.empty_subset _) le_rfl) ?_
  rintro ⟨combined, pairMap⟩ m₁ hok -
  obtain ⟨-, hm₁, hcombined, -⟩ :=
    (pairProduct_returns hdepth hm hf.root hg.root).of_ok hok
  obtain ⟨r, hr, -⟩ := hcombined.record
  refine within_body_bind fun fVals => within_body_bind fun gVals => ?_
  refine Within.bind (Within.foldlM (fun pair _ state t _ => ?_) _) ?_
  · refine within_index_bind fun v1 _ => within_index_bind fun v2 _ => ?_
    refine within_assert_bind fun _ => ?_
    refine within_index_bind fun row _ => within_index_bind fun val _ => ?_
    split
    · exact Within.pure _ t
    · exact Within.throw _ t
  · rintro ⟨newVals, reduction⟩ m₂ - hW₂
    refine Within.bind (internMap_within _ m₂) fun newValuesId m₃ _ hW₃ => ?_
    refine Within.bind ((reduce_within hm₁ hr (hW₂.records.trans hW₃.records) _ _).mono fun _ =>
      .mono (Set.empty_subset _) (Set.subset_univ _) le_rfl) fun reduced m₄ _ _ => ?_
    exact Within.pure _ m₄

/-- The footprint of a call that returns a diagram: it counts no paths. -/
abbrev CallFootprint : Manager → Manager → Prop := Footprint Set.univ Set.univ ∅

/-- The footprint of a named operation. -/
theorem Connective.within (c : Connective) (hm : m.Inv) (hL : m.level = L) (hf : Denotes m L f F)
    (hg : Denotes m L g G) : Within CallFootprint (c.exec f g) m := by
  rw [c.exec_eq]
  exact (apply_within hm hL hf hg c.op).mono fun _ => .mono (Set.subset_univ _) le_rfl le_rfl

/-- The footprint of `restrict`: reductions only. -/
theorem restrict_within (hm : m.Inv) (hL : m.level = L) (hf : Denotes m L f F) (i : ℕ) (v : Bool) :
    Within CallFootprint (restrict f i v) m := by
  obtain ⟨r, hr, -⟩ := hf.root.record
  unfold restrict
  refine within_reads_bind (within_assert_bind fun hi => within_reads_bind ?_)
  rw [decide_eq_true_eq, Manager.totalVars, hL] at hi
  refine Within.bind ((restrictNode_within hm hr List.prefix_rfl i v []).mono fun _ =>
    .mono (Set.empty_subset _) (Set.subset_univ _) le_rfl) ?_
  rintro ⟨newRoot, mapHandle⟩ m₁ hok -
  obtain ⟨-, hm₁, hnode, -⟩ :=
    (restrictNode_returns (Manager.lt_depth hL.ge) i v hm hf.root).of_ok hok
  obtain ⟨r', hr', -⟩ := hnode.record
  refine within_body_bind fun fValues => ?_
  refine Within.bind (translateLoop_within _ _ _ m₁) fun composed m₂ _ hW₂ => ?_
  refine Within.bind (internMap_within _ m₂) fun newValuesId m₃ _ hW₃ => ?_
  refine Within.bind ((reduce_within hm₁ hr' (hW₂.records.trans hW₃.records) _ _).mono fun _ =>
    .mono (Set.empty_subset _) (Set.subset_univ _) le_rfl) fun reducedRoot m₄ _ _ => ?_
  exact Within.pure _ m₄

/-- A restriction that has returned has left a manager in good order. -/
theorem restrict_of_ok (hm : m.Inv) (hL : m.level = L) (hf : Denotes m L f F) {i : ℕ} {v : Bool}
    {h : Bdd} {m' : Manager} (hok : restrict f i v m = .ok h m') :
    m ≤ m' ∧ m'.Inv ∧ m'.level = L ∧ Denotes m' L h fun a => F (a.set i v) := by
  by_cases hi : i < 2 ^ L
  · obtain ⟨hle, hm', hh⟩ := (restrict_returns hm hL hf hi v).of_ok hok
    exact ⟨hle, hm', hle.level.trans hL, hh⟩
  · rw [restrict_outOfRange (by rwa [Manager.totalVars, hL])] at hok
    cases hok

/-- The footprint of a quantifier, step by step. -/
theorem quantify_within (c : Connective) (hm : m.Inv) (hL : m.level = L) (hf : Denotes m L f F)
    (i : ℕ) :
    Within CallFootprint (do
      let t ← restrict f i true
      let fa ← restrict f i false
      c.exec t fa) m := by
  refine Within.bind (restrict_within hm hL hf i true) fun t m₁ hok₁ _ => ?_
  obtain ⟨hle₁, hm₁, hL₁, ht⟩ := restrict_of_ok hm hL hf hok₁
  refine Within.bind (restrict_within hm₁ hL₁ (hf.mono hle₁) i false) fun fa m₂ hok₂ _ => ?_
  obtain ⟨hle₂, hm₂, hL₂, hfa⟩ := restrict_of_ok hm₁ hL₁ (hf.mono hle₁) hok₂
  exact c.within hm₂ hL₂ (ht.mono hle₂) hfa

/-- The footprint of `compose`, step by step. -/
theorem compose_within (hm : m.Inv) (hL : m.level = L) (hf : Denotes m L f F)
    (hg : Denotes m L g G) (i : ℕ) : Within CallFootprint (compose f i g) m := by
  unfold compose
  refine Within.bind (restrict_within hm hL hf i true) fun fTrue m₁ hok₁ _ => ?_
  obtain ⟨hle₁, hm₁, hL₁, ht⟩ := restrict_of_ok hm hL hf hok₁
  refine Within.bind (restrict_within hm₁ hL₁ (hf.mono hle₁) i false) fun fFalse m₂ hok₂ _ => ?_
  obtain ⟨hle₂, hm₂, hL₂, hfa⟩ := restrict_of_ok hm₁ hL₁ (hf.mono hle₁) hok₂
  have hg₂ := hg.mono (hle₁.trans hle₂)
  refine Within.bind (not_within internMap_within g m₂) fun notG m₃ hok₃ _ => ?_
  obtain ⟨hle₃, hm₃, hnotG⟩ := (not_returns hm₂ hg₂).of_ok hok₃
  have hL₃ := hle₃.level.trans hL₂
  have ht₃ := ht.mono (hle₂.trans hle₃)
  refine Within.bind (Connective.within .and hm₃ hL₃ (hg₂.mono hle₃) ht₃) fun left m₄ hok₄ _ => ?_
  obtain ⟨hle₄, hm₄, hleft⟩ :=
    (Connective.returns .and hm₃ hL₃ (hg₂.mono hle₃) ht₃).of_ok hok₄
  have hL₄ := hle₄.level.trans hL₃
  have hfa₄ := hfa.mono (hle₃.trans hle₄)
  refine Within.bind (Connective.within .and hm₄ hL₄ (hnotG.mono hle₄) hfa₄) ?_
  intro right m₅ hok₅ _
  obtain ⟨hle₅, hm₅, hright⟩ :=
    (Connective.returns .and hm₄ hL₄ (hnotG.mono hle₄) hfa₄).of_ok hok₅
  exact Connective.within .or hm₅ (hle₅.level.trans hL₄) (hleft.mono hle₅) hright

end Calls

section Caching

variable {m₀ m : Manager} {n : NodeId} {r : NodeRecord} {ids : List NodeId}

/-- The path counts of the nodes `ids` are memoized, and with those of a node those of its
children. The store is that of `m₀` or has grown. -/
structure Caching (m₀ : Manager) (ids : List NodeId) (m : Manager) : Prop where
  records : m₀.nodes.records <+: m.nodes.records
  memo : memoOn m = true
  closed : ∀ v ∈ m.pathCounts.keys id, ∀ c ∈ m₀.children v, c ∈ m.pathCounts.keys id
  cached : ∀ v ∈ ids, v ∈ m.pathCounts.keys id

/-- Fewer nodes may be named. -/
theorem Caching.subset (h : Caching m₀ ids m) {ids' : List NodeId} (hsub : ids' ⊆ ids) :
    Caching m₀ ids' m := ⟨h.records, h.memo, h.closed, fun v hv => h.cached v (hsub hv)⟩

/-- The counts of a node are memoized after those of its children. -/
theorem Caching.record (h : Caching m₀ (m₀.children n ++ ids) m) (paths : List ℕ) :
    Caching m₀ (n :: ids) (recordPaths n paths m) where
  records := h.records
  memo := h.memo
  closed v hv c hc := by
    refine .tail _ ?_
    rcases List.mem_cons.mp hv with rfl | hv
    · exact h.cached c (List.mem_append_left _ hc)
    · exact h.closed v hv c hc
  cached v hv := by
    rcases List.mem_cons.mp hv with rfl | hv
    · exact .head _
    · exact .tail _ (h.cached v (List.mem_append_right _ hv))

/-- The counts of a node are computed from those of its children, which are memoized. -/
theorem computePathsUncached_caches {f : NodeId → ManagerM (List ℕ)}
    (hr : m₀.record? n = some r)
    (hf : ∀ c ∈ m₀.children n, ∀ (ids : List NodeId) (m : Manager), Caching m₀ ids m →
      Ends (f c) m (fun _ m' => Caching m₀ (c :: ids) m') fun _ _ => True)
    (h : Caching m₀ ids m) :
    Ends (computePathsUncached f n) m (fun _ m' => Caching m₀ (m₀.children n ++ ids) m')
      fun _ _ => True := by
  rw [Manager.children_of_record hr] at hf ⊢
  unfold computePathsUncached
  by_cases hdontCare : n = .dontCare
  · subst hdontCare
    obtain rfl := Option.some.inj (hr.symm.trans m₀.record?_dontCare)
    rw [if_pos rfl]
    exact Ends.pure h
  by_cases hfork : n = .fork
  · subst hfork
    obtain rfl := Option.some.inj (hr.symm.trans m₀.record?_fork)
    rw [if_neg hdontCare, if_pos rfl]
    exact Ends.pure h
  rw [if_neg hdontCare, if_neg hfork]
  refine Ends.bind_ok (record_ok (record?_of_records h.records hr)) ?_
  cases r with
  | dontCare | fork => exact Ends.throw trivial
  | internal level numExits aConn bConns =>
    refine Ends.bind (hf _ (.head _) ids m h) ?_
    intro aPaths m₁ h₁
    refine Ends.bind_unchanged (within_body _ m₁) fun aMap => ?_
    refine Ends.bind_unchanged (within_assert _ _ m₁) fun _ => ?_
    refine Ends.bind_unchanged (within_assert _ _ m₁) fun _ => ?_
    -- The loop has memoized the targets of the B-connections that are done.
    refine Ends.mono (Ends.foldlM_forall₂ (R := Eq) (I := fun (done : List (Connection × ℕ)) _ m' =>
        Caching m₀ (done.map (·.1.target) ++ aConn.target :: ids) m')
      (List.forall₂_same.mpr fun _ _ => rfl) h₁ ?_) ?_ fun _ _ h => h
    · rintro done entry rest _ out t hentries rfl ht
      have hb : entry.1 ∈ bConns := List.fst_mem_of_mem_zipIdx (k := 0) (by simp [hentries])
      refine Ends.bind (hf _ (.tail _ (List.mem_map_of_mem hb)) _ t ht) ?_
      intro bPaths t₁ ht₁
      refine Ends.bind_unchanged (within_body _ t₁) fun bRm => ?_
      refine Ends.bind_unchanged (within_assert _ _ t₁) fun _ => ?_
      refine Ends.bind_unchanged (within_index _ _ t₁) fun aPathsI => ?_
      refine Ends.mono (pathExits_within (W := Eq) _ _ _ _ t₁) ?_ fun _ _ _ => trivial
      rintro out' _ rfl
      refine ht₁.subset fun v hv => ?_
      simp only [List.map_append, List.map_singleton, List.mem_append, List.mem_cons] at hv ⊢
      tauto
    · intro out m₂ h₂
      refine h₂.subset fun v hv => ?_
      have htargets : bConns.zipIdx.map (fun entry => entry.1.target) =
          bConns.map (·.target) := by
        conv_rhs => rw [← List.zipIdx_map_fst 0 bConns, List.map_map]
        rfl
      rw [htargets]
      simp only [NodeRecord.children, List.cons_append, List.mem_cons, List.mem_append] at hv ⊢
      tauto

/-- `compute_paths` memoizes the counts of its node. -/
theorem computePaths_caches (hm₀ : m₀.Inv) {fuel : ℕ} (hr : m₀.record? n = some r)
    (h : Caching m₀ ids m) :
    Ends (computePaths fuel n) m (fun _ m' => Caching m₀ (n :: ids) m') fun _ _ => True := by
  induction fuel generalizing n r m ids with
  | zero => exact Ends.throw trivial
  | succ fuel ih =>
    unfold computePaths
    refine Ends.memoized (fun hoff => ?_) ?_ fun _ _ => ?_
    · rw [h.memo] at hoff
      cases hoff
    · intro paths _ hpaths
      refine ⟨h.records, h.memo, h.closed, fun v hv => ?_⟩
      rcases List.mem_cons.mp hv with rfl | hv
      · by_contra hmissing
        rw [lookupPaths, (Table.get?_eq_none_iff _ _).mpr hmissing] at hpaths
        cases hpaths
      · exact h.cached v hv
    · refine Ends.mono (computePathsUncached_caches hr (fun c hc ids' t ht => ?_) h) ?_
        fun _ _ h => h
      · obtain ⟨rc, hrc⟩ := (hm₀.child hc).1
        exact ih hrc ht
      · exact fun paths t ht => ht.record paths

/-- What is memoized includes everything below a memoized node. -/
theorem Caching.mem_of_reach (h : Caching m₀ ids m) {v : NodeId} (hn : n ∈ ids)
    (hv : Reach m₀.children n v) : v ∈ m.pathCounts.keys id := by
  induction hv with
  | refl => exact h.cached n hn
  | tail _ hstep ih => exact h.closed _ ih _ hstep

end Caching

section Sessions

variable {L : ℕ} {s : Session} {m : Manager}

/-- Every product, every reduction and every vector of path counts is memoized once: no memo
table has two entries for one key, where the two orders of a pair of operands are one
key. Path counts are memoized together with those of all nodes below. -/
structure MemoizedOnce (m : Manager) : Prop where
  products : (m.pairProductCache.keys fun p => s(p.1, p.2)).Nodup
  reductions : (m.reduceCache.keys id).Nodup
  counts : (m.pathCounts.keys id).Nodup
  below : ∀ v ∈ m.pathCounts.keys id, ∀ c ∈ m.children v, c ∈ m.pathCounts.keys id

/-- The footprint of every call that returns a diagram, in range or not. -/
theorem Session.Valid.exec_within (hs : s.Valid L) (call : Call Returned)
    (hargs : ∀ x ∈ call.args, x ∈ s.returned) :
    Within CallFootprint (call.map Returned.bdd).exec s.manager := by
  have harg : ∀ x ∈ call.args, Denotes s.manager L x.bdd fun a => x.function a.toList :=
    fun x hx => hs.returned x (hargs x hx)
  cases call with
  | mkTrue | mkFalse =>
    refine within_reads_bind (Within.bind (noDistinction_within _ _) fun root m₁ _ _ => ?_)
    exact within_reads_bind (Within.pure _ m₁)
  | mkProj i =>
    refine within_reads_bind (within_assert_bind fun _ => within_reads_bind ?_)
    refine Within.bind (mkDistinction_within _ _ _) fun root m₁ _ _ => ?_
    exact within_reads_bind (Within.pure _ m₁)
  | apply f g op =>
    exact (apply_within hs.inv hs.level (harg f (.head _)) (harg g (.tail _ (.head _))) op).mono
      fun _ => .mono (Set.subset_univ _) le_rfl le_rfl
  | connective c f g =>
    exact c.within hs.inv hs.level (harg f (.head _)) (harg g (.tail _ (.head _)))
  | not f => exact not_within internMap_within f.bdd s.manager
  | restrict f i v => exact restrict_within hs.inv hs.level (harg f (.head _)) i v
  | compose f i g =>
    exact compose_within hs.inv hs.level (harg f (.head _)) (harg g (.tail _ (.head _))) i
  | existsVar f i => exact quantify_within .or hs.inv hs.level (harg f (.head _)) i
  | forallVar f i => exact quantify_within .and hs.inv hs.level (harg f (.head _)) i

/-- The footprint of `path_count`: counts of nodes below the root. -/
theorem Session.Valid.pathCount_within (hs : s.Valid L) {f : Returned} (hf : f ∈ s.returned) :
    Within (Footprint ∅ ∅ (nodesBelow s.manager f.bdd.root)) (pathCount f.bdd) s.manager := by
  obtain ⟨r, hr, -⟩ := (hs.returned f hf).root.record
  unfold pathCount
  refine within_reads_bind (within_assert_bind fun _ => ?_)
  refine Within.bind (computePaths_within hs.inv hr List.prefix_rfl) fun paths m₁ _ _ => ?_
  refine within_body_bind fun values => within_assert_bind fun _ => ?_
  exact sumLoop_within _ _ _ m₁

/-- Entries of the memo tables that are there stay the only ones. -/
theorem MemoizedOnce.footprint {P : Set (NodeId × NodeId)} {R : Set (NodeId × ReturnMapId)}
    {C : Set NodeId} {m' : Manager} (h : MemoizedOnce m) (hW : Footprint P R C m m')
    (hbelow : ∀ v ∈ m'.pathCounts.keys id, ∀ c ∈ m'.children v, c ∈ m'.pathCounts.keys id) :
    MemoizedOnce m' :=
  ⟨hW.pairProducts.nodup h.products, hW.reductions.nodup h.reductions,
    hW.pathCounts.nodup h.counts, hbelow⟩

/-- The nodes with memoized path counts are stored. -/
theorem Manager.Inv.record_of_mem_pathCounts (hm : m.Inv) {v : NodeId}
    (hv : v ∈ m.pathCounts.keys id) : ∃ r, m.record? v = some r := by
  cases hget : m.pathCounts.get? v with
  | none => exact absurd hv ((Table.get?_eq_none_iff _ _).mp hget)
  | some paths =>
    obtain ⟨k, e, -, he, -⟩ := hm.pathCounts v paths hget
    exact he.record.imp fun _ hr => hr.1

/-- `path_count` memoizes the counts of everything below the root, or else it panics. -/
theorem Session.Valid.pathCount_caches (hs : s.Valid L) (h : MemoizedOnce s.manager)
    {f : Returned} (hf : f ∈ s.returned) :
    Ends (pathCount f.bdd) s.manager (fun _ m' => Caching s.manager [f.bdd.root] m')
      fun _ _ => True := by
  obtain ⟨r, hr, -⟩ := (hs.returned f hf).root.record
  have hstart : Caching s.manager [] s.manager :=
    ⟨List.prefix_rfl, hs.memo, h.below, fun _ hv => absurd hv List.not_mem_nil⟩
  have hread : reads (·.level) s.manager = .ok s.manager.level s.manager := rfl
  unfold pathCount
  refine Ends.bind_ok hread (Ends.bind_unchanged (within_assert _ _ _) fun _ => ?_)
  refine Ends.bind (computePaths_caches hs.inv hr hstart) fun paths m₁ h₁ => ?_
  refine Ends.bind_unchanged (within_body _ m₁) fun values => ?_
  refine Ends.bind_unchanged (within_assert _ _ m₁) fun _ => ?_
  refine Ends.mono (sumLoop_within (W := Eq) _ _ _ m₁) ?_ fun _ _ _ => trivial
  rintro count _ rfl
  exact h₁

/-- Nodes that are stored keep their children. -/
theorem below_of_records {m' : Manager} (hle : m.nodes.records <+: m'.nodes.records)
    (hstored : ∀ v ∈ m'.pathCounts.keys id, ∃ r, m.record? v = some r)
    (hbelow : ∀ v ∈ m'.pathCounts.keys id, ∀ c ∈ m.children v, c ∈ m'.pathCounts.keys id) :
    ∀ v ∈ m'.pathCounts.keys id, ∀ c ∈ m'.children v, c ∈ m'.pathCounts.keys id := by
  intro v hv c hc
  obtain ⟨r, hr⟩ := hstored v hv
  rw [Manager.children_of_record (record?_of_records hle hr)] at hc
  rw [← Manager.children_of_record hr] at hc
  exact hbelow v hv c hc

/-- The entries of the counts after `path_count`: the new ones are for the nodes below the root
that have been missing. -/
theorem Session.Valid.pathCount_new (hs : s.Valid L) (h : MemoizedOnce s.manager) {f : Returned}
    (hf : f ∈ s.returned) {count : ℕ} {m' : Manager}
    (hok : pathCount f.bdd s.manager = .ok count m') :
    MemoizedOnce m' ∧ ∃ new, m'.pathCounts.entries = new ++ s.manager.pathCounts.entries ∧
      (new.map Prod.fst).Perm ((s.manager.reachable f.bdd.root).filter fun v =>
        v ∉ s.manager.pathCounts.keys id) := by
  obtain ⟨r, hr, -⟩ := (hs.returned f hf).root.record
  have hW := (hs.pathCount_within hf).of_ok hok
  have hcaching := (hs.pathCount_caches h hf).of_ok hok
  obtain ⟨new, hnew, hkeys⟩ := hW.pathCounts.entries
  have hstored : ∀ v ∈ m'.pathCounts.keys id, ∃ r, s.manager.record? v = some r := by
    intro v hv
    rw [Table.keys, hnew, List.map_append, List.mem_append] at hv
    rcases hv with hv | hv
    · obtain ⟨e, he, rfl⟩ := List.mem_map.mp hv
      exact Manager.exists_record_of_reach hs.inv hr (hkeys e he)
    · exact hs.inv.record_of_mem_pathCounts hv
  have honce := h.footprint hW (below_of_records hW.records hstored hcaching.closed)
  refine ⟨honce, new, hnew, ?_⟩
  have hnodup := honce.counts
  rw [Table.keys, hnew, List.map_append] at hnodup
  refine (List.perm_ext_iff_of_nodup hnodup.of_append_left
    ((Manager.nodup_reachable hs.inv hr).filter _)).mpr fun v => ?_
  rw [List.mem_filter, decide_eq_true_iff, Manager.mem_reachable hs.inv hr]
  constructor
  · intro hv
    obtain ⟨e, he, rfl⟩ := List.mem_map.mp hv
    exact ⟨hkeys e he, fun hold => List.disjoint_of_nodup_append hnodup hv hold⟩
  · rintro ⟨hreach, hmissing⟩
    have hv := hcaching.mem_of_reach (List.mem_singleton_self _) hreach
    rw [Table.keys, hnew, List.map_append, List.mem_append] at hv
    exact hv.resolve_right hmissing

/-- A command keeps the tables without repeated entries. -/
theorem Session.Valid.step_memoizedOnce (hs : s.Valid L) (h : MemoizedOnce s.manager)
    (command : Command) : MemoizedOnce (s.step command).2.manager := by
  cases command with
  | call call =>
    unfold Session.step
    dsimp only
    cases hresolve : call.resolve s.returned with
    | none => exact h
    | some c =>
      have hW := hs.exec_within c (Call.mem_of_resolve hresolve)
      have hkept : ∀ m', CallFootprint s.manager m' → MemoizedOnce m' := by
        intro m' hW
        have hcounts : m'.pathCounts.keys id = s.manager.pathCounts.keys id := by
          rw [Table.keys, hW.pathCounts.entries_eq, Table.keys]
        refine h.footprint hW (below_of_records hW.records ?_ ?_)
        · rw [hcounts]
          exact fun v => hs.inv.record_of_mem_pathCounts
        · rw [hcounts]
          exact h.below
      dsimp only
      cases hresult : (c.map Returned.bdd).exec s.manager with
      | ok f m' => exact hkept m' (hW.of_ok hresult)
      | error e m' => exact hkept m' (hW.of_error hresult)
  | pathCount f =>
    unfold Session.step
    dsimp only
    cases hf : s.returned[f]? with
    | none => exact h
    | some f =>
      dsimp only
      cases hresult : pathCount f.bdd s.manager with
      | ok count m' => exact (hs.pathCount_new h (List.mem_of_getElem? hf) hresult).1
      | error e m' =>
        -- Only the level is refused, before anything is done.
        by_cases hL : L ≤ 6
        · obtain ⟨count, m₁, hok, -⟩ := hs.pathCount_returns (List.mem_of_getElem? hf) hL
          rw [hresult] at hok
          cases hok
        · rw [pathCount_of_level (by rwa [hs.level])] at hresult
          cases hresult
          exact h
  | evaluate f a =>
    unfold Session.step
    dsimp only
    cases s.returned[f]? with
    | none => exact h
    | some f =>
      dsimp only
      cases s.manager.evaluate f.bdd a <;> exact h
  | eq f g =>
    unfold Session.step
    dsimp only
    cases s.returned[f]? <;> cases s.returned[g]? <;> exact h

/-- Every script keeps that no entry of a memo table is overwritten. -/
theorem AfterScript.memoizedOnce (hs : AfterScript L s) : MemoizedOnce s.manager := by
  refine hs.induction (I := fun s => MemoizedOnce s.manager) ?_ ?_
  · intro m hnew
    obtain ⟨-, rfl⟩ := Manager.new_eq hnew
    exact ⟨List.nodup_nil, List.nodup_nil, List.nodup_nil, fun v hv => absurd hv List.not_mem_nil⟩
  · intro s command hvalid h
    exact hvalid.step_memoizedOnce h command

/-- **Nothing is memoized twice:** in every session, calls that panicked included, no memo
table has been given a second entry for a product, in either order of its operands, for a
reduction or for a vector of path counts, and path counts are memoized with those below. -/
theorem memoized_once (hs : AfterScript L s) : MemoizedOnce s.manager := hs.memoizedOnce

theorem memoized_once_sample : MemoizedOnce sampleSession.manager :=
  memoized_once sampleSession_reachable.afterScript

/-- The products below two nodes of one level are of nodes of one level. -/
theorem mem_reachablePairs_of_productsBelow (hm : m.Inv) {n1 n2 : NodeId} {r1 r2 : NodeRecord}
    (h1 : m.record? n1 = some r1) (h2 : m.record? n2 = some r2)
    (hlevel : m.levelOf n1 = m.levelOf n2) {q : NodeId × NodeId}
    (hq : q ∈ productsBelow m (n1, n2)) : q ∈ m.reachablePairs n1 n2 := by
  rw [Manager.reachablePairs, List.mem_filter, List.pair_mem_product,
    Manager.mem_reachable hm h1, Manager.mem_reachable hm h2, decide_eq_true_iff]
  refine ⟨reach_of_pairChildren hq, ?_⟩
  induction hq with
  | refl => exact hlevel
  | tail hsteps hstep ih =>
    obtain ⟨hreach₁, hreach₂⟩ := reach_of_pairChildren hsteps
    obtain ⟨hc₁, hc₂⟩ := List.pair_mem_product.mp hstep
    obtain ⟨s₁, hs₁⟩ := Manager.exists_record_of_reach hm h1 hreach₁
    obtain ⟨s₂, hs₂⟩ := Manager.exists_record_of_reach hm h2 hreach₂
    obtain ⟨-, e₁, he₁, -⟩ := hm.exists_represents hs₁
    obtain ⟨-, e₂, he₂, -⟩ := hm.exists_represents hs₂
    have h₁ := he₁.levelOf_child hc₁
    have h₂ := he₂.levelOf_child hc₂
    omega

/-- **What `apply` memoizes:** in every session, calls that panicked included, and whether the
call returns or panics, the products that it adds to the memo table are of nodes of one level
below the two roots, and there are no more of them than unordered pairs of such nodes. -/
theorem apply_work (hs : AfterScript L s) {f g : Returned} (hf : f ∈ s.returned)
    (hg : g ∈ s.returned) (op : BoolOp) {m' : Manager}
    (hm' : (∃ h, apply f.bdd g.bdd op s.manager = .ok h m') ∨
      ∃ e, apply f.bdd g.bdd op s.manager = .error e m') :
    ∃ new, m'.pairProductCache.entries = new ++ s.manager.pairProductCache.entries ∧
      (∀ e ∈ new, e.1 ∈ s.manager.reachablePairs f.bdd.root g.bdd.root) ∧
      new.length ≤ ((s.manager.reachablePairs f.bdd.root g.bdd.root).map fun p =>
        s(p.1, p.2)).dedup.length := by
  have hv := hs.valid
  have hF := (hv.returned f hf).root
  have hG := (hv.returned g hg).root
  obtain ⟨r1, hr1, -⟩ := hF.record
  obtain ⟨r2, hr2, -⟩ := hG.record
  have hlevel : s.manager.levelOf f.bdd.root = s.manager.levelOf g.bdd.root := by
    rw [hF.levelOf_eq, hG.levelOf_eq]
  have hbelow : ∀ q ∈ productsBelow s.manager (f.bdd.root, g.bdd.root),
      q ∈ s.manager.reachablePairs f.bdd.root g.bdd.root :=
    fun q => mem_reachablePairs_of_productsBelow hv.inv hr1 hr2 hlevel
  have hwithin := apply_within hv.inv hv.level (hv.returned f hf) (hv.returned g hg) op
  have hW : Footprint (productsBelow s.manager (f.bdd.root, g.bdd.root)) Set.univ ∅ s.manager
      m' := by
    rcases hm' with ⟨h, hok⟩ | ⟨e, herror⟩
    · exact hwithin.of_ok hok
    · exact hwithin.of_error herror
  obtain ⟨new, hnew, hkeys, hlength⟩ := hW.pairProducts.exists_new hs.memoizedOnce.products
    ((s.manager.reachablePairs f.bdd.root g.bdd.root).map fun p => s(p.1, p.2)).dedup
    fun q hq => List.mem_dedup.mpr (List.mem_map_of_mem (hbelow q hq))
  exact ⟨new, hnew, fun e he => hbelow _ (hkeys e he), hlength⟩

theorem apply_work_sample :
    ∃ h m', apply ⟨⟨2⟩, ⟨2⟩⟩ ⟨⟨2⟩, ⟨3⟩⟩ .xor sampleLiterals.manager = .ok h m' ∧
    ∃ new, m'.pairProductCache.entries = new ++ sampleLiterals.manager.pairProductCache.entries ∧
      (∀ e ∈ new, e.1 ∈ sampleLiterals.manager.reachablePairs ⟨2⟩ ⟨2⟩) ∧
      new.length ≤ ((sampleLiterals.manager.reachablePairs ⟨2⟩ ⟨2⟩).map fun p =>
        s(p.1, p.2)).dedup.length := by
  obtain ⟨h, m', hok, -⟩ := sampleLiterals_reachable.1.valid.exec_returns
    (.apply sampleVar sampleNot .xor) (fun x hx => by
      rw [sampleLiterals_reachable.2]
      exact hx) (show BoolOp.xor.IsBool by decide)
  exact ⟨h, m', hok, apply_work sampleLiterals_reachable.1.afterScript sampleVar_mem sampleNot_mem
    .xor (.inl ⟨h, hok⟩)⟩

/-- **What `path_count` memoizes:** in every session, calls that panicked included, a call
adds an entry for exactly the nodes below the root whose counts have been missing, one for
each of them. -/
theorem path_count_work (hs : AfterScript L s) (hL : L ≤ 6) {f : Returned}
    (hf : f ∈ s.returned) :
    ∃ count m', pathCount f.bdd s.manager = .ok count m' ∧
      ∃ new, m'.pathCounts.entries = new ++ s.manager.pathCounts.entries ∧
        (new.map Prod.fst).Perm ((s.manager.reachable f.bdd.root).filter fun v =>
          v ∉ s.manager.pathCounts.keys id) := by
  obtain ⟨count, m', hok, -⟩ := hs.valid.pathCount_returns hf hL
  exact ⟨count, m', hok, (hs.valid.pathCount_new hs.memoizedOnce hf hok).2⟩

theorem path_count_work_sample :
    ∃ count m', pathCount ⟨⟨2⟩, ⟨2⟩⟩ sampleLiterals.manager = .ok count m' ∧
      ∃ new, m'.pathCounts.entries = new ++ sampleLiterals.manager.pathCounts.entries ∧
        (new.map Prod.fst).Perm ((sampleLiterals.manager.reachable ⟨2⟩).filter fun v =>
          v ∉ sampleLiterals.manager.pathCounts.keys id) :=
  path_count_work sampleLiterals_reachable.1.afterScript (by decide) sampleVar_mem

end Sessions

end Cflobdd
