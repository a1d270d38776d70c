import Cflobdd.Partitions
import Cflobdd.Shapes
import Mathlib.Data.List.ProdSigma

/-!
# The size of a product

The nodes reachable from the product of two nodes are products themselves: each is the
product of two nodes of one level that are reachable from the operands. So the product has at
most one node for each pair of nodes of one level.
-/

namespace Cflobdd

open FirstVisit Growing Traversal

/-- A list without repetitions is not longer than one that has a partner of each element and
in which no two elements share a partner. -/
theorem length_le_of_partners {α β : Type*} {R : α → β → Prop} {xs : List α} {ys : List β}
    (hxs : xs.Nodup) (hpartner : ∀ x ∈ xs, ∃ y ∈ ys, R x y)
    (hR : ∀ x x' y, R x y → R x' y → x = x') : xs.length ≤ ys.length := by
  classical
  obtain ⟨zs, hzs, hR'⟩ : ∃ zs : List β, zs ⊆ ys ∧ List.Forall₂ R xs zs := by
    clear hxs
    induction xs with
    | nil => exact ⟨[], List.nil_subset _, .nil⟩
    | cons x xs ih =>
      obtain ⟨y, hy, hxy⟩ := hpartner x (.head _)
      obtain ⟨zs, hzs, hR'⟩ := ih fun x' hx' => hpartner x' (.tail _ hx')
      exact ⟨y :: zs, List.cons_subset.mpr ⟨hy, hzs⟩, .cons hxy hR'⟩
  have hnodup : zs.Nodup := by
    clear hpartner hzs
    induction hR' with
    | nil => exact List.nodup_nil
    | cons hxy hrest ih =>
      rw [List.nodup_cons] at hxs ⊢
      refine ⟨fun hmem => hxs.1 ?_, ih hxs.2⟩
      obtain ⟨x', hx', hx'y⟩ := exists_partner hrest.flip hmem
      rwa [hR _ _ _ hxy hx'y]
  rw [hR'.length_eq]
  exact (hnodup.subperm hzs).length_le

section Children

variable {m : Manager} {k : ℕ} {α : Type} [DecidableEq α] {n c : NodeId} {g : Asg (k + 1) → α}

/-- The A-target tells the rows apart. -/
theorem Represents.exists_aTarget (h : Represents m (k + 1) g n) :
    ∃ c ∈ m.children n, Represents m k (row g) c := by
  obtain ⟨aConn, bConns, hrecord, hparts⟩ := h.parts
  rw [Manager.children_of_record hrecord]
  exact ⟨_, .head _, hparts.aTarget⟩

/-- Each row has its B-target. -/
theorem Represents.exists_bTarget (h : Represents m (k + 1) g n) (x : Asg k) :
    ∃ c ∈ m.children n, Represents m k (row g x) c := by
  obtain ⟨aConn, bConns, hrecord, hparts⟩ := h.parts
  obtain ⟨b, hb, hrow, -⟩ := Represents.bConn_of_row hparts.bConns x
  rw [Manager.children_of_record hrecord]
  exact ⟨_, .tail _ (List.mem_map_of_mem (List.mem_of_getElem? hb)), hrow⟩

/-- A node has the level of its function. -/
theorem Represents.levelOf_eq {k : ℕ} {g : Asg k → α} (h : Represents m k g n) :
    m.levelOf n = k := by
  obtain ⟨r, hr, hlevel, -⟩ := h.record
  rw [Manager.levelOf_of_record hr, hlevel]

/-- There are no other children. -/
theorem Represents.child_cases (h : Represents m (k + 1) g n) (hc : c ∈ m.children n) :
    Represents m k (row g) c ∨ ∃ x, Represents m k (row g x) c := by
  obtain ⟨aConn, bConns, hrecord, hparts⟩ := h.parts
  rw [Manager.children_of_record hrecord] at hc
  rcases List.mem_cons.mp hc with rfl | hc
  · exact .inl hparts.aTarget
  · obtain ⟨b, hb, rfl⟩ := List.mem_map.mp hc
    obtain ⟨r, hr, hrow, -⟩ := exists_partner hparts.bConns.flip hb
    obtain ⟨x, rfl⟩ := mem_visited.mp hr
    exact .inr ⟨x, hrow⟩

/-- A child is one level lower. -/
theorem Represents.levelOf_child {k : ℕ} {g : Asg k → α} (h : Represents m k g n)
    (hc : c ∈ m.children n) : m.levelOf c + 1 = m.levelOf n := by
  rw [h.levelOf_eq]
  cases k with
  | zero =>
    rw [h.children_zero] at hc
    cases hc
  | succ k =>
    rcases h.child_cases hc with ha | ⟨x, hb⟩
    · rw [ha.levelOf_eq]
    · rw [hb.levelOf_eq]

end Children

section Product

/-- The node `n` is the product of the nodes `n1` and `n2`, which are of its level. -/
def ProductOf (m : Manager) (n n1 n2 : NodeId) : Prop :=
  ∃ (k : ℕ) (e₁ e₂ : Asg k → ℕ), Represents m k e₁ n1 ∧ Represents m k e₂ n2 ∧
    Represents m k (fun a => (e₁ a, e₂ a)) n

variable {m : Manager} {n n' n1 n2 c : NodeId}

/-- Two nodes have one product. -/
theorem ProductOf.unique (h : ProductOf m n n1 n2) (h' : ProductOf m n' n1 n2) : n = n' := by
  obtain ⟨k, e₁, e₂, h₁, h₂, hn⟩ := h
  obtain ⟨k', e₁', e₂', h₁', h₂', hn'⟩ := h'
  obtain rfl : k = k' := h₁.level_unique h₁'
  refine (hn.congr fun a b => ?_).unique hn'
  rw [Prod.mk.injEq, Prod.mk.injEq, h₁.eq_iff h₁', h₂.eq_iff h₂']

/-- The product is of the level of its operands. -/
theorem ProductOf.levelOf_eq (h : ProductOf m n n1 n2) :
    m.levelOf n = m.levelOf n1 ∧ m.levelOf n1 = m.levelOf n2 := by
  obtain ⟨k, e₁, e₂, h₁, h₂, hn⟩ := h
  rw [h₁.levelOf_eq, h₂.levelOf_eq, hn.levelOf_eq]
  exact ⟨rfl, rfl⟩

/-- The children of a product are products of children. -/
theorem ProductOf.child (h : ProductOf m n n1 n2) (hc : c ∈ m.children n) :
    ∃ c1 ∈ m.children n1, ∃ c2 ∈ m.children n2, ProductOf m c c1 c2 := by
  obtain ⟨k, e₁, e₂, h₁, h₂, hn⟩ := h
  cases k with
  | zero =>
    rw [hn.children_zero] at hc
    cases hc
  | succ k =>
    rcases hn.child_cases hc with ha | ⟨x, hb⟩
    · obtain ⟨c1, hc1, ha₁⟩ := h₁.exists_aTarget
      obtain ⟨c2, hc2, ha₂⟩ := h₂.exists_aTarget
      refine ⟨c1, hc1, c2, hc2, k, _, _, ha₁.numbered, ha₂.numbered, ha.congr fun x x' => ?_⟩
      rw [row_pair_eq_iff, Prod.mk.injEq, number_eq_iff, number_eq_iff]
    · obtain ⟨c1, hc1, hb₁⟩ := h₁.exists_bTarget x
      obtain ⟨c2, hc2, hb₂⟩ := h₂.exists_bTarget x
      exact ⟨c1, hc1, c2, hc2, k, _, _, hb₁, hb₂, hb⟩

/-- What is reached from a product is a product of what is reached from the operands. -/
theorem ProductOf.reach (h : ProductOf m n n1 n2) {v : NodeId} (hv : Reach m.children n v) :
    ∃ v1 v2, Reach m.children n1 v1 ∧ Reach m.children n2 v2 ∧ ProductOf m v v1 v2 := by
  induction hv with
  | refl => exact ⟨n1, n2, .refl, .refl, h⟩
  | tail _ hstep ih =>
    obtain ⟨v1, v2, hv1, hv2, hproduct⟩ := ih
    obtain ⟨c1, hc1, c2, hc2, hc⟩ := hproduct.child hstep
    exact ⟨c1, c2, hv1.tail hc1, hv2.tail hc2, hc⟩

/-- The pairs of nodes of one level that are reached from two nodes. -/
def Manager.reachablePairs (m : Manager) (n1 n2 : NodeId) : List (NodeId × NodeId) :=
  ((m.reachable n1).product (m.reachable n2)).filter fun p => m.levelOf p.1 = m.levelOf p.2

/-- A product has a node for each pair at most. -/
theorem ProductOf.length_reachable_le (h : ProductOf m n n1 n2) (hm : m.Inv) :
    (m.reachable n).length ≤ (m.reachablePairs n1 n2).length := by
  have hrecords : (∃ r, m.record? n = some r) ∧ (∃ r, m.record? n1 = some r) ∧
      ∃ r, m.record? n2 = some r := by
    obtain ⟨k, e₁, e₂, h₁, h₂, hn⟩ := h
    exact ⟨hn.record.imp fun _ hr => hr.1, h₁.record.imp fun _ hr => hr.1,
      h₂.record.imp fun _ hr => hr.1⟩
  obtain ⟨⟨r, hr⟩, ⟨r1, hr1⟩, r2, hr2⟩ := hrecords
  refine length_le_of_partners (R := fun v (p : NodeId × NodeId) => ProductOf m v p.1 p.2)
    (Manager.nodup_reachable hm hr) ?_ fun v v' p hv hv' => hv.unique hv'
  intro v hv
  obtain ⟨v1, v2, hv1, hv2, hproduct⟩ := h.reach ((Manager.mem_reachable hm hr).mp hv)
  refine ⟨(v1, v2), ?_, hproduct⟩
  rw [Manager.reachablePairs, List.mem_filter, List.pair_mem_product,
    Manager.mem_reachable hm hr1, Manager.mem_reachable hm hr2]
  exact ⟨⟨hv1, hv2⟩, decide_eq_true hproduct.levelOf_eq.2⟩

end Product

section Sessions

variable {L : ℕ} {s : Session}

/-- Growth changes nothing below a stored node. -/
theorem Manager.Inv.reachable_eq {m m' : Manager} (hm : m.Inv) (hm' : m'.Inv) (hle : m ≤ m')
    {n : NodeId} {r : NodeRecord} (hr : m.record? n = some r) :
    (m'.reachable n).Perm (m.reachable n) ∧ ∀ v ∈ m.reachable n, m'.levelOf v = m.levelOf v := by
  have hchildren : ∀ v, Reach m.children n v → m'.children v = m.children v := by
    intro v hv
    obtain ⟨r', hr'⟩ := exists_record_of_reach hm hr hv
    rw [children_of_record hr', children_of_record (record?_mono hle hr')]
  refine ⟨?_, fun v hv => ?_⟩
  · refine (List.perm_ext_iff_of_nodup (nodup_reachable hm' (record?_mono hle hr))
      (nodup_reachable hm hr)).mpr fun v => ?_
    rw [mem_reachable hm' (record?_mono hle hr), mem_reachable hm hr]
    constructor
    · intro hv
      induction hv with
      | refl => exact .refl
      | tail _ hstep ih =>
        rw [hchildren _ ih] at hstep
        exact ih.tail hstep
    · intro hv
      induction hv with
      | refl => exact .refl
      | tail hsteps hstep ih =>
        rw [← hchildren _ hsteps] at hstep
        exact ih.tail hstep
  · obtain ⟨r', hr'⟩ := exists_record_of_reach hm hr ((mem_reachable hm hr).mp hv)
    rw [levelOf_of_record hr', levelOf_of_record (record?_mono hle hr')]

/-- Growth adds no pairs of nodes below two stored nodes. -/
theorem Manager.Inv.length_reachablePairs {m m' : Manager} (hm : m.Inv) (hm' : m'.Inv)
    (hle : m ≤ m') {n1 n2 : NodeId} {r1 r2 : NodeRecord} (h1 : m.record? n1 = some r1)
    (h2 : m.record? n2 = some r2) :
    (m'.reachablePairs n1 n2).length = (m.reachablePairs n1 n2).length := by
  obtain ⟨hperm1, hlevel1⟩ := hm.reachable_eq hm' hle h1
  obtain ⟨hperm2, hlevel2⟩ := hm.reachable_eq hm' hle h2
  rw [reachablePairs, reachablePairs, ((hperm1.product hperm2).filter _).length_eq]
  congr 1
  refine List.filter_congr fun ⟨v1, v2⟩ hv => ?_
  rw [List.pair_mem_product] at hv
  rw [hlevel1 v1 hv.1, hlevel2 v2 hv.2]

/-- **A product is no larger than the pairs of its operands' nodes:** in every session, calls
that panicked included, each node below the product of two nodes is the product of two nodes
of one level below the operands, and no two are the product of the same pair. -/
theorem product_size (hs : AfterScript L s) {n1 n2 : NodeId} {r1 r2 : NodeRecord}
    (h1 : s.manager.record? n1 = some r1) (h2 : s.manager.record? n2 = some r2)
    (hlevel : r1.level = r2.level) :
    ∃ n m', productNode s.manager.depth n1 n2 s.manager = .ok n m' ∧
      (∀ v, Reach m'.children n v → ∃ v1 v2, Reach m'.children n1 v1 ∧ Reach m'.children n2 v2 ∧
        m'.levelOf v1 = m'.levelOf v2 ∧ Gives (productNode m'.depth v1 v2) m' v) ∧
      (m'.reachable n).length ≤ (s.manager.reachablePairs n1 n2).length := by
  have hm := hs.valid.inv
  obtain ⟨-, e₁, he₁, -⟩ := hm.exists_represents h1
  obtain ⟨e₂, he₂⟩ := hm.exists_represents_at h2 hlevel.symm
  have hproduct : Returns (productNode s.manager.depth n1 n2) s.manager fun n m' =>
      ProductOf m' n n1 n2 := by
    unfold productNode
    refine Runs.bind (pairProduct_returns (he₁.lt_depth hm) hm he₁ he₂) ?_
    intro result m' hle hm' hresult
    exact Runs.pure hm' ⟨_, e₁, e₂, he₁.mono hle, he₂.mono hle, hresult.node⟩
  obtain ⟨n, m', hok, hle, hm', hn, -⟩ := hproduct
  refine ⟨n, m', hok, ?_, ?_⟩
  · intro v hv
    obtain ⟨v1, v2, hv1, hv2, hpair⟩ := hn.reach hv
    refine ⟨v1, v2, hv1, hv2, hpair.levelOf_eq.2, ?_⟩
    obtain ⟨k, g₁, g₂, hg₁, hg₂, hg⟩ := hpair
    obtain ⟨v', m'', hok', hle', hv'⟩ :=
      (makes_productNode (hg₁.lt_depth hm') hg₁.splits hg₂.splits).gives hm'
    rw [← ker_pair] at hv'
    obtain rfl : v' = v := hv'.unique (hg.mono hle').splits
    exact ⟨m'', hok'⟩
  · exact (hn.length_reachable_le hm').trans_eq (hm.length_reachablePairs hm' hle h1 h2)

theorem product_size_sample :
    ∃ n m', productNode sampleSession.manager.depth ⟨2⟩ ⟨3⟩ sampleSession.manager = .ok n m' ∧
      (∀ v, Reach m'.children n v → ∃ v1 v2, Reach m'.children ⟨2⟩ v1 ∧
        Reach m'.children ⟨3⟩ v2 ∧ m'.levelOf v1 = m'.levelOf v2 ∧
        Gives (productNode m'.depth v1 v2) m' v) ∧
      (m'.reachable n).length ≤ (sampleSession.manager.reachablePairs ⟨2⟩ ⟨3⟩).length :=
  product_size sampleSession_reachable.afterScript sampleSession_records.1
    sampleSession_records.2 rfl

end Sessions

end Cflobdd
