import Cflobdd.NodeSpecs
import Cflobdd.Recovery
import Mathlib.Data.Finite.Sigma
import Mathlib.Data.Setoid.Basic
import Mathlib.Algebra.BigOperators.Fin
import Mathlib.SetTheory.Cardinal.Finite

/-!
# Nodes are partitions

A node splits the assignments by the exits it takes, and the names of the exits say nothing
more: a store never holds two nodes that split the assignments alike. The nodes of a level
are ordered by refinement of their partitions. `pair_product` is the meet of this order,
`reduce` goes up in it, and `restrict_node` pulls a partition back along the assignment of
a variable.
-/

namespace Cflobdd

open FirstVisit Growing

/-- The partition of the assignments by the exit that a node takes. -/
def Manager.kernel (m : Manager) (k : ℕ) (n : NodeId) : Setoid (Asg k) :=
  Setoid.ker fun a => m.evaluateNode m.depth n a.toList

/-- The stored nodes of a level. -/
def Manager.nodesAt (m : Manager) (k : ℕ) : Set NodeId :=
  {n | ∃ r, m.record? n = some r ∧ r.level = k}

/-- The node splits the assignments into the classes of `K`. -/
def Splits (m : Manager) (k : ℕ) (n : NodeId) (K : Setoid (Asg k)) : Prop :=
  ∃ g : Asg k → ℕ, Represents m k g n ∧ Setoid.ker g = K

section Kernel

variable {m m' : Manager} {k : ℕ} {α β : Type} [DecidableEq α] [DecidableEq β] {g : Asg k → α}
  {g' : Asg k → β} {n n' : NodeId} {K K' : Setoid (Asg k)}

omit [DecidableEq α] [DecidableEq β] in
/-- The values of two functions taken together split as the functions do in common. -/
theorem ker_pair (g : Asg k → α) (g' : Asg k → β) :
    Setoid.ker (fun a => (g a, g' a)) = Setoid.ker g ⊓ Setoid.ker g' := by
  ext a b
  simp only [Setoid.inf_iff_and, Setoid.ker_def, Prod.mk.injEq]

/-- A node splits the assignments as the function does that it represents. -/
theorem Represents.splits (h : Represents m k g n) : Splits m k n (Setoid.ker g) := by
  refine ⟨number g, h.numbered, ?_⟩
  ext a b
  rw [Setoid.ker_def, Setoid.ker_def, number_eq_iff]

/-- A node represents every function that splits the assignments as the node does. -/
theorem Splits.represents (h : Splits m k n (Setoid.ker g)) : Represents m k g n := by
  obtain ⟨e, he, hker⟩ := h
  refine he.congr fun a b => ?_
  rw [← Setoid.ker_def, hker, Setoid.ker_def]

/-- A node keeps its partition when the manager grows. -/
theorem Splits.mono (hle : m ≤ m') (h : Splits m k n K) : Splits m' k n K := by
  obtain ⟨g, hg, hker⟩ := h
  exact ⟨g, hg.mono hle, hker⟩

/-- **Maximal sharing:** a partition is that of one node at most. -/
theorem Splits.unique (h : Splits m k n K) (h' : Splits m k n' K) : n = n' := by
  obtain ⟨g, hg, rfl⟩ := h
  exact hg.unique h'.represents

/-- A node has one partition only. -/
theorem Splits.partition_unique (h : Splits m k n K) (h' : Splits m k n K') : K = K' := by
  obtain ⟨g, hg, rfl⟩ := h
  obtain ⟨g', hg', rfl⟩ := h'
  ext a b
  rw [Setoid.ker_def, Setoid.ker_def]
  exact hg.eq_iff hg' a b

/-- The partition is that of the exits that `evaluate_node` returns. -/
theorem Splits.kernel_eq (h : Splits m k n K) (hk : k ≤ m.level) : m.kernel k n = K := by
  obtain ⟨g, hg, rfl⟩ := h
  ext a b
  rw [Manager.kernel, Setoid.ker_def, Setoid.ker_def, hg.evaluateNode (Manager.lt_depth hk),
    hg.evaluateNode (Manager.lt_depth hk), Except.ok.injEq, number_eq_iff]

/-- A stored node splits the assignments into the classes of its kernel. -/
theorem Manager.Inv.splits (hm : m.Inv) (hn : n ∈ m.nodesAt k) :
    k ≤ m.level ∧ Splits m k n (m.kernel k n) := by
  obtain ⟨r, hr, rfl⟩ := hn
  obtain ⟨hk, e, he, -⟩ := hm.exists_represents hr
  refine ⟨hk, ?_⟩
  rw [he.splits.kernel_eq hk]
  exact he.splits

/-- A node has an exit for each class of its partition. -/
theorem Represents.card_classes (h : Represents m k g n) {r : NodeRecord}
    (hr : m.record? n = some r) : r.numExits = Nat.card (Quotient (Setoid.ker g)) := by
  have hrange : Set.range g = ((visited g).toFinset : Set α) := by
    ext v
    rw [Set.mem_range, List.coe_toFinset, Set.mem_ofPred_eq, mem_visited]
  rw [h.numExits_eq hr, Nat.card_congr (Setoid.quotientKerEquivRange g), Nat.card_coe_set_eq,
    hrange, Set.ncard_coe_finset, List.toFinset_card_of_nodup (nodup_visited g)]

end Kernel

section Sharing

instance (k : ℕ) : Finite (Asg k) :=
  Set.finite_univ_iff.mp ((List.finite_toSet (Enumerated.all : List (Asg k))).subset
    fun a _ => Enumerated.mem_all a)

instance (k : ℕ) : Finite (Setoid (Asg k)) := by
  refine Finite.of_injective (fun K : Setoid (Asg k) => {p : Asg k × Asg k | K p.1 p.2}) ?_
  intro K K' h
  ext a b
  exact Set.ext_iff.mp h (a, b)

variable {m : Manager} {L : ℕ} {s : Session}

/-- A store holds no more nodes than there are partitions. -/
theorem Manager.Inv.nodeCount_le (hm : m.Inv) :
    m.nodeCount ≤ ∑ k ∈ Finset.range (m.level + 1), Nat.card (Setoid (Asg k)) := by
  have hnode : ∀ i : Fin m.nodeCount, ∃ p : (k : Fin (m.level + 1)) × Setoid (Asg k),
      Splits m p.1 ⟨i⟩ p.2 := by
    intro i
    have hr : m.record? ⟨i⟩ = some _ := List.getElem?_eq_getElem i.isLt
    obtain ⟨hk, hsplits⟩ := hm.splits ⟨_, hr, rfl⟩
    exact ⟨⟨⟨_, Nat.lt_succ_of_le hk⟩, _⟩, hsplits⟩
  choose φ hφ using hnode
  have hinj : Function.Injective φ := by
    intro i j h
    have hij := hφ i
    rw [h] at hij
    have heq := hij.unique (hφ j)
    exact Fin.ext (NodeId.mk.inj heq)
  have hcard := Nat.card_le_card_of_injective φ hinj
  rwa [Nat.card_fin, Nat.card_sigma, Fin.sum_univ_eq_sum_range
    (fun k => Nat.card (Setoid (Asg k)))] at hcard

/-- Two diagrams have one root exactly if their functions are equal or complementary. -/
theorem Denotes.root_eq_root_iff {f g : Bdd} {F G : Asg L → Bool} (hf : Denotes m L f F)
    (hg : Denotes m L g G) : f.root = g.root ↔ F = G ∨ F = Gᶜ := by
  constructor
  · intro h
    have hroot := hg.root
    rw [← h] at hroot
    have hiff := hf.root.eq_iff hroot
    -- Two-valued functions with one kernel are determined by one of their values.
    by_cases hzero : F (.allFalse L) = G (.allFalse L)
    · refine .inl (funext fun a => ?_)
      have ha := hiff a (.allFalse L)
      rw [← hzero] at ha
      cases hF : F a <;> cases hG : G a <;> simp_all
    · refine .inr (funext fun a => ?_)
      have ha := hiff a (.allFalse L)
      cases hF : F a <;> cases hG : G a <;> simp_all
  · rintro (rfl | rfl)
    · exact hf.root.unique hg.root
    · refine hf.root.unique (hg.root.congr fun a b => ?_)
      simp [Pi.compl_apply]

end Sharing

section Refinement

/-- The node of a product, without the pairs of exits. -/
def productNode (fuel : ℕ) (n1 n2 : NodeId) : ManagerM NodeId := do
  let (n, _) ← pairProduct fuel n1 n2
  return n

/-- In every later state the program returns the node of the partition. -/
def Makes (m : Manager) (k : ℕ) (p : ManagerM NodeId) (K : Setoid (Asg k)) : Prop :=
  ∀ t, m ≤ t → t.Inv → Returns p t fun n t' => Splits t' k n K

variable {m : Manager} {k fuel : ℕ} {n n' : NodeId} {K K' : Setoid (Asg k)}

/-- `pair_product` is the meet of partitions. -/
theorem makes_productNode (hfuel : k < fuel) (h : Splits m k n K) (h' : Splits m k n' K') :
    Makes m k (productNode fuel n n') (K ⊓ K') := by
  intro t hle ht
  obtain ⟨g, hg, rfl⟩ := h
  obtain ⟨g', hg', rfl⟩ := h'
  unfold productNode
  refine Runs.bind (pairProduct_returns hfuel ht (hg.mono hle) (hg'.mono hle)) ?_
  intro result t' _ ht' hproduct
  refine Runs.pure ht' ?_
  rw [← ker_pair]
  exact hproduct.node.splits

/-- A program that makes a node returns it. -/
theorem Makes.gives (hm : m.Inv) {p : ManagerM NodeId} (h : Makes m k p K) :
    ∃ n m', p m = .ok n m' ∧ m ≤ m' ∧ Splits m' k n K := by
  obtain ⟨n, m', hok, hle, -, hn, -⟩ := h m le_rfl hm
  exact ⟨n, m', hok, hle, hn⟩

/-- The first of two nodes is their product exactly if it splits finer. -/
theorem Manager.Inv.productNode_iff (hm : m.Inv) (hn : n ∈ m.nodesAt k)
    (hn' : n' ∈ m.nodesAt k) :
    Gives (productNode m.depth n n') m n ↔ m.kernel k n ≤ m.kernel k n' := by
  obtain ⟨hk, hsplits⟩ := hm.splits hn
  obtain ⟨-, hsplits'⟩ := hm.splits hn'
  obtain ⟨p, m', hok, hle, hp⟩ :=
    (makes_productNode (Manager.lt_depth hk) hsplits hsplits').gives hm
  rw [← inf_eq_left]
  constructor
  · rintro ⟨m₁, hok₁⟩
    rw [hok] at hok₁
    cases hok₁
    exact hp.partition_unique (hsplits.mono hle)
  · intro heq
    rw [heq] at hp
    obtain rfl : p = n := hp.unique (hsplits.mono hle)
    exact ⟨m', hok⟩

/-- Merging the values of a function gives a map of the exits of its node. -/
theorem isReductionMap_reduction {α β : Type} [DecidableEq α] [DecidableEq β] (g : Asg k → α)
    (ρ : α → β) : IsReductionMap (visited g).length (reduction g ρ)
      (visited fun a => ρ (g a)).length where
  length := length_reduction g ρ
  onto exit := by rw [← mem_firstSeen, firstSeen_reduction, List.mem_range]
  firstSeen := firstSeen_reduction g ρ

/-- A node comes from another by merging exits exactly if the other splits finer. -/
theorem Manager.Inv.reduce_iff (hm : m.Inv) {r r' : NodeRecord} (hr : m.record? n = some r)
    (hr' : m.record? n' = some r') (hlevel : r'.level = r.level) :
    (∃ red newNumExits, IsReductionMap r.numExits red newNumExits ∧
        Gives (reduce m.depth n red newNumExits) m n') ↔
      m.kernel r.level n ≤ m.kernel r.level n' := by
  obtain ⟨hk, e, he, -⟩ := hm.exists_represents hr
  obtain ⟨e', he'⟩ := hm.exists_represents_at hr' hlevel
  rw [he.splits.kernel_eq hk, he'.splits.kernel_eq hk, he.numExits_eq hr]
  constructor
  · rintro ⟨red, newNumExits, hred, m', hok⟩
    obtain ⟨ρ, rfl, rfl⟩ := hred.exists_eq
    obtain ⟨hle, -, hmerged⟩ := (reduce_returns hm he (he.lt_depth hm) ρ).of_ok hok
    have heq := hmerged.splits.partition_unique (he'.mono hle).splits
    rw [← heq]
    intro a b hab
    exact congrArg ρ hab
  · intro hle
    have hfactors : e'.FactorsThrough e := fun a b hab => hle hab
    obtain ⟨ρ, rfl⟩ := (Function.factorsThrough_iff (f := e) e').mp hfactors
    obtain ⟨p, m', hok, hle', -, hp, -⟩ := reduce_returns hm he (he.lt_depth hm) ρ
    refine ⟨_, _, isReductionMap_reduction e ρ, m', ?_⟩
    rwa [← hp.unique (he'.mono hle')]

end Refinement

section Sessions

variable {L : ℕ} {s : Session}

/-- **Maximal sharing:** a session, calls that panicked included, never stores two nodes that
split the assignments of their level alike, and a node has no more exits than its partition
has classes. So the number of nodes is bounded by the number of partitions. -/
theorem maximal_sharing (hs : AfterScript L s) :
    (∀ k, Set.InjOn (s.manager.kernel k) (s.manager.nodesAt k)) ∧
    (∀ id r, s.manager.record? id = some r →
      r.numExits = Nat.card (Quotient (s.manager.kernel r.level id))) ∧
    s.manager.nodeCount ≤ ∑ k ∈ Finset.range (L + 1), Nat.card (Setoid (Asg k)) := by
  have hm := hs.valid.inv
  refine ⟨?_, ?_, ?_⟩
  · intro k n hn n' hn' heq
    obtain ⟨-, hsplits⟩ := hm.splits hn
    rw [heq] at hsplits
    exact hsplits.unique (hm.splits hn').2
  · intro id r hr
    obtain ⟨hk, e, he, -⟩ := hm.exists_represents hr
    rw [he.splits.kernel_eq hk]
    exact he.card_classes hr
  · rw [← hs.valid.level]
    exact hm.nodeCount_le

theorem maximal_sharing_sample :
    (∀ k, Set.InjOn (sampleSession.manager.kernel k) (sampleSession.manager.nodesAt k)) ∧
    (∀ id r, sampleSession.manager.record? id = some r →
      r.numExits = Nat.card (Quotient (sampleSession.manager.kernel r.level id))) ∧
    sampleSession.manager.nodeCount ≤ ∑ k ∈ Finset.range (1 + 1), Nat.card (Setoid (Asg k)) :=
  maximal_sharing sampleSession_reachable.afterScript

/-- **Complementary diagrams share their root,** and no others do. -/
theorem root_eq_iff (hs : AfterScript L s) {f g : Returned} (hf : f ∈ s.returned)
    (hg : g ∈ s.returned) :
    f.bdd.root = g.bdd.root ↔
      (∀ a : List Bool, a.length = 2 ^ L →
        s.manager.evaluate f.bdd a = s.manager.evaluate g.bdd a) ∨
      ∀ a : List Bool, a.length = 2 ^ L →
        s.manager.evaluate f.bdd a = (s.manager.evaluate g.bdd a).map Bool.not := by
  have hv := hs.valid
  have hevaluate : ∀ {x : Returned}, x ∈ s.returned → ∀ a : Asg L,
      s.manager.evaluate x.bdd a.toList = .ok (x.function a.toList) :=
    fun hx a => hv.evaluate hx (Asg.length_toList a)
  rw [(hv.returned f hf).root_eq_root_iff (hv.returned g hg), ← forall_toList_iff (L := L),
    ← forall_toList_iff (L := L)]
  simp only [hevaluate hf, hevaluate hg, Except.map, Except.ok.injEq, funext_iff, Pi.compl_apply]
  rfl

theorem root_eq_iff_sample :
    (⟨⟨2⟩, ⟨2⟩⟩ : Bdd).root = (⟨⟨2⟩, ⟨3⟩⟩ : Bdd).root ↔
      (∀ a : List Bool, a.length = 2 ^ 1 → sampleLiterals.manager.evaluate ⟨⟨2⟩, ⟨2⟩⟩ a =
        sampleLiterals.manager.evaluate ⟨⟨2⟩, ⟨3⟩⟩ a) ∨
      ∀ a : List Bool, a.length = 2 ^ 1 → sampleLiterals.manager.evaluate ⟨⟨2⟩, ⟨2⟩⟩ a =
        (sampleLiterals.manager.evaluate ⟨⟨2⟩, ⟨3⟩⟩ a).map Bool.not :=
  root_eq_iff sampleLiterals_reachable.1.afterScript sampleVar_mem sampleNot_mem

/-- **The recursions on nodes compute the refinement order:** for two stored nodes of one
level, the first splits finer than the second exactly if it is the product of both, and
exactly if the second is a reduction of it. -/
theorem refinement_order (hs : AfterScript L s) {n n' : NodeId} {r r' : NodeRecord}
    (hr : s.manager.record? n = some r) (hr' : s.manager.record? n' = some r')
    (hlevel : r'.level = r.level) :
    (Gives (productNode s.manager.depth n n') s.manager n ↔
      s.manager.kernel r.level n ≤ s.manager.kernel r.level n') ∧
    ((∃ red newNumExits, IsReductionMap r.numExits red newNumExits ∧
        Gives (reduce s.manager.depth n red newNumExits) s.manager n') ↔
      s.manager.kernel r.level n ≤ s.manager.kernel r.level n') :=
  ⟨hs.valid.inv.productNode_iff ⟨r, hr, rfl⟩ ⟨r', hr', hlevel⟩,
    hs.valid.inv.reduce_iff hr hr' hlevel⟩

/-- The node of the variable and the constant node of the sample session. -/
theorem refinement_order_sample :
    (Gives (productNode sampleSession.manager.depth ⟨2⟩ ⟨3⟩) sampleSession.manager ⟨2⟩ ↔
      sampleSession.manager.kernel 1 ⟨2⟩ ≤ sampleSession.manager.kernel 1 ⟨3⟩) ∧
    ((∃ red newNumExits, IsReductionMap 2 red newNumExits ∧
        Gives (reduce sampleSession.manager.depth ⟨2⟩ red newNumExits) sampleSession.manager
          ⟨3⟩) ↔
      sampleSession.manager.kernel 1 ⟨2⟩ ≤ sampleSession.manager.kernel 1 ⟨3⟩) :=
  refinement_order sampleSession_reachable.afterScript sampleSession_records.1
    sampleSession_records.2 rfl

end Sessions

end Cflobdd
