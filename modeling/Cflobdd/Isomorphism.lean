import Cflobdd.Traversal.Bisimulation
import Cflobdd.WellFormed

/-!
# The structure of a diagram is fixed by its function

Diagrams of one function in two managers have isomorphic subgraphs below their roots,
whatever was called on either manager. The traversal behind the structural counts visits
each reachable node once, so the counts agree.
-/

namespace Cflobdd

open FirstVisit Growing Traversal

/-- The targets of a record: that of the A-connection and those of the B-connections. -/
def NodeRecord.children : NodeRecord → List NodeId
  | internal _ _ aConn bConns => aConn.target :: bConns.map (·.target)
  | dontCare | fork => []

/-- A loop of programs that return. -/
theorem foldlM_ok {α β : Type} {f : β → α → Except Panic β} {g : β → α → β} {xs : List α}
    (h : ∀ x ∈ xs, ∀ b, f b x = .ok (g b x)) (b : β) :
    xs.foldlM f b = .ok (xs.foldl g b) := by
  induction xs generalizing b with
  | nil => rfl
  | cons x xs ih =>
    rw [List.foldlM_cons, h x (.head _)]
    exact ih (fun y hy => h y (.tail _ hy)) (g b x)

/-- A loop none of whose steps panics. -/
theorem mapM_ok {α β : Type} {f : α → Except Panic β} {g : α → β} {xs : List α}
    (h : ∀ x ∈ xs, f x = .ok (g x)) : xs.mapM f = .ok (xs.map g) := by
  induction xs with
  | nil => rfl
  | cons x xs ih =>
    rw [List.mapM_cons, h x (.head _), ih fun y hy => h y (.tail _ hy)]
    rfl

namespace Manager

/-- The children of a node. -/
def children (m : Manager) (id : NodeId) : List NodeId :=
  ((m.record? id).map NodeRecord.children).getD []

/-- The level of a node. -/
def levelOf (m : Manager) (id : NodeId) : ℕ := ((m.record? id).map NodeRecord.level).getD 0

variable {m : Manager}

/-- The children are read off the record. -/
theorem children_of_record {id : NodeId} {r : NodeRecord} (h : m.record? id = some r) :
    m.children id = r.children := by rw [children, h, Option.map_some, Option.getD_some]

/-- The level is read off the record. -/
theorem levelOf_of_record {id : NodeId} {r : NodeRecord} (h : m.record? id = some r) :
    m.levelOf id = r.level := by rw [levelOf, h, Option.map_some, Option.getD_some]

/-- Children are stored, one level lower. -/
theorem Inv.child (hm : m.Inv) {id c : NodeId} (hc : c ∈ m.children id) :
    (∃ r, m.record? c = some r) ∧ m.levelOf c < m.levelOf id := by
  cases hr : m.record? id with
  | none => simp [children, hr] at hc
  | some r =>
    rw [children_of_record hr] at hc
    rw [levelOf_of_record hr]
    cases r with
    | dontCare => cases hc
    | fork => cases hc
    | internal level numExits aConn bConns =>
      have hwf := hm.wellFormed _ _ _ _ _ hr
      rcases List.mem_cons.mp hc with rfl | hc
      · obtain ⟨target, htarget, hlevel, -⟩ := hwf.aConn_wellFormed
        refine ⟨⟨target, htarget⟩, ?_⟩
        rw [levelOf_of_record htarget, NodeRecord.level]
        omega
      · obtain ⟨b, hb, rfl⟩ := List.mem_map.mp hc
        obtain ⟨target, -, htarget, hlevel, -⟩ := hwf.bConns_wellFormed b hb
        refine ⟨⟨target, htarget⟩, ?_⟩
        rw [levelOf_of_record htarget, NodeRecord.level]
        omega

/-- `walk` is the depth-first traversal. -/
theorem walk_eq (hm : m.Inv) {fuel : ℕ} {id : NodeId} {r : NodeRecord}
    (hr : m.record? id = some r) (hfuel : m.levelOf id < fuel) (seen : List NodeId) :
    m.walk fuel id seen = .ok (visit m.children fuel id seen) := by
  induction fuel generalizing id r seen with
  | zero => omega
  | succ fuel ih =>
    have hchild : ∀ c ∈ m.children id, ∀ seen,
        m.walk fuel c seen = .ok (visit m.children fuel c seen) := by
      intro c hc seen
      obtain ⟨⟨rc, hrc⟩, hlevel⟩ := hm.child hc
      exact ih hrc (by omega) seen
    unfold walk visit
    split
    next => rfl
    next =>
      rw [index_of_some hr, pure_bind, children_of_record hr]
      rw [children_of_record hr] at hchild
      cases r with
      | dontCare => rfl
      | fork => rfl
      | internal level numExits aConn bConns =>
        dsimp only [NodeRecord.children] at hchild ⊢
        rw [hchild _ (.head _), List.foldl_cons, List.foldl_map]
        exact foldlM_ok (fun b hb seen => hchild b.target (.tail _ (List.mem_map_of_mem hb)) seen) _

/-- The edges that leave a node lead to its children. -/
theorem edges_eq {id : NodeId} {r : NodeRecord} (h : m.record? id = some r) :
    m.edges id = .ok (m.children id).length := by
  rw [edges, index_of_some h, pure_bind, children_of_record h]
  cases r with
  | dontCare => rfl
  | fork => rfl
  | internal level numExits aConn bConns =>
    simp only [NodeRecord.children, List.length_cons, List.length_map, Nat.add_comm]
    rfl

/-- The nodes reachable from a stored node are stored. -/
theorem exists_record_of_reach (hm : m.Inv) {id n : NodeId} {r : NodeRecord}
    (hr : m.record? id = some r) (h : Reach m.children id n) : ∃ r, m.record? n = some r := by
  induction h with
  | refl => exact ⟨r, hr⟩
  | tail _ hstep _ => exact (hm.child hstep).1

/-- Children are of lower levels. -/
theorem Inv.child_level (hm : m.Inv) (id c : NodeId) (hc : c ∈ m.children id) :
    m.levelOf c < m.levelOf id := (hm.child hc).2

/-- The nodes reachable from a node, in the order in which `walk` leaves them. -/
def reachable (m : Manager) (id : NodeId) : List NodeId := visit m.children m.depth id []

/-- The bound on the depth exceeds the level of every stored node. -/
theorem levelOf_lt_depth (hm : m.Inv) {id : NodeId} {r : NodeRecord}
    (hr : m.record? id = some r) : m.levelOf id < m.depth := by
  rw [levelOf_of_record hr]
  exact Manager.lt_depth (hm.canonical id r hr).1

/-- The nodes that `walk` finds are those reached. -/
theorem mem_reachable (hm : m.Inv) {id n : NodeId} {r : NodeRecord}
    (hr : m.record? id = some r) : n ∈ m.reachable id ↔ Reach m.children id n :=
  mem_visit hm.child_level (levelOf_lt_depth hm hr)

/-- `walk` finds no node twice. -/
theorem nodup_reachable (hm : m.Inv) {id : NodeId} {r : NodeRecord}
    (hr : m.record? id = some r) : (m.reachable id).Nodup :=
  nodup_visit hm.child_level (levelOf_lt_depth hm hr)

/-- The index of a stored node is below their number. -/
theorem lt_nodeCount {n : NodeId} {r : NodeRecord} (hr : m.record? n = some r) :
    n.raw < m.nodeCount := (List.getElem?_eq_some_iff.mp hr).choose

/-- No more nodes are reached than there are in the store. -/
theorem length_reachable_le (hm : m.Inv) {id : NodeId} {r : NodeRecord}
    (hr : m.record? id = some r) : (m.reachable id).length ≤ m.nodeCount := by
  have hnodup : ((m.reachable id).map NodeId.raw).Nodup :=
    (nodup_reachable hm hr).map fun _ _ h => congrArg NodeId.mk h
  have hsub : (m.reachable id).map NodeId.raw ⊆ List.range m.nodeCount := by
    refine List.forall_mem_map.mpr fun n hn => List.mem_range.mpr ?_
    obtain ⟨r', hr'⟩ := exists_record_of_reach hm hr ((mem_reachable hm hr).mp hn)
    exact lt_nodeCount hr'
  have hle := (hnodup.subperm hsub).length_le
  rwa [List.length_map, List.length_range] at hle

/-- The structural counts of a diagram are those of the nodes reachable from its root. -/
theorem counts_eq (hm : m.Inv) {f : Bdd} {r : NodeRecord} (hr : m.record? f.root = some r) :
    m.reachableNodeCount f = .ok (m.reachable f.root).length ∧
    m.reachableEdgeCount f =
      .ok ((m.reachable f.root).map fun n => (m.children n).length).sum := by
  have hwalk : m.walk m.depth f.root [] = .ok (m.reachable f.root) :=
    walk_eq hm hr (levelOf_lt_depth hm hr) []
  have hedges : (m.reachable f.root).mapM m.edges =
      .ok ((m.reachable f.root).map fun n => (m.children n).length) := by
    refine mapM_ok fun n hn => ?_
    obtain ⟨r', hr'⟩ := exists_record_of_reach hm hr ((mem_reachable hm hr).mp hn)
    exact edges_eq hr'
  constructor
  · rw [reachableNodeCount, hwalk]
    rfl
  · rw [reachableEdgeCount, hwalk]
    change (List.mapM m.edges _ >>= _ : Except Panic ℕ) = _
    rw [hedges]
    rfl

end Manager

section Records

variable (m₁ m₂ : Manager) (R : NodeId → NodeId → Prop)

/-- Connections with related targets and the same return map. -/
def ConnsMatch (c c' : Connection) : Prop :=
  R c.target c'.target ∧
    ∃ map, m₁.body? c.returnMap = some map ∧ m₂.body? c'.returnMap = some map

/-- Records of the same kind, level and number of exits whose connections match in order. -/
inductive RecordsMatch : NodeRecord → NodeRecord → Prop
  | dontCare : RecordsMatch .dontCare .dontCare
  | fork : RecordsMatch .fork .fork
  | internal (level numExits : ℕ) {aConn aConn' : Connection} {bConns bConns' : List Connection}
      (ha : ConnsMatch m₁ m₂ R aConn aConn')
      (hb : List.Forall₂ (ConnsMatch m₁ m₂ R) bConns bConns') :
      RecordsMatch (.internal level numExits aConn bConns) (.internal level numExits aConn' bConns')

/-- A bijection of the nodes reachable from two roots that preserves their records. -/
structure Isomorphism (root₁ root₂ : NodeId) (φ : NodeId → NodeId) : Prop where
  bijOn : Set.BijOn φ {n | Reach m₁.children root₁ n} {n | Reach m₂.children root₂ n}
  root : φ root₁ = root₂
  records : ∀ n, Reach m₁.children root₁ n → ∃ r r', m₁.record? n = some r ∧
    m₂.record? (φ n) = some r' ∧ RecordsMatch m₁ m₂ (fun c c' => φ c = c') r r'

/-- Nodes of two managers that represent one function. -/
def SameFunction (n₁ n₂ : NodeId) : Prop :=
  ∃ (k : ℕ) (e : Asg k → ℕ), Represents m₁ k e n₁ ∧ Represents m₂ k e n₂

end Records

/-- Elements that belong to the same element of a third list. -/
theorem forall₂_of_common {α β γ : Type*} {S : α → β → Prop} {T : α → γ → Prop}
    {U : β → γ → Prop} {xs : List α} {ys : List β} {zs : List γ} (h : List.Forall₂ S xs ys)
    (h' : List.Forall₂ T xs zs) (hU : ∀ x y z, S x y → T x z → U y z) : List.Forall₂ U ys zs := by
  induction h generalizing zs with
  | nil =>
    cases h'
    exact .nil
  | cons hxy _ ih =>
    cases h' with
    | cons hxz hrest => exact .cons (hU _ _ _ hxy hxz) (ih hrest)

section Matching

variable {m₁ m₂ : Manager} {k : ℕ} {α : Type} [DecidableEq α] {g : Asg k → α} {n₁ n₂ : NodeId}

/-- Nodes of two managers that represent one function. -/
theorem SameFunction.of_represents (h₁ : Represents m₁ k g n₁) (h₂ : Represents m₂ k g n₂) :
    SameFunction m₁ m₂ n₁ n₂ :=
  ⟨k, number g, h₁.numbered, h₂.numbered⟩

/-- A node is related to one node at most. -/
theorem SameFunction.right_unique {n₂' : NodeId} (h : SameFunction m₁ m₂ n₁ n₂)
    (h' : SameFunction m₁ m₂ n₁ n₂') : n₂ = n₂' := by
  obtain ⟨k, e, h₁, h₂⟩ := h
  obtain ⟨k', e', h₁', h₂'⟩ := h'
  obtain rfl : k = k' := h₁.level_unique h₁'
  exact (h₂.congr (h₁.eq_iff h₁')).unique h₂'

/-- The managers may change places. -/
theorem SameFunction.flip (h : SameFunction m₁ m₂ n₁ n₂) : SameFunction m₂ m₁ n₂ n₁ := by
  obtain ⟨k, e, h₁, h₂⟩ := h
  exact ⟨k, e, h₂, h₁⟩

/-- Nodes that represent one function have matching records. -/
theorem SameFunction.records (h : SameFunction m₁ m₂ n₁ n₂) :
    ∃ r r', m₁.record? n₁ = some r ∧ m₂.record? n₂ = some r' ∧
      RecordsMatch m₁ m₂ (SameFunction m₁ m₂) r r' := by
  obtain ⟨k, e, h₁, h₂⟩ := h
  cases k with
  | zero =>
    by_cases heq : e (.leaf false) = e (.leaf true)
    · obtain rfl : n₁ = .dontCare := Eq.trans h₁ (if_pos heq)
      obtain rfl : n₂ = .dontCare := Eq.trans h₂ (if_pos heq)
      exact ⟨_, _, m₁.record?_dontCare, m₂.record?_dontCare, .dontCare⟩
    · obtain rfl : n₁ = .fork := Eq.trans h₁ (if_neg heq)
      obtain rfl : n₂ = .fork := Eq.trans h₂ (if_neg heq)
      exact ⟨_, _, m₁.record?_fork, m₂.record?_fork, .fork⟩
  | succ k =>
    obtain ⟨aConn, bConns, hrecord, hparts⟩ := h₁.parts
    obtain ⟨aConn', bConns', hrecord', hparts'⟩ := h₂.parts
    refine ⟨_, _, hrecord, hrecord', .internal _ _ ⟨?_, _, hparts.aMap, hparts'.aMap⟩ ?_⟩
    · exact .of_represents hparts.aTarget hparts'.aTarget
    · refine forall₂_of_common hparts.bConns hparts'.bConns ?_
      rintro r b b' ⟨hb, hbmap⟩ ⟨hb', hbmap'⟩
      exact ⟨.of_represents hb hb', _, hbmap, hbmap'⟩

/-- The children of matching records match. -/
theorem RecordsMatch.children {R : NodeId → NodeId → Prop} {r r' : NodeRecord}
    (h : RecordsMatch m₁ m₂ R r r') : List.Forall₂ R r.children r'.children := by
  cases h with
  | dontCare => exact .nil
  | fork => exact .nil
  | internal level numExits ha hb =>
    refine .cons ha.1 ?_
    rw [List.forall₂_map_left_iff, List.forall₂_map_right_iff]
    exact hb.imp fun _ _ hconn => hconn.1

/-- The relation of the nodes may be replaced by one that holds for all children. -/
theorem RecordsMatch.imp {R S : NodeId → NodeId → Prop} {r r' : NodeRecord}
    (h : RecordsMatch m₁ m₂ R r r') (hRS : ∀ c ∈ r.children, ∀ c', R c c' → S c c') :
    RecordsMatch m₁ m₂ S r r' := by
  cases h with
  | dontCare => exact .dontCare
  | fork => exact .fork
  | internal level numExits ha hb =>
    refine .internal level numExits ⟨hRS _ (.head _) _ ha.1, ha.2⟩ ?_
    refine forall₂_imp_of_mem hb fun b b' hmem hconn => ⟨hRS _ (.tail _ ?_) _ hconn.1, hconn.2⟩
    exact List.mem_map_of_mem hmem

/-- Representing one function is a matching of the nodes of two managers. -/
theorem sameFunction_matching (m₁ m₂ : Manager) :
    Matching m₁.children m₂.children (SameFunction m₁ m₂) where
  right_unique _ _ _ h h' := h.right_unique h'
  left_unique _ _ _ h h' := h.flip.right_unique h'.flip
  children n₁ n₂ h := by
    obtain ⟨r, r', hr, hr', hmatch⟩ := h.records
    rw [Manager.children_of_record hr, Manager.children_of_record hr']
    exact hmatch.children

/-- Nodes that represent one function have isomorphic subgraphs. -/
theorem SameFunction.isomorphism (h : SameFunction m₁ m₂ n₁ n₂) :
    ∃ φ, Isomorphism m₁ m₂ n₁ n₂ φ := by
  obtain ⟨φ, hbij, hφ⟩ := (sameFunction_matching m₁ m₂).exists_bijOn h
  refine ⟨φ, hbij, (hφ n₁ .refl).right_unique h, ?_⟩
  intro n hn
  obtain ⟨r, r', hr, hr', hmatch⟩ := (hφ n hn).records
  refine ⟨r, r', hr, hr', hmatch.imp fun c hc c' hcc' => ?_⟩
  have hchild : c ∈ m₁.children n := by rwa [Manager.children_of_record hr]
  exact (hφ c (hn.tail hchild)).right_unique hcc'

/-- Isomorphic subgraphs have the same nodes up to order. -/
theorem Isomorphism.perm {φ : NodeId → NodeId} (h : Isomorphism m₁ m₂ n₁ n₂ φ) (hm₁ : m₁.Inv)
    (hm₂ : m₂.Inv) {r₁ r₂ : NodeRecord} (hr₁ : m₁.record? n₁ = some r₁)
    (hr₂ : m₂.record? n₂ = some r₂) :
    ((m₁.reachable n₁).map φ).Perm (m₂.reachable n₂) := by
  have hmem : ∀ {n}, n ∈ m₁.reachable n₁ ↔ Reach m₁.children n₁ n := Manager.mem_reachable hm₁ hr₁
  have hnodup : ((m₁.reachable n₁).map φ).Nodup :=
    (Manager.nodup_reachable hm₁ hr₁).map_on fun n hn n' hn' heq =>
      h.bijOn.injOn (hmem.mp hn) (hmem.mp hn') heq
  refine (List.perm_ext_iff_of_nodup hnodup (Manager.nodup_reachable hm₂ hr₂)).mpr fun n => ?_
  rw [List.mem_map, Manager.mem_reachable hm₂ hr₂]
  constructor
  · rintro ⟨n', hn', rfl⟩
    exact h.bijOn.mapsTo (hmem.mp hn')
  · intro hn
    obtain ⟨n', hn', rfl⟩ := h.bijOn.surjOn hn
    exact ⟨n', hmem.mpr hn', rfl⟩

/-- Isomorphic subgraphs have the same structural counts. -/
theorem Isomorphism.counts {φ : NodeId → NodeId} {f₁ f₂ : Bdd}
    (h : Isomorphism m₁ m₂ f₁.root f₂.root φ) (hm₁ : m₁.Inv) (hm₂ : m₂.Inv)
    {r₁ r₂ : NodeRecord} (hr₁ : m₁.record? f₁.root = some r₁)
    (hr₂ : m₂.record? f₂.root = some r₂) :
    (∃ nodes, m₁.reachableNodeCount f₁ = .ok nodes ∧ m₂.reachableNodeCount f₂ = .ok nodes) ∧
    ∃ edges, m₁.reachableEdgeCount f₁ = .ok edges ∧ m₂.reachableEdgeCount f₂ = .ok edges := by
  obtain ⟨hnodes₁, hedges₁⟩ := Manager.counts_eq hm₁ hr₁
  obtain ⟨hnodes₂, hedges₂⟩ := Manager.counts_eq hm₂ hr₂
  have hperm := h.perm hm₁ hm₂ hr₁ hr₂
  constructor
  · refine ⟨_, hnodes₁, ?_⟩
    rw [hnodes₂, ← hperm.length_eq, List.length_map]
  · refine ⟨_, hedges₁, ?_⟩
    rw [hedges₂, ← (hperm.map fun n => (m₂.children n).length).sum_eq, List.map_map]
    congr 2
    refine List.map_congr_left fun n hn => ?_
    obtain ⟨r, r', hr, hr', hmatch⟩ := h.records n ((Manager.mem_reachable hm₁ hr₁).mp hn)
    rw [Function.comp_apply, Manager.children_of_record hr, Manager.children_of_record hr']
    exact hmatch.children.length_eq.symm

end Matching

/-- **Structure is independent of history:** diagrams of one function, returned by two
managers after any runs, have isomorphic subgraphs, equal value maps and equal structural
counts. -/
theorem structure_independent {L : ℕ} {s₁ s₂ : Session} (hs₁ : Reachable L s₁)
    (hs₂ : Reachable L s₂) {f₁ f₂ : Returned} (hf₁ : f₁ ∈ s₁.returned) (hf₂ : f₂ ∈ s₂.returned)
    (hsame : ∀ a : List Bool, a.length = 2 ^ L →
      s₁.manager.evaluate f₁.bdd a = s₂.manager.evaluate f₂.bdd a) :
    (∃ φ, Isomorphism s₁.manager s₂.manager f₁.bdd.root f₂.bdd.root φ) ∧
    (∃ values, s₁.manager.body? f₁.bdd.values = some values ∧
      s₂.manager.body? f₂.bdd.values = some values) ∧
    (∃ nodes, s₁.manager.reachableNodeCount f₁.bdd = .ok nodes ∧
      s₂.manager.reachableNodeCount f₂.bdd = .ok nodes) ∧
    ∃ edges, s₁.manager.reachableEdgeCount f₁.bdd = .ok edges ∧
      s₂.manager.reachableEdgeCount f₂.bdd = .ok edges := by
  have hfunction : (fun a : Asg L => f₁.function a.toList) = fun a => f₂.function a.toList := by
    funext a
    have heq := hsame a.toList (Asg.length_toList a)
    rw [hs₁.valid.evaluate hf₁ (Asg.length_toList a),
      hs₂.valid.evaluate hf₂ (Asg.length_toList a)] at heq
    exact Except.ok.inj heq
  have h₁ := hs₁.valid.returned f₁ hf₁
  have h₂ := hs₂.valid.returned f₂ hf₂
  rw [hfunction] at h₁
  obtain ⟨φ, hφ⟩ := (SameFunction.of_represents h₁.root h₂.root).isomorphism
  obtain ⟨r₁, hr₁, -⟩ := h₁.root.record
  obtain ⟨r₂, hr₂, -⟩ := h₂.root.record
  exact ⟨⟨φ, hφ⟩, ⟨_, h₁.values, h₂.values⟩, hφ.counts hs₁.valid.inv hs₂.valid.inv hr₁ hr₂⟩

/-- The constant true made by `mk_true` alone and as `x₀ ∨ ¬x₀` after other calls. -/
theorem structure_independent_sample :
    (∃ φ, Isomorphism sampleTrue.manager sampleSession.manager ⟨2⟩ ⟨3⟩ φ) ∧
    (∃ values, sampleTrue.manager.body? ⟨1⟩ = some values ∧
      sampleSession.manager.body? ⟨1⟩ = some values) ∧
    (∃ nodes, sampleTrue.manager.reachableNodeCount ⟨⟨2⟩, ⟨1⟩⟩ = .ok nodes ∧
      sampleSession.manager.reachableNodeCount ⟨⟨3⟩, ⟨1⟩⟩ = .ok nodes) ∧
    ∃ edges, sampleTrue.manager.reachableEdgeCount ⟨⟨2⟩, ⟨1⟩⟩ = .ok edges ∧
      sampleSession.manager.reachableEdgeCount ⟨⟨3⟩, ⟨1⟩⟩ = .ok edges := by
  have hf₁ : (⟨⟨⟨2⟩, ⟨1⟩⟩, fun _ => true⟩ : Returned) ∈ sampleTrue.returned := by
    rw [sampleTrue_reachable.2]
    exact .head _
  have hf₂ : (⟨⟨⟨3⟩, ⟨1⟩⟩, fun a => a.getD 0 false || !a.getD 0 false⟩ : Returned) ∈
      sampleSession.returned := by
    rw [sampleSession_steps.2]
    exact .tail _ (.tail _ (.head _))
  refine structure_independent sampleTrue_reachable.1 sampleSession_reachable hf₁ hf₂ ?_
  intro a ha
  rw [sampleTrue_reachable.1.valid.evaluate hf₁ ha, sampleSession_reachable.valid.evaluate hf₂ ha]
  exact congrArg Except.ok (Bool.or_not_self _).symm

end Cflobdd
