import Cflobdd.Assignments
import Cflobdd.Engine.PathCount
import Cflobdd.Engine.Restrict
import Mathlib.Data.List.Forall2

/-!
# The canonical diagram of a function

A function of `2 ^ k` variables has one canonical diagram: its A-connection tells the
rows of the function apart, it has a B-connection for each row, and all exits are
numbered by their first visit. `Represents` says that a node is this diagram. Two
nodes that represent one function are the same node, and a node is evaluated to the
number of the function's value.
-/

namespace Cflobdd

open FirstVisit

/-- `m'` has everything that `m` has: nodes and return maps keep their indices, and
table entries stay as they are. -/
structure Manager.Grows (m m' : Manager) : Prop where
  nodes : m.nodes.records <+: m'.nodes.records
  returnMaps : m.returnMaps.bodies <+: m'.returnMaps.bodies
  level : m'.level = m.level
  noDistinction : ∀ k id, lookupNoDistinction k m = some id → lookupNoDistinction k m' = some id
  pairProducts : ∀ key memo, m.pairProductCache.get? key = some memo →
    m'.pairProductCache.get? key = some memo
  reductions : ∀ key id, m.reduceCache.get? key = some id → m'.reduceCache.get? key = some id
  pathCounts : ∀ key paths, m.pathCounts.get? key = some paths →
    m'.pathCounts.get? key = some paths
  rmSingleton0 : m'.rmSingleton0 = m.rmSingleton0
  rmSingleton1 : m'.rmSingleton1 = m.rmSingleton1
  rmIdentity2 : m'.rmIdentity2 = m.rmIdentity2
  memo : m'.probe.memo = m.probe.memo
  shortcuts : m'.probe.shortcuts = m.probe.shortcuts

/-- Managers are ordered by growth. -/
instance : Preorder Manager where
  le := Manager.Grows
  le_refl m := ⟨List.prefix_rfl, List.prefix_rfl, rfl, fun _ _ h => h, fun _ _ h => h,
    fun _ _ h => h, fun _ _ h => h, rfl, rfl, rfl, rfl, rfl⟩
  le_trans a b c h h' :=
    { nodes := h.nodes.trans h'.nodes
      returnMaps := h.returnMaps.trans h'.returnMaps
      level := h'.level.trans h.level
      noDistinction := fun k id hk => h'.noDistinction k id (h.noDistinction k id hk)
      pairProducts := fun key memo hk => h'.pairProducts key memo (h.pairProducts key memo hk)
      reductions := fun key id hk => h'.reductions key id (h.reductions key id hk)
      pathCounts := fun key paths hk => h'.pathCounts key paths (h.pathCounts key paths hk)
      rmSingleton0 := h'.rmSingleton0.trans h.rmSingleton0
      rmSingleton1 := h'.rmSingleton1.trans h.rmSingleton1
      rmIdentity2 := h'.rmIdentity2.trans h.rmIdentity2
      memo := h'.memo.trans h.memo
      shortcuts := h'.shortcuts.trans h.shortcuts }

namespace Manager

/-- The record of a node. -/
def record? (m : Manager) (id : NodeId) : Option NodeRecord := m.nodes.record? id

/-- The body of a return map. -/
def body? (m : Manager) (id : ReturnMapId) : Option (List ℕ) := m.returnMaps.body? id

variable {m m' : Manager}

/-- A stored node keeps its record. -/
theorem record?_mono (h : m ≤ m') {id : NodeId} {r : NodeRecord} (hr : m.record? id = some r) :
    m'.record? id = some r := by
  obtain ⟨rest, hrest⟩ := h.nodes
  have hlt : id.raw < m.nodes.records.length := (List.getElem?_eq_some_iff.mp hr).choose
  rw [record?, NodeStore.record?, ← hrest, List.getElem?_append_left hlt]
  exact hr

/-- A stored return map keeps its body. -/
theorem body?_mono (h : m ≤ m') {id : ReturnMapId} {b : List ℕ} (hb : m.body? id = some b) :
    m'.body? id = some b := by
  obtain ⟨rest, hrest⟩ := h.returnMaps
  have hlt : id.raw < m.returnMaps.bodies.length := (List.getElem?_eq_some_iff.mp hb).choose
  rw [body?, ReturnMapStore.body?, ← hrest, List.getElem?_append_left hlt]
  exact hb

/-- `DontCare` is always stored. -/
theorem record?_dontCare (m : Manager) : m.record? .dontCare = some .dontCare :=
  m.nodes.records_dontCare

/-- `Fork` is always stored. -/
theorem record?_fork (m : Manager) : m.record? .fork = some .fork := m.nodes.records_fork

end Manager

/-- The node `n` is the canonical diagram of the function `g` of `2 ^ k` variables. -/
def Represents (m : Manager) : (k : ℕ) → {α : Type} → [DecidableEq α] → (Asg k → α) →
    NodeId → Prop
  | 0, _, _, g, n => n = if g (.leaf false) = g (.leaf true) then .dontCare else .fork
  | k + 1, _, _, g, n =>
    ∃ aConn bConns,
      m.record? n = some (.internal (k + 1) (visited g).length aConn bConns) ∧
      Represents m k (row g) aConn.target ∧
      m.body? aConn.returnMap = some (List.range (visited (row g)).length) ∧
      List.Forall₂ (fun r b => Represents m k r b.target ∧
        m.body? b.returnMap = some ((visited r).map (rank (visited g)))) (visited (row g)) bConns

/-- A pointwise relation of lists may be weakened using where the elements come from. -/
theorem forall₂_imp_of_mem {α β : Type*} {R S : α → β → Prop} {xs : List α} {ys : List β}
    (h : List.Forall₂ R xs ys) (himp : ∀ x y, x ∈ xs → R x y → S x y) : List.Forall₂ S xs ys := by
  induction h with
  | nil => exact .nil
  | cons hxy _ ih =>
    refine .cons (himp _ _ (by simp) hxy) (ih fun x y hx => himp x y ?_)
    simp [hx]

namespace Represents

variable {m m' : Manager} {k : ℕ} {α β : Type} [DecidableEq α] [DecidableEq β]
  {g : Asg k → α} {n n' : NodeId}

/-- `DontCare` represents the constants of one variable. -/
theorem dontCare {g : Asg 0 → α} (h : g (.leaf false) = g (.leaf true)) :
    Represents m 0 g .dontCare := by
  rw [Represents, if_pos h]

/-- `Fork` represents the other functions of one variable. -/
theorem fork {g : Asg 0 → α} (h : g (.leaf false) ≠ g (.leaf true)) :
    Represents m 0 g .fork := by
  rw [Represents, if_neg h]

/-- Only the stores matter. -/
theorem transfer (hrecords : ∀ id r, m.record? id = some r → m'.record? id = some r)
    (hbodies : ∀ id b, m.body? id = some b → m'.body? id = some b) (h : Represents m k g n) :
    Represents m' k g n := by
  induction k generalizing α n with
  | zero => exact h
  | succ k ih =>
    obtain ⟨aConn, bConns, hrecord, ha, hamap, hb⟩ := h
    refine ⟨aConn, bConns, hrecords _ _ hrecord, ih ha, hbodies _ _ hamap, ?_⟩
    exact hb.imp fun r b hrb => ⟨ih hrb.1, hbodies _ _ hrb.2⟩

/-- A node represents its function still when the manager has grown. -/
theorem mono (hle : m ≤ m') (h : Represents m k g n) : Represents m' k g n :=
  h.transfer (fun _ _ => Manager.record?_mono hle) fun _ _ => Manager.body?_mono hle

/-- A node has the level and the number of exits of the function it represents. -/
theorem record (h : Represents m k g n) :
    ∃ r, m.record? n = some r ∧ r.level = k ∧ r.numExits = (visited g).length := by
  cases k with
  | zero =>
    rw [Represents] at h
    rw [visited_zero]
    split at h
    next heq =>
      rw [if_pos heq, h]
      exact ⟨_, m.record?_dontCare, rfl, rfl⟩
    next hne =>
      rw [if_neg hne, h]
      exact ⟨_, m.record?_fork, rfl, rfl⟩
  | succ k =>
    obtain ⟨aConn, bConns, hrecord, -⟩ := h
    exact ⟨_, hrecord, rfl, rfl⟩

/-- The level of a node is that of the function it represents. -/
theorem level_eq (h : Represents m k g n) {r : NodeRecord} (hr : m.record? n = some r) :
    r.level = k := by
  obtain ⟨r', hr', hlevel, -⟩ := h.record
  rw [hr, Option.some.injEq] at hr'
  rw [hr', hlevel]

/-- A node has an exit for each value of the function. -/
theorem numExits_eq (h : Represents m k g n) {r : NodeRecord} (hr : m.record? n = some r) :
    r.numExits = (visited g).length := by
  obtain ⟨r', hr', -, hexits⟩ := h.record
  rw [hr, Option.some.injEq] at hr'
  rw [hr', hexits]

/-- A node represents functions of one level only. -/
theorem level_unique {k' : ℕ} {g' : Asg k' → β} (h : Represents m k g n)
    (h' : Represents m k' g' n) : k = k' := by
  obtain ⟨r, hr, hlevel, -⟩ := h.record
  rw [← hlevel, h'.level_eq hr]

/-- An injective renaming of the values of a function has the same diagram. -/
theorem comp {φ : α → β} (hφ : Set.InjOn φ (Set.range g)) (h : Represents m k g n) :
    Represents m k (fun a => φ (g a)) n := by
  induction k generalizing α β n with
  | zero =>
    rw [Represents] at h ⊢
    rw [h]
    by_cases heq : g (.leaf false) = g (.leaf true)
    · rw [if_pos heq, if_pos (by rw [heq])]
    · rw [if_neg heq, if_neg fun hc => heq (hφ ⟨_, rfl⟩ ⟨_, rfl⟩ hc)]
  | succ k ih =>
    obtain ⟨aConn, bConns, hrecord, ha, hamap, hb⟩ := h
    have hrow : Set.InjOn (fun (r : Asg k → α) y => φ (r y)) (Set.range (row g)) := by
      rintro _ ⟨x, rfl⟩ _ ⟨x', rfl⟩ hxx'
      exact funext fun y => hφ ⟨_, rfl⟩ ⟨_, rfl⟩ (congrFun hxx' y)
    have hrows : visited (row fun a => φ (g a)) =
        (visited (row g)).map fun r y => φ (r y) := visited_comp_of_injOn hrow
    refine ⟨aConn, bConns, ?_, ih (g := row g) hrow ha, ?_, ?_⟩
    · rw [visited_comp_of_injOn hφ, List.length_map, hrecord]
    · rw [hrows, List.length_map, hamap]
    · rw [hrows, List.forall₂_map_left_iff]
      refine forall₂_imp_of_mem hb fun r b hr hrb => ?_
      have hφr : Set.InjOn φ (Set.range r) := by
        rintro _ ⟨y, rfl⟩ _ ⟨y', rfl⟩ hyy'
        exact hφ (mem_visited.mp (mem_visited_of_row hr y))
          (mem_visited.mp (mem_visited_of_row hr y')) hyy'
      refine ⟨ih hφr hrb.1, ?_⟩
      rw [hrb.2, visited_comp_of_injOn hφr, List.map_map]
      congr 1
      refine List.map_congr_left fun v hv => ?_
      obtain ⟨y, rfl⟩ := mem_visited.mp hv
      exact (rank_comp_of_injOn hφ (mem_visited_of_row hr y)).symm

/-- Functions that tell the same assignments apart have the same diagram. -/
theorem congr {g' : Asg k → β} (heq : ∀ a b, g a = g b ↔ g' a = g' b)
    (h : Represents m k g n) : Represents m k g' n := by
  have : Nonempty β := ⟨g' (.allFalse k)⟩
  obtain ⟨φ, hφ, rfl⟩ := exists_comp_of_eq_iff heq
  exact h.comp hφ

/-- **Canonicity:** a function is represented by at most one node. -/
theorem unique (h : Represents m k g n) (h' : Represents m k g n') : n = n' := by
  induction k generalizing α n n' with
  | zero => exact h.trans h'.symm
  | succ k ih =>
    obtain ⟨aConn, bConns, hrecord, ha, hamap, hb⟩ := h
    obtain ⟨aConn', bConns', hrecord', ha', hamap', hb'⟩ := h'
    have haConn : aConn = aConn' :=
      Connection.ext (ih ha ha') (m.returnMaps.body?_inj hamap hamap')
    have hbConns : bConns = bConns' := by
      clear hrecord hrecord'
      generalize visited (row g) = rows at hb hb'
      induction hb generalizing bConns' with
      | nil =>
        cases hb'
        rfl
      | cons hrb _ ihb =>
        cases hb' with
        | cons hrb' hrest' =>
          rw [Connection.ext (ih hrb.1 hrb'.1) (m.returnMaps.body?_inj hrb.2 hrb'.2),
            ihb _ hrest']
    rw [haConn, hbConns] at hrecord
    exact m.nodes.record?_inj hrecord hrecord'

end Represents

end Cflobdd
