import Cflobdd.FirstVisit.Dedup
import Mathlib.Tactic.Ring

/-!
# The node store and the return-map store

Nodes and return maps are kept in vectors and named by their index. Both stores
hash-cons: interning content that is already stored returns its old index. The
counters and indices of the code are 32-bit words; here they are natural numbers,
which is the same as long as the stores and exit counts stay below `2 ^ 31`. All
that is shown of managers and sessions is about the code within this bound.
-/

namespace Cflobdd

open FirstVisit

/-- Index of a node in the node store. -/
structure NodeId where
  /-- The index itself. -/
  raw : ℕ
  deriving DecidableEq, Repr

/-- Index of a return map in the return-map store. -/
structure ReturnMapId where
  /-- The index itself. -/
  raw : ℕ
  deriving DecidableEq, Repr

/-- The level-0 leaf of the constant functions. -/
def NodeId.dontCare : NodeId := ⟨0⟩

/-- The level-0 leaf of the identity function. -/
def NodeId.fork : NodeId := ⟨1⟩

/-- An edge from a node to a child. The return map translates the exits of the
child into exits of the parent or, for an A-connection, into B-connections. -/
@[ext] structure Connection where
  /-- The child. -/
  target : NodeId
  /-- The translation of its exits. -/
  returnMap : ReturnMapId
  deriving DecidableEq, Repr

/-- The payload of a node. -/
inductive NodeRecord where
  /-- Level-0 leaf with one exit. -/
  | dontCare
  /-- Level-0 leaf with an exit for each value of its variable. -/
  | fork
  /-- Node of a positive level. The number of exits is cached. -/
  | internal (level numExits : ℕ) (aConn : Connection) (bConns : List Connection)
  deriving DecidableEq, Repr

namespace NodeRecord

/-- Number of exits: one for `DontCare`, two for `Fork`, cached on `Internal`. -/
def numExits : NodeRecord → ℕ
  | dontCare => 1
  | fork => 2
  | internal _ numExits _ _ => numExits

/-- Level: zero for both leaves, cached on `Internal`. -/
def level : NodeRecord → ℕ
  | dontCare | fork => 0
  | internal level _ _ _ => level

end NodeRecord

/-- Store of return-map bodies, each kept once, with a table from bodies to indices. -/
structure ReturnMapStore where
  /-- The bodies in the order of their indices and the table. -/
  table : Dedup (List ℕ)

namespace ReturnMapStore

/-- The store without return maps. -/
def new : ReturnMapStore := ⟨.empty⟩

/-- The bodies in the order of their indices. -/
def bodies (s : ReturnMapStore) : List (List ℕ) := s.table.seen

/-- Hash-cons a body: identical contents return the same index. A fresh index is the number of
bodies stored so far, which the code cuts off to 32 bits: `Words.ReturnMapStore.refines` has the
bound below which this is the same. -/
def intern (s : ReturnMapStore) (body : List ℕ) : ReturnMapId × ReturnMapStore :=
  (⟨(s.table.position body).1⟩, ⟨(s.table.position body).2⟩)

/-- The body stored under an index. -/
def body? (s : ReturnMapStore) (id : ReturnMapId) : Option (List ℕ) := s.bodies[id.raw]?

/-- Number of stored return maps. -/
def count (s : ReturnMapStore) : ℕ := s.bodies.length

/-- Interning adds a body that is not stored yet. -/
@[simp] theorem bodies_intern (s : ReturnMapStore) (body : List ℕ) :
    (s.intern body).2.bodies = see s.bodies body := (s.table.position_spec body).2

/-- It returns the position of the body. -/
@[simp] theorem intern_raw (s : ReturnMapStore) (body : List ℕ) :
    (s.intern body).1.raw = rank (see s.bodies body) body := (s.table.position_spec body).1

/-- A stored body has one index. -/
theorem body?_inj (s : ReturnMapStore) {id id' : ReturnMapId} {body : List ℕ}
    (h : s.body? id = some body) (h' : s.body? id' = some body) : id = id' := by
  have hrank := rank_of_getElem? s.table.nodup h
  rw [rank_of_getElem? s.table.nodup h'] at hrank
  cases id
  cases id'
  simp_all

end ReturnMapStore

/-- Store of nodes. Only the leaves and interned nodes are in it, each record once. -/
structure NodeStore where
  /-- The records in the order of their indices. -/
  records : List NodeRecord
  /-- The dedup table: the indices of the internal nodes. -/
  index : List NodeId
  /-- The leaves have the first two indices. -/
  leaves : records.take 2 = [.dontCare, .fork]
  /-- The dedup table holds every index past the leaves. -/
  indexed : ∀ id : NodeId, id ∈ index ↔ 2 ≤ id.raw ∧ id.raw < records.length
  /-- No record is stored twice. -/
  nodup : records.Nodup

namespace NodeStore

/-- The store with the two leaves. -/
def new : NodeStore where
  records := [.dontCare, .fork]
  index := []
  leaves := rfl
  indexed := by
    intro id
    simp only [List.not_mem_nil, List.length_cons, List.length_nil, false_iff]
    omega
  nodup := by decide

/-- The leaves are always stored. -/
theorem length_records (s : NodeStore) : 2 ≤ s.records.length := by
  have h := congrArg List.length s.leaves
  simp only [List.length_take, List.length_cons, List.length_nil] at h
  omega

/-- `DontCare` has the first index. -/
theorem records_dontCare (s : NodeStore) : s.records[0]? = some .dontCare := by
  rw [← List.getElem?_take_of_lt (show 0 < 2 by decide), s.leaves]
  rfl

/-- `Fork` has the second index. -/
theorem records_fork (s : NodeStore) : s.records[1]? = some .fork := by
  rw [← List.getElem?_take_of_lt (show 1 < 2 by decide), s.leaves]
  rfl

/-- The record stored under an index. -/
def record? (s : NodeStore) (id : NodeId) : Option NodeRecord := s.records[id.raw]?

/-- Number of stored nodes. -/
def count (s : NodeStore) : ℕ := s.records.length

/-- The lookup of a candidate in the dedup table. -/
def find? (s : NodeStore) (record : NodeRecord) : Option NodeId :=
  s.index.find? fun id => decide (s.records[id.raw]? = some record)

/-- A stored record has one index. -/
theorem record?_inj (s : NodeStore) {id id' : NodeId} {record : NodeRecord}
    (h : s.record? id = some record) (h' : s.record? id' = some record) : id = id' := by
  have hrank := rank_of_getElem? s.nodup h
  rw [rank_of_getElem? s.nodup h'] at hrank
  cases id
  cases id'
  simp_all

/-- The dedup table finds an internal record exactly if it is stored. -/
theorem not_mem_of_find? (s : NodeStore) {level numExits : ℕ} {aConn : Connection}
    {bConns : List Connection} (h : s.find? (.internal level numExits aConn bConns) = none) :
    NodeRecord.internal level numExits aConn bConns ∉ s.records := by
  intro hmem
  obtain ⟨i, hi⟩ := List.getElem?_of_mem hmem
  have hlt : i < s.records.length := (List.getElem?_eq_some_iff.mp hi).choose
  have hge : 2 ≤ i := by
    by_contra hsmall
    obtain rfl | rfl : i = 0 ∨ i = 1 := by omega
    · rw [s.records_dontCare] at hi
      cases hi
    · rw [s.records_fork] at hi
      cases hi
  have hnone := List.find?_eq_none.mp h ⟨i⟩ ((s.indexed ⟨i⟩).mpr ⟨hge, hlt⟩)
  simp [hi] at hnone

/-- What the dedup table finds is the record that was looked for. -/
theorem find?_eq_some (s : NodeStore) {record : NodeRecord} {id : NodeId}
    (h : s.find? record = some id) : s.records[id.raw]? = some record := by
  simpa using List.find?_some h

/-- Hash-cons an internal node: identical structure returns the same index. A fresh index is the
number of nodes stored so far, which the code cuts off to 32 bits: `Words.NodeStore.refines` has
the bound below which this is the same. -/
def internInternal (s : NodeStore) (level numExits : ℕ) (aConn : Connection)
    (bConns : List Connection) : NodeId × NodeStore :=
  match h : s.find? (.internal level numExits aConn bConns) with
  | some id => (id, s)
  | none =>
    (⟨s.records.length⟩,
      { records := s.records ++ [.internal level numExits aConn bConns]
        index := ⟨s.records.length⟩ :: s.index
        leaves := by rw [List.take_append_of_le_length s.length_records, s.leaves]
        indexed := by
          rintro ⟨i⟩
          have hlen := s.length_records
          simp only [List.mem_cons, NodeId.mk.injEq, s.indexed, List.length_append,
            List.length_singleton]
          omega
        nodup := by
          rw [← see_of_not_mem (s.not_mem_of_find? h)]
          exact nodup_see s.nodup })

/-- Interning returns the position of the record, which is added if it is not stored yet. -/
theorem internInternal_spec (s : NodeStore) (level numExits : ℕ) (aConn : Connection)
    (bConns : List Connection) :
    (s.internInternal level numExits aConn bConns).1.raw =
        rank (see s.records (.internal level numExits aConn bConns))
          (.internal level numExits aConn bConns) ∧
      (s.internInternal level numExits aConn bConns).2.records =
        see s.records (.internal level numExits aConn bConns) := by
  unfold internInternal
  split
  next id h =>
    have hid := s.find?_eq_some h
    rw [see_of_mem (List.mem_of_getElem? hid), rank_of_getElem? s.nodup hid]
    exact ⟨rfl, rfl⟩
  next h =>
    have hnot := s.not_mem_of_find? h
    rw [see_of_not_mem hnot, rank_append_self hnot]
    exact ⟨rfl, rfl⟩

end NodeStore

end Cflobdd
