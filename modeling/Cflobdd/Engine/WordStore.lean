import Cflobdd.FirstVisit.Dedup
import Cflobdd.Hashing.Index

/-!
# The stores with machine words

The node store and the return-map store once more, now with the words of the code: indices
of 32 bits that are cut off from the length of a vector, packed connections, a hasher, and a
hash table that stores bare indices. The hasher and the hash table come from other packages
and are parameters.
-/

namespace Cflobdd.Words

open FirstVisit Hashing

/-- Index of a node in the node store. -/
structure NodeId where
  /-- The index itself. -/
  raw : UInt32
  deriving DecidableEq, Repr

/-- Index of a return map in the return-map store. -/
structure ReturnMapId where
  /-- The index itself. -/
  raw : UInt32
  deriving DecidableEq, Repr

/-- `DONT_CARE`: the level-0 leaf of the constant functions. -/
def NodeId.dontCare : NodeId := ⟨0⟩

/-- `FORK`: the level-0 leaf of the identity function. -/
def NodeId.fork : NodeId := ⟨1⟩

/-- The position in the node store that an index names. -/
def NodeId.position (id : NodeId) : ℕ := id.raw.toNat

/-- An edge from a node to a child. -/
structure Connection where
  /-- The child. -/
  target : NodeId
  /-- The translation of its exits. -/
  returnMap : ReturnMapId
  deriving DecidableEq, Repr

/-- `pack`: the target in the low half of a word, the return map in the high half. -/
def Connection.pack (c : Connection) : UInt64 :=
  c.target.raw.toUInt64 ||| (c.returnMap.raw.toUInt64 <<< 32)

/-- The payload of a node. -/
inductive NodeRecord where
  /-- Level-0 leaf with one exit. -/
  | dontCare
  /-- Level-0 leaf with an exit for each value of its variable. -/
  | fork
  /-- Node of a positive level. -/
  | internal (level : UInt8) (numExits : UInt32) (aConn : Connection) (bConns : List Connection)
  deriving DecidableEq, Repr

/-- The record of an internal node. -/
def NodeRecord.IsInternal : NodeRecord → Prop
  | internal _ _ _ _ => True
  | _ => False

/-- A hasher: words are written into a state, and a hash is read off it. -/
structure Hasher where
  /-- What the hasher has been given so far. -/
  State : Type
  /-- `build_hasher` -/
  build : State
  writeU8 : State → UInt8 → State
  writeU32 : State → UInt32 → State
  writeU64 : State → UInt64 → State
  /-- A `usize` is a word of 64 bits. -/
  writeUsize : State → UInt64 → State
  finish : State → UInt64

/-- `Hash for NodeRecord` -/
def NodeRecord.hash (H : Hasher) (state : H.State) : NodeRecord → H.State
  | dontCare => H.writeU8 state 0
  | fork => H.writeU8 state 1
  | internal level numExits aConn bConns =>
    let state := H.writeU8 state 2
    let state := H.writeU32 state level.toUInt32
    let state := H.writeU32 state numExits
    let state := H.writeU64 state aConn.pack
    let state := H.writeUsize state (UInt64.ofNat bConns.length)
    bConns.foldl (fun state b => H.writeU64 state b.pack) state

/-- The contents of an internal node as `intern_internal` is given them, with the debug
assertions that they pass. -/
structure Contents where
  level : UInt8
  numExits : UInt32
  aConn : Connection
  bConns : List Connection
  /-- "internal nodes must be level ≥ 1" -/
  level_pos : 1 ≤ level
  /-- "internal nodes must have ≥ 1 exit" -/
  numExits_pos : 1 ≤ numExits
  /-- "internal nodes must have ≥ 1 B-connection" -/
  bConns_ne_nil : bConns ≠ []
  deriving DecidableEq

/-- The record made from the contents. -/
def Contents.record (c : Contents) : NodeRecord := .internal c.level c.numExits c.aConn c.bConns

/-- Store of nodes. -/
structure NodeStore (T : HashTable NodeId) where
  /-- The records in the order of their indices. -/
  records : List NodeRecord
  /-- The dedup table: the indices of the internal nodes. -/
  index : T.State

namespace NodeStore

variable (H : Hasher) {T : HashTable NodeId}

/-- The store with the two leaves. -/
def new (T : HashTable NodeId) : NodeStore T := ⟨[.dontCare, .fork], T.empty⟩

/-- `hash_candidate`: the hash of a record that is not made yet. -/
def hashCandidate (level : UInt8) (numExits : UInt32) (aConn : Connection)
    (bConns : List Connection) : UInt64 :=
  let h := H.build
  let h := H.writeU8 h 2
  let h := H.writeU32 h level.toUInt32
  let h := H.writeU32 h numExits
  let h := H.writeU64 h aConn.pack
  let h := H.writeUsize h (UInt64.ofNat bConns.length)
  H.finish (bConns.foldl (fun h b => H.writeU64 h b.pack) h)

/-- The test of `find`: the record under an index has the fields of the candidate. -/
def sameFields (s : NodeStore T) (c : Contents) (existing : NodeId) : Bool :=
  match s.records[existing.position]? with
  | some (.internal el en ea eb) =>
    el == c.level && en == c.numExits && ea == c.aConn && eb == c.bConns
  | _ => false

/-- The lookup of a candidate in the dedup table. -/
def find (s : NodeStore T) (c : Contents) : Option NodeId :=
  T.find s.index (hashCandidate H c.level c.numExits c.aConn c.bConns) (s.sameFields c)

/-- The rehasher closure of `insert_unique`: the hash of the record under an index. -/
def rehasher (records : List NodeRecord) (existing : NodeId) : UInt64 :=
  match records[existing.position]? with
  | some r => H.finish (r.hash H H.build)
  | none => 0

/-- `intern_internal`: hash-cons an internal node. -/
def internInternal (s : NodeStore T) (c : Contents) : NodeId × NodeStore T :=
  let hash := hashCandidate H c.level c.numExits c.aConn c.bConns
  match s.find H c with
  | some id => (id, s)
  | none =>
    -- The length of the vector, cut off to 32 bits.
    let id : NodeId := ⟨UInt32.ofNat s.records.length⟩
    let records := s.records ++ [c.record]
    (id, ⟨records, T.insertUnique s.index hash id (rehasher H records)⟩)

/-- The record stored under an index. -/
def record? (s : NodeStore T) (id : NodeId) : Option NodeRecord := s.records[id.position]?

end NodeStore

/-- Store of return maps. -/
structure ReturnMapStore where
  /-- The bodies in the order of their indices. -/
  bodies : List (List UInt32)
  /-- The dedup table: contents to indices. -/
  index : Table (List UInt32) ReturnMapId

namespace ReturnMapStore

/-- The store without return maps. -/
def new : ReturnMapStore := ⟨[], .empty⟩

/-- `intern`: hash-cons a return-map body. -/
def intern (s : ReturnMapStore) (body : List UInt32) : ReturnMapId × ReturnMapStore :=
  match s.index.get? body with
  | some id => (id, s)
  | none =>
    let id : ReturnMapId := ⟨UInt32.ofNat s.bodies.length⟩
    (id, ⟨s.bodies ++ [body], s.index.insert body id⟩)

/-- The body stored under an index. -/
def body? (s : ReturnMapStore) (id : ReturnMapId) : Option (List UInt32) := s.bodies[id.raw.toNat]?

end ReturnMapStore

/-- `FxHasher`: every word is added to the state, which is then multiplied by a constant. -/
def fxHasher : Hasher where
  State := UInt64
  build := 0
  writeU8 h w := (h + w.toUInt64) * 0xf1357aea2e62a9c5
  writeU32 h w := (h + w.toUInt64) * 0xf1357aea2e62a9c5
  writeU64 h w := (h + w) * 0xf1357aea2e62a9c5
  writeUsize h w := (h + w) * 0xf1357aea2e62a9c5
  finish h := (h <<< 26) ||| (h >>> 38)

end Cflobdd.Words
