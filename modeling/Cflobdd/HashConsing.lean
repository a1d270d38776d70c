import Cflobdd.Engine.WordStore
import Cflobdd.Hashing.Interner
import Mathlib.Algebra.Group.Nat.Even

/-!
# Hash-consing never duplicates

As long as the records fit into the words that name them, the node store numbers them by
first occurrence: equal contents get one id and one record, whatever the hash table does when
it grows. The two hash functions have to agree for that, since a record is looked up under
the one and placed anew under the other.
-/

namespace Cflobdd.Words

open FirstVisit Hashing

/-- Indices with one position are equal. -/
theorem NodeId.position_injective : Function.Injective NodeId.position := by
  rintro ⟨raw⟩ ⟨raw'⟩ h
  exact congrArg NodeId.mk (UInt32.toNat.inj h)

/-- An index is cut off at `2 ^ 32`. -/
theorem NodeId.position_ofNat (n : ℕ) : NodeId.position ⟨UInt32.ofNat n⟩ = n % 2 ^ 32 :=
  UInt32.toNat_ofNat'

/-- Different contents have different records. -/
theorem Contents.record_injective : Function.Injective Contents.record := by
  rintro ⟨level, numExits, aConn, bConns⟩ ⟨level', numExits', aConn', bConns'⟩ h
  simp only [record, NodeRecord.internal.injEq] at h
  obtain ⟨rfl, rfl, rfl, rfl⟩ := h
  rfl

/-- Contents are those of internal nodes. -/
theorem Contents.isInternal_record (c : Contents) : c.record.IsInternal := trivial

/-- The records of a new node store. -/
def leaves : List NodeRecord := [.dontCare, .fork]

/-- The leaves differ. -/
theorem nodup_leaves : leaves.Nodup := by decide

/-- The leaves are not internal. -/
theorem not_isInternal_of_mem_leaves {r : NodeRecord} (h : r ∈ leaves) : ¬r.IsInternal := by
  simp only [leaves, List.mem_cons, List.not_mem_nil, or_false] at h
  rcases h with rfl | rfl <;> exact id

/-- No contents have the record of a leaf. -/
theorem Contents.record_notMem_leaves (c : Contents) : c.record ∉ leaves :=
  fun h => not_isInternal_of_mem_leaves h c.isInternal_record

namespace NodeStore

variable (H : Hasher) {T : HashTable NodeId}

/-- The hash of a record, as the table uses it when it grows. -/
def hashRecord (r : NodeRecord) : UInt64 := H.finish (r.hash H H.build)

/-- The two hash functions agree. -/
theorem hashCandidate_eq (level : UInt8) (numExits : UInt32) (aConn : Connection)
    (bConns : List Connection) :
    hashCandidate H level numExits aConn bConns =
      hashRecord H (.internal level numExits aConn bConns) := rfl

/-- The test of the lookup is for the record of the candidate. -/
theorem sameFields_eq (s : NodeStore T) (c : Contents) :
    s.sameFields c = names NodeId.position s.records c.record := by
  funext existing
  unfold sameFields names
  rcases s.records[existing.position]? with - | - | - | ⟨level, numExits, aConn, bConns⟩
  · rfl
  · rfl
  · rfl
  · rw [Bool.eq_iff_iff]
    simp only [Contents.record, Option.some.injEq, NodeRecord.internal.injEq, Bool.and_eq_true,
      beq_iff_eq, decide_eq_true_eq, and_assoc]

/-- The lookup is by the hash of the record and the equality of records. -/
theorem find_eq (s : NodeStore T) (c : Contents) :
    s.find H c = T.find s.index (hashRecord H c.record)
      (names NodeId.position s.records c.record) := by
  rw [find, sameFields_eq]
  rfl

/-- The rehasher gives each index the hash of its record. -/
theorem rehasher_eq (records : List NodeRecord) :
    rehasher H records = rehash NodeId.position (hashRecord H) records := by
  funext existing
  unfold rehasher rehash
  cases records[existing.position]? <;> rfl

/-- A record that is found keeps its index. -/
theorem internInternal_of_hit {s : NodeStore T} {c : Contents} {id : NodeId}
    (h : s.find H c = some id) : s.internInternal H c = (id, s) := by
  unfold internInternal
  rw [h]

/-- A record that is not found is appended, and its index is placed under its hash. -/
theorem internInternal_of_miss {s : NodeStore T} {c : Contents} (h : s.find H c = none) :
    s.internInternal H c = (⟨UInt32.ofNat s.records.length⟩, ⟨s.records ++ [c.record],
      T.insertUnique s.index (hashRecord H c.record) ⟨UInt32.ofNat s.records.length⟩
        (rehash NodeId.position (hashRecord H) (s.records ++ [c.record]))⟩) := by
  unfold internInternal
  rw [h, ← rehasher_eq]
  rfl

/-- The store has numbered the records seen so far, and the table finds them. -/
structure Follows (s : NodeStore T) (seen : List NodeRecord) : Prop where
  records_eq : s.records = seen
  nodup : seen.Nodup
  indexes : Indexes T NodeId.position (hashRecord H) NodeRecord.IsInternal seen s.index

namespace Follows

variable {H} {s : NodeStore T} {seen : List NodeRecord}

/-- The new store holds the leaves and places nothing. -/
theorem new (hT : T.Lawful) : (NodeStore.new T).Follows H leaves where
  records_eq := rfl
  nodup := nodup_leaves
  indexes := .empty hT fun _ => not_isInternal_of_mem_leaves

/-- What the lookup finds is the record that was looked for. -/
theorem getElem?_of_hit (hT : T.Lawful) (h : s.Follows H seen) {c : Contents} {id : NodeId}
    (hit : s.find H c = some id) : seen[id.position]? = some c.record := by
  rw [find_eq, h.records_eq] at hit
  exact Indexes.getElem?_of_find hT hit

/-- A record that is not found is not stored. -/
theorem not_mem_of_miss (hT : T.Lawful) (h : s.Follows H seen) {c : Contents}
    (miss : s.find H c = none) : c.record ∉ seen := by
  rw [find_eq, h.records_eq] at miss
  exact h.indexes.not_mem_of_find hT c.isInternal_record miss

/-- A record that was seen is found under its number. -/
theorem find (hT : T.Lawful) (h : s.Follows H seen) {c : Contents} {id : NodeId}
    (hid : seen[id.position]? = some c.record) : s.find H c = some id := by
  obtain ⟨id', hit⟩ := h.indexes.exists_find hT c.isInternal_record (List.mem_of_getElem? hid)
  rw [← h.records_eq, ← find_eq] at hit
  have hposition : id'.position = id.position := by
    rw [← rank_of_getElem? h.nodup (h.getElem?_of_hit hT hit), rank_of_getElem? h.nodup hid]
  rw [hit, NodeId.position_injective hposition]

/-- A call adds its record if it is new, whether its index fits or not. -/
theorem records_internInternal (hT : T.Lawful) (h : s.Follows H seen) (c : Contents) :
    (s.internInternal H c).2.records = see seen c.record := by
  cases hfind : s.find H c with
  | some id =>
    rw [internInternal_of_hit H hfind,
      see_of_mem (List.mem_of_getElem? (h.getElem?_of_hit hT hfind)), h.records_eq]
  | none =>
    rw [internInternal_of_miss H hfind, see_of_not_mem (h.not_mem_of_miss hT hfind), h.records_eq]

/-- A call whose index fits into its word numbers its record. -/
theorem internInternal (hT : T.Lawful) (h : s.Follows H seen) {c : Contents}
    (hfits : (see seen c.record).length ≤ 2 ^ 32) :
    (s.internInternal H c).2.Follows H (see seen c.record) ∧
      (s.internInternal H c).1.position = rank (see seen c.record) c.record := by
  cases hfind : s.find H c with
  | some id =>
    have hid := h.getElem?_of_hit hT hfind
    rw [internInternal_of_hit H hfind, see_of_mem (List.mem_of_getElem? hid)]
    exact ⟨h, (rank_of_getElem? h.nodup hid).symm⟩
  | none =>
    have hnot := h.not_mem_of_miss hT hfind
    rw [see_of_not_mem hnot, List.length_append, List.length_singleton] at hfits
    have hposition : NodeId.position ⟨UInt32.ofNat seen.length⟩ = seen.length := by
      rw [NodeId.position_ofNat, Nat.mod_eq_of_lt (by omega)]
    rw [internInternal_of_miss H hfind, see_of_not_mem hnot, rank_append_self hnot, h.records_eq]
    refine ⟨⟨rfl, ?_, h.indexes.insert hT hposition c.isInternal_record⟩, hposition⟩
    rw [← see_of_not_mem hnot]
    exact nodup_see h.nodup

end Follows

/-- The node store as a store that hands out ids. -/
def interner (T : HashTable NodeId) : Interner Contents NodeId NodeRecord where
  State := NodeStore T
  new := .new T
  intern := internInternal H
  resolve := record?
  record := Contents.record

/-- A store whose records fit numbers them by first occurrence. -/
theorem numbers (hT : T.Lawful) {calls : List Contents}
    (hfits : ((interner H T).contents leaves calls).length ≤ 2 ^ 32) :
    ((interner H T).after calls).Follows H ((interner H T).contents leaves calls) ∧
      (interner H T).Numbers NodeId.position leaves calls := by
  refine Interner.numbers_of_step (Follows H) (Follows.new hT) ?_
    (fun h => h.internInternal hT) hfits
  intro s seen h id
  rw [← h.records_eq]
  rfl

/-- Interning only appends. -/
theorem records_isPrefix (s : NodeStore T) (c : Contents) :
    s.records <+: (s.internInternal H c).2.records := by
  cases hfind : s.find H c with
  | some id => rw [internInternal_of_hit H hfind]
  | none =>
    rw [internInternal_of_miss H hfind]
    exact List.prefix_append _ _

/-- If the records that are stored fit, so do the records seen. -/
theorem length_contents_le (hT : T.Lawful) {calls : List Contents}
    (hfits : ((interner H T).after calls).records.length ≤ 2 ^ 32) :
    ((interner H T).contents leaves calls).length ≤ 2 ^ 32 := by
  induction calls using List.reverseRecOn with
  | nil => exact show leaves.length ≤ 2 ^ 32 by decide
  | append_singleton calls c ih =>
    rw [Interner.after_concat] at hfits
    have hbefore := ih ((records_isPrefix H _ c).length_le.trans hfits)
    have hrecords := (numbers H hT hbefore).1.records_internInternal hT c
    rw [Interner.contents_concat]
    exact hrecords ▸ hfits

/-- Every index in the table names a record, also when indices were cut off, so that neither
a lookup nor a growing table reads past the records. -/
theorem placed_lt (hT : T.Lawful) (calls : List Contents) {h : UInt64} {id : NodeId}
    (hid : T.Placed ((interner H T).after calls).index h id) :
    id.position < ((interner H T).after calls).records.length := by
  induction calls using List.reverseRecOn generalizing h with
  | nil => exact absurd hid (hT.not_placed_empty h id)
  | append_singleton calls c ih =>
    rw [Interner.after_concat] at hid ⊢
    change T.Placed (internInternal H ((interner H T).after calls) c).2.index h id at hid
    change id.position < (internInternal H ((interner H T).after calls) c).2.records.length
    cases hfind : ((interner H T).after calls).find H c with
    | some id' =>
      rw [internInternal_of_hit H hfind] at hid ⊢
      exact ih hid
    | none =>
      rw [internInternal_of_miss H hfind] at hid ⊢
      rw [List.length_append, List.length_singleton]
      rcases hT.of_placed _ _ _ _ _ _ hid with rfl | ⟨h', hold⟩
      · rw [NodeId.position_ofNat]
        exact Nat.lt_succ_of_le (Nat.mod_le _ _)
      · exact Nat.lt_succ_of_lt (ih hold)

end NodeStore

/-- Contents of a node of level 1, told apart by a number. -/
def sampleContents (i : ℕ) : Contents where
  level := 1
  numExits := 1
  aConn := ⟨.fork, ⟨UInt32.ofNat i⟩⟩
  bConns := [⟨.dontCare, ⟨0⟩⟩]
  level_pos := by decide
  numExits_pos := by decide
  bConns_ne_nil := List.cons_ne_nil _ _

/-- What hash-consing promises of a sequence of calls. -/
structure NeverDuplicates (H : Hasher) (T : HashTable NodeId) (calls : List Contents) : Prop where
  /-- Calls with equal contents return the same id. -/
  same_id : ∀ {before before' c}, before ++ [c] <+: calls → before' ++ [c] <+: calls →
    (NodeStore.interner H T).idAfter before c = (NodeStore.interner H T).idAfter before' c
  /-- No two records are equal. -/
  nodup : ((NodeStore.interner H T).after calls).records.Nodup
  /-- The record of a call is there from then on, and every lookup finds it. -/
  found : ∀ {before c later}, before ++ [c] <+: later → later <+: calls →
    ((NodeStore.interner H T).after later).record? ((NodeStore.interner H T).idAfter before c) =
        some c.record ∧
      ((NodeStore.interner H T).after later).find H c =
        some ((NodeStore.interner H T).idAfter before c)
  /-- The first two records are the leaves. -/
  first_two : ((NodeStore.interner H T).after calls).records.take 2 = [.dontCare, .fork]

/-- Hash-consing never duplicates: for every sequence of calls whose records can be named by a
word, and for every hash table that finds what is placed under its hash. A candidate is hashed
as the record made from it. -/
theorem hash_consing (H : Hasher) {T : HashTable NodeId} (hT : T.Lawful) :
    (∀ level numExits aConn bConns, NodeStore.hashCandidate H level numExits aConn bConns =
      H.finish ((NodeRecord.internal level numExits aConn bConns).hash H H.build)) ∧
    ∀ calls : List Contents,
      ((NodeStore.interner H T).after calls).records.length ≤ 2 ^ 32 →
        NeverDuplicates H T calls := by
  refine ⟨NodeStore.hashCandidate_eq H, ?_⟩
  intro calls hfits
  have hcontents := NodeStore.length_contents_le H hT hfits
  obtain ⟨hfollows, hnumbers⟩ := NodeStore.numbers H hT hcontents
  refine ⟨hnumbers.idAfter_eq NodeId.position_injective, ?_, ?_, ?_⟩
  · rw [hfollows.records_eq]
    exact hfollows.nodup
  · intro before c later hcall hlater
    have hresolves := hnumbers.resolves hcall hlater
    have hle := ((NodeStore.interner H T).contents_isPrefix leaves hlater).length_le
    have hfollows' := (NodeStore.numbers H hT (hle.trans hcontents)).1
    refine ⟨hresolves, hfollows'.find hT ?_⟩
    rw [← hfollows'.records_eq]
    exact hresolves
  · obtain ⟨rest, hrest⟩ := (NodeStore.interner H T).start_isPrefix nodup_leaves calls
    rw [hfollows.records_eq, ← hrest]
    rfl

/-- The table grows at the first and at the fifth record. -/
theorem hash_consing_sample :
    NeverDuplicates fxHasher (Buckets.table NodeId) ([0, 1, 2, 0, 3, 4, 1].map sampleContents) ∧
      ((NodeStore.interner fxHasher (Buckets.table NodeId)).after
        ([0, 1, 2, 0, 3, 4, 1].map sampleContents)).records.length = 7 :=
  ⟨(hash_consing fxHasher (Buckets.lawful NodeId)).2 _ (by decide +kernel), by decide +kernel⟩

end Cflobdd.Words
