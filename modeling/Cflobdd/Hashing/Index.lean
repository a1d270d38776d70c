import Cflobdd.Hashing.HashTable

/-!
# A hash table beside a list of records

The table stores only ids. What an id stands for is read off the list of records, which
grows in the same step in which the id is stored. As long as an id is stored with its own
position, the table finds every record of the kind that is indexed, however often it has
grown in between.
-/

namespace Hashing

variable {ι ρ : Type} [DecidableEq ρ]

section Closures

variable (position : ι → ℕ) (hash : ρ → UInt64) (records : List ρ)

/-- The id stands for the record. -/
def names (r : ρ) (id : ι) : Bool := decide (records[position id]? = some r)

/-- The hash of the record that the id stands for. -/
def rehash (id : ι) : UInt64 :=
  match records[position id]? with
  | some r => hash r
  | none => 0

end Closures

/-- The table indexes the records of a kind: every stored id stands for one of them, and
each of them is stored under its hash. -/
structure Indexes (T : HashTable ι) (position : ι → ℕ) (hash : ρ → UInt64) (kind : ρ → Prop)
    (records : List ρ) (table : T.State) : Prop where
  stored : ∀ h id, T.Placed table h id → ∃ r, records[position id]? = some r ∧ kind r
  placed : ∀ i r, records[i]? = some r → kind r →
    ∃ id, position id = i ∧ T.Placed table (hash r) id

namespace Indexes

variable {T : HashTable ι} {position : ι → ℕ} {hash : ρ → UInt64} {kind : ρ → Prop}
  {records : List ρ} {table : T.State}

omit [DecidableEq ρ] in
/-- The empty table indexes records none of which is to be placed. -/
theorem empty (hT : T.Lawful) (h : ∀ r ∈ records, ¬kind r) :
    Indexes T position hash kind records T.empty where
  stored h' id hid := absurd hid (hT.not_placed_empty h' id)
  placed _ r hr hkind := absurd hkind (h r (List.mem_of_getElem? hr))

/-- An id that is found stands for the record. -/
theorem getElem?_of_find (hT : T.Lawful) {h : UInt64} {r : ρ} {id : ι}
    (hfind : T.find table h (names position records r) = some id) :
    records[position id]? = some r :=
  of_decide_eq_true (hT.find_some _ _ _ _ hfind).1

/-- A record of the kind that is not found is not there. -/
theorem not_mem_of_find (hT : T.Lawful) (h : Indexes T position hash kind records table) {r : ρ}
    (hkind : kind r) (hfind : T.find table (hash r) (names position records r) = none) :
    r ∉ records := by
  intro hmem
  obtain ⟨i, hi⟩ := List.getElem?_of_mem hmem
  obtain ⟨id, hid, hplaced⟩ := h.placed i r hi hkind
  have hnames : names position records r id = true := by
    refine decide_eq_true ?_
    rw [hid, hi]
  obtain ⟨id', hid'⟩ := hT.find_placed _ _ _ _ hplaced hnames
  rw [hfind] at hid'
  cases hid'

/-- A record of the kind that is there is found. -/
theorem exists_find (hT : T.Lawful) (h : Indexes T position hash kind records table) {r : ρ}
    (hkind : kind r) (hmem : r ∈ records) :
    ∃ id, T.find table (hash r) (names position records r) = some id := by
  rw [← Option.ne_none_iff_exists']
  exact fun hfind => h.not_mem_of_find hT hkind hfind hmem

omit [DecidableEq ρ] in
/-- A new record and an id with its position. -/
theorem insert (hT : T.Lawful) (h : Indexes T position hash kind records table) {r : ρ} {id : ι}
    (hid : position id = records.length) (hkind : kind r) :
    Indexes T position hash kind (records ++ [r]) (T.insertUnique table (hash r) id
      (rehash position hash (records ++ [r]))) := by
  have hnew : (records ++ [r])[position id]? = some r := by
    rw [hid, List.getElem?_append_right (Nat.le_refl _), Nat.sub_self]
    rfl
  have hold : ∀ {i : ℕ} {s : ρ}, records[i]? = some s → (records ++ [r])[i]? = some s := by
    intro i s hs
    rw [List.getElem?_append_left (List.getElem?_eq_some_iff.mp hs).choose, hs]
  constructor
  · intro h' id' hplaced
    rcases hT.of_placed _ _ _ _ _ _ hplaced with rfl | ⟨h'', hplaced'⟩
    · exact ⟨r, hnew, hkind⟩
    · obtain ⟨s, hs, hkind'⟩ := h.stored h'' id' hplaced'
      exact ⟨s, hold hs, hkind'⟩
  · intro i s hs hkind'
    by_cases hi : i < records.length
    · rw [List.getElem?_append_left hi] at hs
      obtain ⟨id', rfl, hplaced⟩ := h.placed i s hs hkind'
      refine ⟨id', rfl, ?_⟩
      -- An entry placed anew is placed under the hash of its record again.
      rcases hT.placed_old _ (hash r) id (rehash position hash (records ++ [r])) _ _ hplaced with
        hkept | hmoved
      · exact hkept
      · rwa [rehash, hold hs] at hmoved
    · have hlt : i < (records ++ [r]).length := (List.getElem?_eq_some_iff.mp hs).choose
      rw [List.length_append, List.length_singleton] at hlt
      obtain rfl : i = records.length := by omega
      rw [← hid, hnew] at hs
      obtain rfl := Option.some.inj hs
      exact ⟨id, hid, hT.placed_insert _ _ _ _⟩

end Indexes

end Hashing
