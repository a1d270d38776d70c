import Mathlib.Data.List.Basic

/-!
# Hash tables of bare entries

A hash table that stores entries without keys: the caller computes the hashes, says by a
predicate which entry is looked for, and gives a closure by which entries are placed anew
when the table grows. `Lawful` is what may be relied on: an entry is found under the hash
under which it was last placed, and nothing is found that was not stored.
-/

namespace Hashing

/-- A hash table of entries. -/
structure HashTable (ε : Type) where
  /-- The table. -/
  State : Type
  /-- The table without entries. -/
  empty : State
  /-- An entry that the predicate accepts, looked for under the hash. -/
  find : State → UInt64 → (ε → Bool) → Option ε
  /-- Store an entry under a hash. When the table grows, the entries stored before are
  placed under the hashes that the closure gives them. -/
  insertUnique : State → UInt64 → ε → (ε → UInt64) → State
  /-- The entry is stored, and was last placed under the hash. -/
  Placed : State → UInt64 → ε → Prop

/-- What is relied on of a hash table. -/
structure HashTable.Lawful {ε : Type} (T : HashTable ε) : Prop where
  not_placed_empty : ∀ h x, ¬T.Placed T.empty h x
  placed_insert : ∀ t h x rehash, T.Placed (T.insertUnique t h x rehash) h x
  /-- A stored entry stays where it is or is placed anew by the closure. -/
  placed_old : ∀ t h x rehash h' y, T.Placed t h' y →
    T.Placed (T.insertUnique t h x rehash) h' y ∨
      T.Placed (T.insertUnique t h x rehash) (rehash y) y
  /-- Nothing else is stored. -/
  of_placed : ∀ t h x rehash h' y, T.Placed (T.insertUnique t h x rehash) h' y →
    y = x ∨ ∃ h'', T.Placed t h'' y
  /-- An entry that is found is stored and accepted. -/
  find_some : ∀ t h accepts x, T.find t h accepts = some x →
    accepts x = true ∧ ∃ h', T.Placed t h' x
  /-- An accepted entry that was placed under the hash is found, or another one is. -/
  find_placed : ∀ t h accepts x, T.Placed t h x → accepts x = true →
    ∃ y, T.find t h accepts = some y

/-- A table with buckets: the number of them and the entries with the hashes under which
they were placed. -/
structure Buckets (ε : Type) where
  /-- The number of buckets. -/
  capacity : ℕ
  /-- The entries, oldest first. -/
  entries : List (UInt64 × ε)

namespace Buckets

variable {ε : Type}

/-- The first accepted entry in the bucket of the hash. -/
def find (t : Buckets ε) (h : UInt64) (accepts : ε → Bool) : Option ε :=
  (t.entries.find? fun entry =>
    decide (entry.1.toNat % t.capacity = h.toNat % t.capacity) && accepts entry.2).map Prod.snd

/-- Add an entry. A full table first gets twice as many buckets, or four. -/
def insertUnique (t : Buckets ε) (h : UInt64) (x : ε) (rehash : ε → UInt64) : Buckets ε :=
  if t.entries.length < t.capacity then ⟨t.capacity, t.entries ++ [(h, x)]⟩
  else ⟨max 4 (2 * t.capacity), (t.entries.map fun entry => (rehash entry.2, entry.2)) ++ [(h, x)]⟩

/-- The hash table with buckets. -/
def table (ε : Type) : HashTable ε where
  State := Buckets ε
  empty := ⟨0, []⟩
  find := find
  insertUnique := insertUnique
  Placed t h x := (h, x) ∈ t.entries

/-- The entries after an insertion: the new one, and the old ones, rehashed if the table
was full. -/
theorem mem_insertUnique {t : Buckets ε} {h h' : UInt64} {x y : ε} {rehash : ε → UInt64} :
    (h', y) ∈ (t.insertUnique h x rehash).entries ↔ (h' = h ∧ y = x) ∨
      (if t.entries.length < t.capacity then (h', y) ∈ t.entries
        else h' = rehash y ∧ ∃ h'', (h'', y) ∈ t.entries) := by
  unfold insertUnique
  split
  · rw [List.mem_append, List.mem_singleton, Prod.mk.injEq, or_comm]
  · rw [List.mem_append, List.mem_singleton, Prod.mk.injEq, or_comm, List.mem_map]
    constructor
    · rintro (hnew | ⟨entry, hmem, heq⟩)
      · exact .inl hnew
      · obtain ⟨rfl, rfl⟩ := Prod.mk.injEq _ _ _ _ ▸ heq
        exact .inr ⟨rfl, entry.1, hmem⟩
    · rintro (hnew | ⟨rfl, h'', hmem⟩)
      · exact .inl hnew
      · exact .inr ⟨(h'', y), hmem, rfl⟩

/-- This table satisfies what is assumed of hash tables. -/
theorem lawful (ε : Type) : (table ε).Lawful where
  not_placed_empty _ _ := List.not_mem_nil
  placed_insert t h x rehash := mem_insertUnique.mpr (.inl ⟨rfl, rfl⟩)
  placed_old t h x rehash h' y hy := by
    by_cases hroom : t.entries.length < t.capacity
    · exact .inl (mem_insertUnique.mpr (.inr (by rwa [if_pos hroom])))
    · exact .inr (mem_insertUnique.mpr (.inr (by rw [if_neg hroom]; exact ⟨rfl, h', hy⟩)))
  of_placed t h x rehash h' y hy := by
    rcases mem_insertUnique.mp hy with ⟨-, rfl⟩ | hold
    · exact .inl rfl
    · split at hold
      · exact .inr ⟨h', hold⟩
      · exact .inr hold.2
  find_some t h accepts x hx := by
    obtain ⟨⟨h', y⟩, hentry, rfl⟩ := Option.map_eq_some_iff.mp hx
    have haccepts := List.find?_some hentry
    rw [Bool.and_eq_true] at haccepts
    exact ⟨haccepts.2, h', List.mem_of_find?_eq_some hentry⟩
  find_placed t h accepts x hx haccepts := by
    have hsome : (t.entries.find? fun entry => decide (entry.1.toNat % t.capacity =
        h.toNat % t.capacity) && accepts entry.2).isSome = true :=
      List.find?_isSome.mpr ⟨(h, x), hx, by simp [haccepts]⟩
    obtain ⟨entry, hentry⟩ := Option.isSome_iff_exists.mp hsome
    exact ⟨entry.2, congrArg (Option.map Prod.snd) hentry⟩

end Buckets

end Hashing
