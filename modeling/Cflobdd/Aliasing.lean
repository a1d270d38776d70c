import Cflobdd.HashConsing
import Mathlib.Order.Interval.Finset.Nat

/-!
# When ids alias

A fresh id is the length of a vector cut off to 32 bits. This file determines for which
sequences of calls the ids do not alias: those with at most as many different contents as
there are ids, where the node store has two ids less for the leaves. The first call past
that returns an id that stands for something else already, in the node store that of a leaf.
-/

namespace Cflobdd.Words

open FirstVisit Hashing

namespace NodeStore

/-- The ids of interned nodes do not alias, and none is the id of a leaf. -/
structure IdsHold (H : Hasher) (T : HashTable NodeId) (calls : List Contents) : Prop
    extends (interner H T).NeverAlias calls where
  /-- The ids of the leaves are reserved. -/
  reserved : ∀ {before c}, before ++ [c] <+: calls →
    (interner H T).idAfter before c ≠ .dontCare ∧ (interner H T).idAfter before c ≠ .fork

variable (H : Hasher) {T : HashTable NodeId}

/-- The node store holds the leaves and a record for each content. -/
theorem length_contents (T : HashTable NodeId) (calls : List Contents) :
    ((interner H T).contents leaves calls).length = 2 + calls.toFinset.card :=
  (interner H T).length_contents Contents.record_injective nodup_leaves
    Contents.record_notMem_leaves calls

/-- With no more contents than ids, all positions are words of 32 bits. -/
theorem length_contents_le_of_card_le (T : HashTable NodeId) {calls : List Contents}
    (hcard : calls.toFinset.card ≤ 2 ^ 32 - 2) :
    ((interner H T).contents leaves calls).length ≤ 2 ^ 32 := by
  rw [length_contents]
  omega

/-- As long as there are enough ids, they hold. -/
theorem idsHold_of_card_le (hT : T.Lawful) {calls : List Contents}
    (hcard : calls.toFinset.card ≤ 2 ^ 32 - 2) : IdsHold H T calls := by
  obtain ⟨-, hnumbers⟩ := numbers H hT (length_contents_le_of_card_le H T hcard)
  refine ⟨hnumbers.neverAlias Contents.record_injective, ?_⟩
  intro before c hcall
  have hle := hnumbers.length_le_position nodup_leaves hcall c.record_notMem_leaves
  have hne : ∀ id : NodeId, id.position < 2 → (interner H T).idAfter before c ≠ id := by
    rintro id hid rfl
    exact absurd hle (not_le_of_gt hid)
  exact ⟨hne .dontCare (by decide), hne .fork (by decide)⟩

variable {H} in
/-- If the ids hold, there are enough of them. -/
theorem IdsHold.card_le {calls : List Contents} (h : IdsHold H T calls) :
    calls.toFinset.card ≤ 2 ^ 32 - 2 := by
  rw [← Nat.card_Ico 2 (2 ^ 32)]
  refine h.toNeverAlias.card_le NodeId.position_injective ?_
  intro before c hcall
  obtain ⟨hdontCare, hfork⟩ := h.reserved hcall
  have hzero : ((interner H T).idAfter before c).position ≠ NodeId.dontCare.position :=
    fun heq => hdontCare (NodeId.position_injective heq)
  have hone : ((interner H T).idAfter before c).position ≠ NodeId.fork.position :=
    fun heq => hfork (NodeId.position_injective heq)
  change _ ≠ 0 at hzero
  change _ ≠ 1 at hone
  rw [Finset.mem_Ico]
  exact ⟨by omega, UInt32.toNat_lt _⟩

/-- The ids of the node store hold exactly as long as there are enough of them. -/
theorem idsHold_iff (hT : T.Lawful) (calls : List Contents) :
    IdsHold H T calls ↔ calls.toFinset.card ≤ 2 ^ 32 - 2 :=
  ⟨IdsHold.card_le, idsHold_of_card_le H hT⟩

/-- When every id is taken, new contents get the id of `DontCare`. -/
theorem idAfter_full (hT : T.Lawful) {before : List Contents}
    (hfull : before.toFinset.card = 2 ^ 32 - 2) {c : Contents} (hnew : c ∉ before) :
    (interner H T).idAfter before c = .dontCare ∧
      ((interner H T).after (before ++ [c])).record? .dontCare = some .dontCare := by
  have hlength : ((interner H T).contents leaves before).length = 2 ^ 32 := by
    rw [length_contents]
    omega
  obtain ⟨hfollows, -⟩ := numbers H hT hlength.le
  have hmiss : ((interner H T).after before).find H c = none := by
    by_contra hne
    obtain ⟨id, hit⟩ := Option.ne_none_iff_exists'.mp hne
    have hmem := List.mem_of_getElem? (hfollows.getElem?_of_hit hT hit)
    rcases ((interner H T).mem_contents leaves).mp hmem with hleaf | ⟨c', hc', heq⟩
    · exact c.record_notMem_leaves hleaf
    · exact hnew (Contents.record_injective heq ▸ hc')
  have hcall : (interner H T).intern ((interner H T).after before) c = _ :=
    internInternal_of_miss H hmiss
  constructor
  · rw [Interner.idAfter, hcall, hfollows.records_eq, hlength]
    rfl
  · rw [Interner.after_concat, hcall]
    obtain ⟨rest, hrest⟩ := (interner H T).start_isPrefix nodup_leaves before
    rw [hfollows.records_eq, ← hrest]
    rfl

end NodeStore

/-- Words with one number are equal. -/
theorem toNat_injective : Function.Injective UInt32.toNat := fun _ _ => UInt32.toNat.inj

/-- Indices with one number are equal. -/
theorem ReturnMapId.toNat_injective : Function.Injective fun id : ReturnMapId => id.raw.toNat := by
  rintro ⟨raw⟩ ⟨raw'⟩ h
  exact congrArg ReturnMapId.mk (UInt32.toNat.inj h)

namespace ReturnMapStore

/-- The store has numbered the bodies seen so far. The table keeps the numbers as they were
cut off. -/
structure Follows (s : ReturnMapStore) (seen : List (List UInt32)) : Prop where
  bodies_eq : s.bodies = seen
  nodup : seen.Nodup
  get?_of_mem : ∀ {body}, body ∈ seen →
    s.index.get? body = some ⟨UInt32.ofNat (rank seen body)⟩
  get?_of_notMem : ∀ {body}, body ∉ seen → s.index.get? body = none

namespace Follows

/-- The new store has seen nothing. -/
theorem new : ReturnMapStore.new.Follows [] where
  bodies_eq := rfl
  nodup := List.nodup_nil
  get?_of_mem h := absurd h List.not_mem_nil
  get?_of_notMem _ := rfl

/-- Interning returns the cut-off position of the body and adds the body if it is new. -/
theorem intern {s : ReturnMapStore} {seen : List (List UInt32)} (h : s.Follows seen)
    (body : List UInt32) :
    (s.intern body).2.Follows (see seen body) ∧
      (s.intern body).1 = ⟨UInt32.ofNat (rank (see seen body) body)⟩ := by
  by_cases hmem : body ∈ seen
  · have hintern : s.intern body = (⟨UInt32.ofNat (rank seen body)⟩, s) := by
      unfold ReturnMapStore.intern
      rw [h.get?_of_mem hmem]
    rw [hintern, see_of_mem hmem]
    exact ⟨h, rfl⟩
  · have hintern : s.intern body = (⟨UInt32.ofNat seen.length⟩, ⟨seen ++ [body],
        s.index.insert body ⟨UInt32.ofNat seen.length⟩⟩) := by
      unfold ReturnMapStore.intern
      rw [h.get?_of_notMem hmem, h.bodies_eq]
    rw [hintern, see_of_not_mem hmem, rank_append_self hmem]
    refine ⟨⟨rfl, ?_, ?_, ?_⟩, rfl⟩
    · rw [← see_of_not_mem hmem]
      exact nodup_see h.nodup
    · intro body' hbody'
      rcases List.mem_append.mp hbody' with hold | hnew
      · have hne : body ≠ body' := fun heq => hmem (heq ▸ hold)
        rw [Table.get?_insert_of_ne _ _ hne, h.get?_of_mem hold,
          rank_of_isPrefix (List.prefix_append seen [body]) hold]
      · obtain rfl := List.mem_singleton.mp hnew
        rw [Table.get?_insert_self, rank_append_self hmem]
    · intro body' hbody'
      rw [List.mem_append, List.mem_singleton, not_or] at hbody'
      rw [Table.get?_insert_of_ne _ _ (Ne.symm hbody'.2), h.get?_of_notMem hbody'.1]

/-- The id that the store returns is a number as long as there are enough ids. -/
theorem toNat_intern {s : ReturnMapStore} {seen : List (List UInt32)} (h : s.Follows seen)
    {body : List UInt32} (hfits : (see seen body).length ≤ 2 ^ 32) :
    (s.intern body).1.raw.toNat = rank (see seen body) body := by
  have hrank : rank (see seen body) body < 2 ^ 32 :=
    (rank_lt (mem_see.mpr (.inr rfl))).trans_le hfits
  rw [(h.intern body).2]
  exact UInt32.toNat_ofNat_of_lt' hrank

/-- It then resolves to the body. -/
theorem body?_intern {s : ReturnMapStore} {seen : List (List UInt32)} (h : s.Follows seen)
    {body : List UInt32} (hfits : (s.intern body).2.bodies.length ≤ 2 ^ 32) :
    (s.intern body).2.body? (s.intern body).1 = some body := by
  obtain ⟨hfollows, -⟩ := h.intern body
  rw [hfollows.bodies_eq] at hfits
  rw [body?, h.toNat_intern hfits, hfollows.bodies_eq]
  exact getElem?_rank (mem_see.mpr (.inr rfl))

end Follows

/-- The return-map store as a store that hands out ids. -/
def interner : Interner (List UInt32) ReturnMapId (List UInt32) where
  State := ReturnMapStore
  new := .new
  intern := intern
  resolve := body?
  record body := body

/-- The bodies are kept in order however many there are. -/
theorem follows_after (calls : List (List UInt32)) :
    (interner.after calls).Follows (interner.contents [] calls) := by
  induction calls using List.reverseRecOn with
  | nil => exact Follows.new
  | append_singleton calls body ih =>
    rw [Interner.after_concat, Interner.contents_concat]
    exact (ih.intern body).1

/-- A store whose bodies fit numbers them by first occurrence. -/
theorem numbers {calls : List (List UInt32)}
    (hfits : (interner.contents [] calls).length ≤ 2 ^ 32) :
    (interner.after calls).Follows (interner.contents [] calls) ∧
      interner.Numbers (fun id => id.raw.toNat) [] calls := by
  refine Interner.numbers_of_step Follows Follows.new ?_ ?_ hfits
  · intro s seen h id
    rw [← h.bodies_eq]
    rfl
  · intro s seen body h hfits
    exact ⟨(h.intern body).1, h.toNat_intern hfits⟩

/-- The return-map store holds a body for each content. -/
theorem length_contents (calls : List (List UInt32)) :
    (interner.contents [] calls).length = calls.toFinset.card := by
  rw [interner.length_contents Function.injective_id List.nodup_nil (fun _ => List.not_mem_nil),
    List.length_nil, Nat.zero_add]

/-- The ids of the return-map store hold exactly as long as there are enough of them. -/
theorem neverAlias_iff (calls : List (List UInt32)) :
    interner.NeverAlias calls ↔ calls.toFinset.card ≤ 2 ^ 32 := by
  constructor
  · intro h
    rw [← Finset.card_range (2 ^ 32)]
    refine h.card_le ReturnMapId.toNat_injective ?_
    intro before c _
    exact Finset.mem_range.mpr (UInt32.toNat_lt _)
  · intro hcard
    rw [← length_contents] at hcard
    exact (numbers hcard).2.neverAlias Function.injective_id

/-- When every id is taken, a new body gets the id of the first one. -/
theorem idAfter_full {before : List (List UInt32)} (hfull : before.toFinset.card = 2 ^ 32)
    {body : List UInt32} (hnew : body ∉ before) : interner.idAfter before body = ⟨0⟩ := by
  have hlength : (interner.contents [] before).length = 2 ^ 32 := by
    rw [length_contents, hfull]
  have hnotMem : body ∉ interner.contents [] before := by
    intro hmem
    rcases (interner.mem_contents []).mp hmem with hnil | ⟨body', hbody', heq⟩
    · exact List.not_mem_nil hnil
    · exact hnew (heq ▸ hbody')
  obtain ⟨hfollows, -⟩ := numbers hlength.le
  have hid := (hfollows.intern body).2
  rw [see_of_not_mem hnotMem, rank_append_self hnotMem, hlength] at hid
  exact hid

end ReturnMapStore

/-- A return map of length 2, told from the others by a number. -/
def sampleBody (i : ℕ) : List UInt32 := [UInt32.ofNat i, UInt32.ofNat (i / 2 ^ 32)]

/-- The sample has `2 ^ 32` different contents. -/
theorem sampleContents_injOn : Set.InjOn sampleContents {i | i < 2 ^ 32} := by
  intro i hi j hj h
  have hword : UInt32.ofNat i = UInt32.ofNat j :=
    congrArg (fun c : Contents => c.aConn.returnMap.raw) h
  have hmod := congrArg UInt32.toNat hword
  rwa [UInt32.toNat_ofNat_of_lt' hi, UInt32.toNat_ofNat_of_lt' hj] at hmod

/-- The sample has `2 ^ 64` different bodies. -/
theorem sampleBody_injOn : Set.InjOn sampleBody {i | i < 2 ^ 64} := by
  intro i hi j hj h
  obtain ⟨hlow, hhigh⟩ : UInt32.ofNat i = UInt32.ofNat j ∧
      UInt32.ofNat (i / 2 ^ 32) = UInt32.ofNat (j / 2 ^ 32) := by
    simpa only [sampleBody, List.cons.injEq, and_true] using h
  have hlow := congrArg UInt32.toNat hlow
  have hhigh := congrArg UInt32.toNat hhigh
  rw [UInt32.toNat_ofNat', UInt32.toNat_ofNat'] at hlow hhigh
  rw [Set.mem_ofPred_eq] at hi hj
  omega

/-- Numbered values are as many as their numbers. -/
theorem card_map_range {α : Type} [DecidableEq α] {f : ℕ → α} {bound n : ℕ}
    (hf : Set.InjOn f {i | i < bound}) (hn : n ≤ bound) :
    ((List.range n).map f).toFinset.card = n := by
  have hnodup : ((List.range n).map f).Nodup := by
    refine List.Nodup.map_on ?_ List.nodup_range
    intro i hi j hj h
    exact hf ((List.mem_range.mp hi).trans_le hn) ((List.mem_range.mp hj).trans_le hn) h
  rw [List.toFinset_card_of_nodup hnodup, List.length_map, List.length_range]

/-- A new number gives a new value. -/
theorem notMem_map_range {α : Type} {f : ℕ → α} {bound n : ℕ}
    (hf : Set.InjOn f {i | i < bound}) (hn : n < bound) : f n ∉ (List.range n).map f := by
  intro hmem
  obtain ⟨i, hi, heq⟩ := List.mem_map.mp hmem
  rw [List.mem_range] at hi
  have hsame := hf (hi.trans hn) hn heq
  omega

/-- Ids never alias as long as there are enough of them, and only then: `2 ^ 32` for return
maps, and two less for nodes. -/
theorem ids_alias_iff (H : Hasher) {T : HashTable NodeId} (hT : T.Lawful) :
    (∀ nodes : List Contents,
      NodeStore.IdsHold H T nodes ↔ nodes.toFinset.card ≤ 2 ^ 32 - 2) ∧
    ∀ bodies : List (List UInt32),
      ReturnMapStore.interner.NeverAlias bodies ↔ bodies.toFinset.card ≤ 2 ^ 32 :=
  ⟨NodeStore.idsHold_iff H hT, ReturnMapStore.neverAlias_iff⟩

theorem ids_alias_iff_sample :
    NodeStore.IdsHold fxHasher (Buckets.table NodeId) ([0, 1, 2, 0, 3].map sampleContents) ∧
      ReturnMapStore.interner.NeverAlias ([0, 1, 2, 0, 3].map sampleBody) :=
  ⟨((ids_alias_iff fxHasher (Buckets.lawful NodeId)).1 _).mpr (by decide +kernel),
    ((ids_alias_iff fxHasher (Buckets.lawful NodeId)).2 _).mpr (by decide +kernel)⟩

/-- One different content too many, for each of the stores. The id that the node store
returns for the last one is that of `DontCare`. -/
theorem ids_alias :
    ¬NodeStore.IdsHold fxHasher (Buckets.table NodeId)
        ((List.range (2 ^ 32 - 1)).map sampleContents) ∧
      (NodeStore.interner fxHasher (Buckets.table NodeId)).idAfter
        ((List.range (2 ^ 32 - 2)).map sampleContents) (sampleContents (2 ^ 32 - 2)) = .dontCare ∧
      ¬ReturnMapStore.interner.NeverAlias ((List.range (2 ^ 32 + 1)).map sampleBody) ∧
      ReturnMapStore.interner.idAfter ((List.range (2 ^ 32)).map sampleBody)
        (sampleBody (2 ^ 32)) = ⟨0⟩ := by
  refine ⟨?_, ?_, ?_, ?_⟩
  · intro h
    have hle := h.card_le
    rw [card_map_range sampleContents_injOn (by omega)] at hle
    omega
  · exact (NodeStore.idAfter_full fxHasher (Buckets.lawful NodeId)
      (card_map_range sampleContents_injOn (by omega))
      (notMem_map_range sampleContents_injOn (by omega))).1
  · intro h
    have hle := (ReturnMapStore.neverAlias_iff _).mp h
    rw [card_map_range sampleBody_injOn (by omega)] at hle
    omega
  · exact ReturnMapStore.idAfter_full (card_map_range sampleBody_injOn (by omega))
      (notMem_map_range sampleBody_injOn (by omega))

end Cflobdd.Words
