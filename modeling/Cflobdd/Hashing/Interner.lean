import Cflobdd.FirstVisit.FirstSeen
import Mathlib.Data.Finset.Card

/-!
# Stores that hand out ids

A store is given contents and hands out ids for them. The ids of a sequence of calls do not
alias if each resolves to its own content for the rest of the sequence and different contents
have different ids. A store that numbers its records by first occurrence has such ids, and no
store has them for more contents than there are ids.
-/

namespace Hashing

open FirstVisit

/-- A store that hands out ids. -/
structure Interner (κ ι ρ : Type) where
  /-- The store. -/
  State : Type
  /-- The store before the first call. -/
  new : State
  /-- The id of a content and the store after the call. -/
  intern : State → κ → ι × State
  /-- The record that an id stands for. -/
  resolve : State → ι → Option ρ
  /-- The record that the id of a content has to stand for. -/
  record : κ → ρ

namespace Interner

variable {κ ι ρ : Type} (I : Interner κ ι ρ)

/-- The store after a sequence of calls. -/
def after (calls : List κ) : I.State := calls.foldl (fun s c => (I.intern s c).2) I.new

/-- The id that a call returns after a sequence of calls. -/
def idAfter (before : List κ) (c : κ) : ι := (I.intern (I.after before) c).1

/-- Before any call. -/
@[simp] theorem after_nil : I.after [] = I.new := rfl

/-- After one more call. -/
@[simp] theorem after_concat (before : List κ) (c : κ) :
    I.after (before ++ [c]) = (I.intern (I.after before) c).2 := List.foldl_concat ..

/-- The ids that a sequence of calls returns do not alias. -/
structure NeverAlias (calls : List κ) : Prop where
  /-- An id resolves to its content from the call on that returned it. -/
  resolves : ∀ {before c later}, before ++ [c] <+: later → later <+: calls →
    I.resolve (I.after later) (I.idAfter before c) = some (I.record c)
  /-- Different contents have different ids. -/
  distinct : ∀ {before c before' c'}, before ++ [c] <+: calls → before' ++ [c'] <+: calls →
    c ≠ c' → I.idAfter before c ≠ I.idAfter before' c'

/-- A member of a sequence of calls comes after some of them. -/
theorem exists_call {calls : List κ} {c : κ} (h : c ∈ calls) :
    ∃ before, before ++ [c] <+: calls := by
  obtain ⟨before, rest, rfl⟩ := List.append_of_mem h
  exact ⟨before, rest, by simp⟩

variable {I} in
/-- There are at least as many ids as contents. -/
theorem NeverAlias.card_le [DecidableEq κ] {calls : List κ} (h : I.NeverAlias calls)
    {position : ι → ℕ} (hposition : Function.Injective position) {ids : Finset ℕ}
    (hids : ∀ {before c}, before ++ [c] <+: calls → position (I.idAfter before c) ∈ ids) :
    calls.toFinset.card ≤ ids.card := by
  have hcall : ∀ c ∈ calls.toFinset, ∃ before, before ++ [c] <+: calls :=
    fun c hc => exists_call (List.mem_toFinset.mp hc)
  choose! before hbefore using hcall
  refine Finset.card_le_card_of_injOn (fun c => position (I.idAfter (before c) c)) ?_ ?_
  · intro c hc
    exact hids (hbefore c hc)
  · intro c hc c' hc' heq
    by_contra hne
    exact h.distinct (hbefore c hc) (hbefore c' hc') hne (hposition heq)

section Numbering

variable [DecidableEq ρ] (position : ι → ℕ) (start : List ρ)

/-- The records in the store when each is kept once, at the place of its first call. -/
def contents (calls : List κ) : List ρ := firstSeen (start ++ calls.map I.record)

/-- The store numbers its records by first occurrence all through a sequence of calls. -/
structure Numbers (calls : List κ) : Prop where
  resolve_eq : ∀ {later}, later <+: calls → ∀ id,
    I.resolve (I.after later) id = (I.contents start later)[position id]?
  position_eq : ∀ {before c}, before ++ [c] <+: calls →
    position (I.idAfter before c) = rank (I.contents start (before ++ [c])) (I.record c)

/-- No record is held twice. -/
theorem nodup_contents (calls : List κ) : (I.contents start calls).Nodup := nodup_firstSeen _

/-- One more call adds its record if it is new. -/
theorem contents_concat (calls : List κ) (c : κ) :
    I.contents start (calls ++ [c]) = see (I.contents start calls) (I.record c) := by
  rw [contents, List.map_append, ← List.append_assoc, List.map_singleton, firstSeen_concat]
  rfl

/-- Later calls only append records. -/
theorem contents_isPrefix {before calls : List κ} (h : before <+: calls) :
    I.contents start before <+: I.contents start calls := by
  obtain ⟨rest, rfl⟩ := h
  rw [contents, contents, List.map_append, ← List.append_assoc,
    firstSeen_append (start ++ before.map I.record)]
  exact prefix_seeAll _ _

/-- The records of the start come first. -/
theorem start_isPrefix {start : List ρ} (hstart : start.Nodup) (calls : List κ) :
    start <+: I.contents start calls := by
  rw [contents, firstSeen_append, firstSeen_of_nodup hstart]
  exact prefix_seeAll _ _

/-- The records held are those of the start and of the calls. -/
theorem mem_contents {calls : List κ} {r : ρ} :
    r ∈ I.contents start calls ↔ r ∈ start ∨ ∃ c ∈ calls, I.record c = r := by
  rw [contents, mem_firstSeen, List.mem_append, List.mem_map]

/-- The record of a call is held from then on. -/
theorem record_mem_contents {before calls : List κ} {c : κ} (h : before ++ [c] <+: calls) :
    I.record c ∈ I.contents start calls :=
  (I.mem_contents start).mpr (.inr ⟨c, h.subset (by simp), rfl⟩)

/-- One record for each of the first ones and for each content. -/
theorem length_contents [DecidableEq κ] (hrecord : Function.Injective I.record) {start : List ρ}
    (hstart : start.Nodup) (hnew : ∀ c, I.record c ∉ start) (calls : List κ) :
    (I.contents start calls).length = start.length + calls.toFinset.card := by
  have hunion : (I.contents start calls).toFinset =
      start.toFinset ∪ calls.toFinset.image I.record := by
    ext r
    simp [mem_contents]
  have hdisjoint : Disjoint start.toFinset (calls.toFinset.image I.record) := by
    rw [Finset.disjoint_right]
    intro r hr
    obtain ⟨c, -, rfl⟩ := Finset.mem_image.mp hr
    exact fun hmem => hnew c (List.mem_toFinset.mp hmem)
  rw [← List.toFinset_card_of_nodup (I.nodup_contents start calls), hunion,
    Finset.card_union_of_disjoint hdisjoint, Finset.card_image_of_injective _ hrecord,
    List.toFinset_card_of_nodup hstart]

variable {I position start}

/-- Corresponding contents are stored as corresponding records. -/
theorem contents_map {κ' ι' ρ' : Type} [DecidableEq ρ'] {J : Interner κ' ι' ρ'} {f : κ → κ'}
    {φ : ρ → ρ'} (hφ : Function.Injective φ) (hrecord : ∀ c, J.record (f c) = φ (I.record c))
    (start : List ρ) (calls : List κ) :
    J.contents (start.map φ) (calls.map f) = (I.contents start calls).map φ := by
  have hmap : (calls.map f).map J.record = (calls.map I.record).map φ := by
    rw [List.map_map, List.map_map]
    exact List.map_congr_left fun c _ => hrecord c
  rw [contents, contents, hmap, ← List.map_append, firstSeen_map_of_injOn hφ.injOn]

/-- The rule for a store that numbers by first occurrence: a condition on the store and the
records seen that a call keeps as long as not too many records were seen. -/
theorem numbers_of_step (Holds : I.State → List ρ → Prop) {bound : ℕ}
    (hnew : Holds I.new (firstSeen start))
    (hresolve : ∀ {s seen}, Holds s seen → ∀ id, I.resolve s id = seen[position id]?)
    (hstep : ∀ {s seen c}, Holds s seen → (see seen (I.record c)).length ≤ bound →
      Holds (I.intern s c).2 (see seen (I.record c)) ∧
        position (I.intern s c).1 = rank (see seen (I.record c)) (I.record c))
    {calls : List κ} (hbound : (I.contents start calls).length ≤ bound) :
    Holds (I.after calls) (I.contents start calls) ∧ I.Numbers position start calls := by
  induction calls using List.reverseRecOn with
  | nil =>
    have hholds : Holds (I.after []) (I.contents start []) := by
      rw [contents, List.map_nil, List.append_nil]
      exact hnew
    refine ⟨hholds, ⟨?_, ?_⟩⟩
    · intro later hlater
      obtain rfl := List.prefix_nil.mp hlater
      exact hresolve hholds
    · intro before c hcall
      simp at hcall
  | append_singleton calls c ih =>
    obtain ⟨hholds, hnumbers⟩ :=
      ih ((I.contents_isPrefix start (List.prefix_append _ _)).length_le.trans hbound)
    rw [contents_concat] at hbound
    obtain ⟨hholds', hposition⟩ := hstep hholds hbound
    rw [← after_concat, ← contents_concat] at hholds'
    refine ⟨hholds', ⟨?_, ?_⟩⟩
    · intro later hlater
      rcases List.prefix_concat_iff.mp hlater with rfl | hlater
      · exact hresolve hholds'
      · exact hnumbers.resolve_eq hlater
    · intro before c' hcall
      rcases List.prefix_concat_iff.mp hcall with hlast | hcall
      · obtain ⟨rfl, hc⟩ := List.append_inj' hlast rfl
        obtain rfl := List.singleton_inj.mp hc
        rw [contents_concat]
        exact hposition
      · exact hnumbers.position_eq hcall

namespace Numbers

variable {calls : List κ}

/-- The number of a content stays its rank. -/
theorem position_eq_rank (h : I.Numbers position start calls) {before later : List κ} {c : κ}
    (hcall : before ++ [c] <+: later) (hlater : later <+: calls) :
    position (I.idAfter before c) = rank (I.contents start later) (I.record c) := by
  have hmem := I.record_mem_contents start (List.prefix_refl (before ++ [c]))
  rw [h.position_eq (hcall.trans hlater), rank_of_isPrefix (I.contents_isPrefix start hcall) hmem]

/-- Interning the same content again returns the same id. -/
theorem idAfter_eq (h : I.Numbers position start calls) (hposition : Function.Injective position)
    {before before' : List κ} {c : κ} (hcall : before ++ [c] <+: calls)
    (hcall' : before' ++ [c] <+: calls) : I.idAfter before c = I.idAfter before' c := by
  apply hposition
  rw [h.position_eq_rank hcall List.prefix_rfl, h.position_eq_rank hcall' List.prefix_rfl]

/-- Where ids are numbers, each id resolves to its record, then and later. -/
theorem resolves (h : I.Numbers position start calls) {before later : List κ} {c : κ}
    (hcall : before ++ [c] <+: later) (hlater : later <+: calls) :
    I.resolve (I.after later) (I.idAfter before c) = some (I.record c) := by
  rw [h.resolve_eq hlater, h.position_eq_rank hcall hlater,
    getElem?_rank (I.record_mem_contents start hcall)]

/-- Where ids are numbers, they never alias. -/
theorem neverAlias (h : I.Numbers position start calls) (hrecord : Function.Injective I.record) :
    I.NeverAlias calls where
  resolves := h.resolves
  distinct := by
    intro before c before' c' hcall hcall' hne heq
    have hresolves := h.resolves hcall List.prefix_rfl
    rw [heq, h.resolves hcall' List.prefix_rfl] at hresolves
    exact hne (hrecord (Option.some.inj hresolves)).symm

/-- The first records stay at the first places. -/
theorem resolve_start (h : I.Numbers position start calls) (hstart : start.Nodup)
    {later : List κ} (hlater : later <+: calls) {id : ι} (hid : position id < start.length) :
    I.resolve (I.after later) id = start[position id]? := by
  obtain ⟨rest, hrest⟩ := I.start_isPrefix hstart later
  rw [h.resolve_eq hlater, ← hrest, List.getElem?_append_left hid]

/-- No content gets one of the first places. -/
theorem length_le_position (h : I.Numbers position start calls) (hstart : start.Nodup)
    {before : List κ} {c : κ} (hcall : before ++ [c] <+: calls) (hnew : I.record c ∉ start) :
    start.length ≤ position (I.idAfter before c) := by
  by_contra hlt
  have hresolves := h.resolves hcall List.prefix_rfl
  rw [h.resolve_start hstart List.prefix_rfl (by omega)] at hresolves
  exact hnew (List.mem_of_getElem? hresolves)

/-- Two stores whose records correspond return corresponding ids. -/
theorem agree (h : I.Numbers position start calls) {κ' ι' ρ' : Type} [DecidableEq ρ']
    {J : Interner κ' ι' ρ'} {position' : ι' → ℕ} {f : κ → κ'} {φ : ρ → ρ'}
    (hφ : Function.Injective φ) (hrecord : ∀ c, J.record (f c) = φ (I.record c))
    (h' : J.Numbers position' (start.map φ) (calls.map f)) {before : List κ} {c : κ}
    (hcall : before ++ [c] <+: calls) :
    position' (J.idAfter (before.map f) (f c)) = position (I.idAfter before c) := by
  have hcall' : before.map f ++ [f c] <+: calls.map f := by
    have hmap := hcall.map f
    rwa [List.map_append, List.map_singleton] at hmap
  have hcontents := contents_map (f := f) hφ hrecord start (before ++ [c])
  rw [List.map_append, List.map_singleton] at hcontents
  rw [h'.position_eq hcall', h.position_eq hcall, hcontents, hrecord]
  exact rank_map_of_injOn hφ.injOn (I.nodup_contents start _)
    (I.record_mem_contents start List.prefix_rfl)

end Numbers

end Numbering

end Interner

end Hashing
