import Cflobdd.Engine.WordDedup
import Cflobdd.NodeSpecs
import Cflobdd.StoreRefinement
import Mathlib.Data.List.GetD

/-!
# The two ways to dedupe agree

`compose_and_reduce` numbers the entries of a composed return map through slots, and
`dedupe_first_seen` by scanning the values seen. This file shows that both compute the
numbering by first occurrence, so that reduction and restriction number alike. The slots are
signed words: they simulate the slots with integers as long as at most `2 ^ 31` values
are numbered. On words both are the functions on numbers that the engine uses.
-/

namespace Cflobdd.Words

open FirstVisit Hashing

/-- The cast to a signed word is exact below `2 ^ 31`. -/
theorem toInt_toInt32_ofNat {n : ℕ} (h : n < 2 ^ 31) : (UInt32.ofNat n).toInt32.toInt = n := by
  rw [UInt32.toInt32_ofNat', Int32.toInt_ofNat_of_lt h]

/-- A word that is not negative is the same number without a sign. -/
theorem toUInt32_eq_ofNat {s : Int32} (h : ¬s < 0) : s.toUInt32 = UInt32.ofNat s.toInt.toNat := by
  have hle : 0 ≤ s := Int32.not_lt.mp h
  rw [Int32.toNat_toInt, ← Int32.toNat_toUInt32_of_le hle, UInt32.ofNat_toNat]

/-- Words below a bound that are pairwise different are at most as many as the bound. -/
theorem length_le_of_nodup {vs : List UInt32} (hvs : vs.Nodup) {bound : ℕ}
    (h : ∀ v ∈ vs, v.toNat < bound) : vs.length ≤ bound := by
  have hnodup : (vs.map UInt32.toNat).Nodup := hvs.map toNat_injective
  have hsubset : vs.map UInt32.toNat ⊆ List.range bound := by
    intro n hn
    obtain ⟨v, hv, rfl⟩ := List.mem_map.mp hn
    exact List.mem_range.mpr (h v hv)
  have hle := (List.subperm_of_subset hnodup hsubset).length_le
  rwa [List.length_map, List.length_range] at hle

/-- `dedupe_first_seen` numbers the entries of a list by their first occurrence. -/
theorem dedupeFirstSeen_eq (seq : List UInt32) :
    dedupeFirstSeen seq =
      (firstSeen seq, seq.map fun v => UInt32.ofNat (rank (firstSeen seq) v)) :=
  foldl_scanStep UInt32.ofNat seq

namespace SlotTable

/-- The table with words simulates the one with integers. -/
structure Represents (t : SlotTable) (d : Slots) : Prop where
  output_eq : t.output.map UInt32.toNat = d.output
  slot_eq : t.slot.map Int32.toInt = d.slot

/-- The unset slots. -/
theorem new_represents (size : UInt32) : (new size).Represents (.new size.toNat) where
  output_eq := rfl
  slot_eq := List.map_replicate

/-- As long as the numbers have 31 bits, a value gets the same number. -/
theorem Represents.position {t : SlotTable} {d d' : Slots} (h : t.Represents d) {v : UInt32}
    {p : ℕ} (hp : d.position v.toNat = some (p, d')) (hroom : d'.output.length ≤ 2 ^ 31) :
    ∃ t', t.position v = some (UInt32.ofNat p, t') ∧ t'.Represents d' := by
  unfold Slots.position at hp
  split at hp
  next => cases hp
  next s hs =>
    rw [← h.slot_eq, List.getElem?_map] at hs
    obtain ⟨w, hw, rfl⟩ := Option.map_eq_some_iff.mp hs
    have hlength : d.output.length = t.output.length := by
      rw [← h.output_eq, List.length_map]
    have hunset : w < 0 ↔ w.toInt < 0 := Int32.lt_iff_toInt_lt
    unfold SlotTable.position
    rw [hw]
    split at hp
    next hneg =>
      cases hp
      rw [List.length_append, List.length_singleton, hlength] at hroom
      refine ⟨_, by rw [hlength]; exact if_pos (hunset.mpr hneg), ?_, ?_⟩
      · rw [List.map_append, h.output_eq]
        rfl
      · rw [List.map_set, h.slot_eq, toInt_toInt32_ofNat (by omega), ← hlength]
    next hpos =>
      cases hp
      refine ⟨t, ?_, h⟩
      have hset : ¬w < 0 := fun hneg => hpos (hunset.mp hneg)
      rw [← toUInt32_eq_ofNat hset]
      exact if_neg hset

/-- What the loop keeps: the table simulates one with integers that has a slot for each value
below the bound, and what was seen are such values, each of them once. -/
structure Holds (bound : ℕ) (t : SlotTable) : Prop where
  nodup : t.output.Nodup
  lt : ∀ v ∈ t.output, v.toNat < bound
  represents : ∃ d : Slots, t.Represents d ∧ d.slot.length = bound

/-- The unset slots hold nothing. -/
theorem Holds.new (size : UInt32) : (new size).Holds size.toNat where
  nodup := List.nodup_nil
  lt _ hv := absurd hv List.not_mem_nil
  represents := ⟨.new size.toNat, new_represents size, List.length_replicate⟩

/-- A value below the bound gets its number among the values seen. -/
theorem Holds.position {bound : ℕ} (hbound : bound ≤ 2 ^ 31) {t : SlotTable} (h : t.Holds bound)
    {v : UInt32} (hv : v.toNat < bound) :
    ∃ t', t.position v = some (UInt32.ofNat (rank (see t.output v) v), t') ∧
      t'.output = see t.output v ∧ t'.Holds bound := by
  obtain ⟨d, hd, hslot⟩ := h.represents
  obtain ⟨d', hposition, houtput, hslot'⟩ := d.position_spec (hslot.symm ▸ hv)
  rw [← hd.output_eq, see_map_of_injective toNat_injective] at hposition houtput
  have hnodup : (see t.output v).Nodup := nodup_see h.nodup
  have hlt : ∀ w ∈ see t.output v, w.toNat < bound := by
    intro w hw
    rcases mem_see.mp hw with hold | rfl
    · exact h.lt w hold
    · exact hv
  rw [rank_map_of_injOn toNat_injective.injOn hnodup (mem_see.mpr (.inr rfl))] at hposition
  have hroom : d'.output.length ≤ 2 ^ 31 := by
    rw [houtput, List.length_map]
    exact (length_le_of_nodup hnodup hlt).trans hbound
  obtain ⟨t', hposition', hd'⟩ := hd.position hposition hroom
  have houtput : t'.output = see t.output v :=
    toNat_injective.list_map (hd'.output_eq.trans houtput)
  exact ⟨t', hposition', houtput, houtput ▸ hnodup, houtput ▸ hlt, d', hd', hslot'.trans hslot⟩

end SlotTable

/-- The entries of a return map read through a reduction map. -/
def composed (map red : List UInt32) : List UInt32 := map.map fun exit => red.getD exit.toNat 0

section Compose

variable {map red : List UInt32}

/-- The composed map, entry by entry. -/
theorem forall₂_composed (hdefined : ∀ exit ∈ map, exit.toNat < red.length) :
    List.Forall₂ (fun exit c => red[exit.toNat]? = some c) map (composed map red) := by
  rw [composed, List.forall₂_map_right_iff, List.forall₂_same]
  intro exit hexit
  rw [List.getD_eq_getElem _ _ (hdefined exit hexit), List.getElem?_eq_getElem]

/-- An entry of the composed map. -/
theorem getElem?_composed (hdefined : ∀ exit ∈ map, exit.toNat < red.length) {k : ℕ} {exit : UInt32}
    (h : map[k]? = some exit) :
    ∃ c, red[exit.toNat]? = some c ∧ (composed map red)[k]? = some c := by
  have hlt := hdefined exit (List.mem_of_getElem? h)
  refine ⟨red[exit.toNat], List.getElem?_eq_getElem hlt, ?_⟩
  rw [composed, List.getElem?_map, h, Option.map_some, List.getD_eq_getElem _ _ hlt]

/-- The loop of `compose_and_reduce` numbers the composed entries. -/
theorem composeLoop {comp : List UInt32} {size : UInt32} (hsize : size.toNat ≤ 2 ^ 31)
    (hcomp : List.Forall₂ (fun exit c => red[exit.toNat]? = some c) map comp)
    (hred : ∀ c ∈ red, c.toNat < size.toNat) :
    ∃ slots : SlotTable, slots.output = firstSeen comp ∧
      map.foldlM (composeStep red) (.new size, []) =
        some (slots, comp.map fun c => UInt32.ofNat (rank (firstSeen comp) c)) := by
  have hsteps : List.Forall₂ (fun exit c => ∀ (t : SlotTable) out, t.Holds size.toNat →
      ∃ t', composeStep red (t, out) exit =
          pure (t', out ++ [UInt32.ofNat (rank (see t.output c) c)]) ∧
        t'.output = see t.output c ∧ t'.Holds size.toNat) map comp := by
    refine hcomp.imp ?_
    intro exit c hexit t out ht
    obtain ⟨t', hposition, houtput, ht'⟩ :=
      ht.position hsize (hred c (List.mem_of_getElem? hexit))
    refine ⟨t', ?_, houtput, ht'⟩
    simp [composeStep, hexit, hposition]
  obtain ⟨slots, hloop, houtput, -⟩ :=
    foldlM_writes UInt32.ofNat SlotTable.output (SlotTable.Holds size.toNat) hsteps
      (SlotTable.Holds.new size) []
  exact ⟨slots, houtput, hloop⟩

/-- Each entry of an identity is its position. -/
theorem getElem?_of_isIdentity (h : isIdentity red = true) {i : ℕ} (hi : i < red.length) :
    red[i]? = some (UInt32.ofNat i) := by
  rw [isIdentity, List.all_eq_true] at h
  have hmem : (red[i], i) ∈ red.zipIdx := by
    rw [List.mem_zipIdx_iff_getElem?]
    exact List.getElem?_eq_getElem hi
  rw [List.getElem?_eq_getElem hi, Option.some.injEq]
  exact beq_iff_eq.mp (h _ hmem)

/-- Composing with an identity changes nothing. -/
theorem composed_of_isIdentity (h : isIdentity red = true)
    (hdefined : ∀ exit ∈ map, exit.toNat < red.length) : composed map red = map := by
  conv_rhs => rw [← List.map_id map]
  refine List.map_congr_left fun exit hexit => ?_
  have hentry := getElem?_of_isIdentity h (hdefined exit hexit)
  rw [List.getD_eq_getElem?_getD, hentry, UInt32.ofNat_toNat]
  rfl

/-- An identity with entries of 31 bits is not longer than these reach. -/
theorem length_le_of_isIdentity (h : isIdentity red = true) (hred : ∀ c ∈ red, c.toNat < 2 ^ 31) :
    red.length ≤ 2 ^ 31 := by
  by_contra hlong
  have hentry := getElem?_of_isIdentity h (show 2 ^ 31 < red.length by omega)
  have hlt := hred _ (List.mem_of_getElem? hentry)
  rw [UInt32.toNat_ofNat'] at hlt
  omega

/-- The greatest word is the greatest number. -/
theorem toNat_foldl_max (red : List UInt32) (start : UInt32) :
    (red.foldl max start).toNat = (red.map UInt32.toNat).foldl max start.toNat := by
  induction red generalizing start with
  | nil => rfl
  | cons c red ih => rw [List.foldl_cons, ih, UInt32.toNat_max]; rfl

/-- The greatest of numbers below a bound is below the bound. -/
theorem foldl_max_lt {xs : List ℕ} {bound start : ℕ} (h : ∀ x ∈ xs, x < bound)
    (hstart : start < bound) : xs.foldl max start < bound := by
  induction xs generalizing start with
  | nil => exact hstart
  | cons x xs ih => exact ih (fun y hy => h y (.tail _ hy)) (max_lt hstart (h x (.head _)))

/-- The slots reach past the entries of the reduction map. -/
theorem exists_size (hred : ∀ c ∈ red, c.toNat < 2 ^ 31) :
    ∃ size, addOne (red.foldl max 0) = some size ∧ size.toNat ≤ 2 ^ 31 ∧
      ∀ c ∈ red, c.toNat < size.toNat := by
  have hmax : (red.foldl max 0).toNat = (red.map UInt32.toNat).foldl max 0 :=
    toNat_foldl_max red 0
  have hlt : (red.foldl max 0).toNat < 2 ^ 31 := by
    rw [hmax]
    refine foldl_max_lt ?_ (by decide)
    intro n hn
    obtain ⟨c, hc, rfl⟩ := List.mem_map.mp hn
    exact hred c hc
  have hsize : (red.foldl max 0 + 1).toNat = (red.foldl max 0).toNat + 1 := by
    rw [UInt32.toNat_add, UInt32.toNat_one, Nat.mod_eq_of_lt (by omega)]
  refine ⟨red.foldl max 0 + 1, if_pos (by omega), by omega, ?_⟩
  intro c hc
  rw [hsize, hmax, Nat.lt_succ_iff]
  exact le_foldl_max (List.mem_map_of_mem hc) 0

/-- `compose_and_reduce` numbers the composed entries by their first occurrence. -/
theorem composeAndReduce_eq (s : ReturnMapStore) (hmap : map.Nodup)
    (hred : ∀ c ∈ red, c.toNat < 2 ^ 31) (hdefined : ∀ exit ∈ map, exit.toNat < red.length) :
    composeAndReduce s map red =
      some (((composed map red).map fun c => UInt32.ofNat (rank (firstSeen (composed map red)) c),
          (s.intern (firstSeen (composed map red))).1,
          UInt32.ofNat (firstSeen (composed map red)).length),
        (s.intern (firstSeen (composed map red))).2) := by
  unfold composeAndReduce
  by_cases hfast : isIdentity red = true
  · have hlength : map.length ≤ 2 ^ 31 :=
      (length_le_of_nodup hmap hdefined).trans (length_le_of_isIdentity hfast hred)
    have hrange : (UInt32.ofNat map.length).toNat = map.length :=
      UInt32.toNat_ofNat_of_lt' (show map.length < 2 ^ 32 by omega)
    rw [if_pos hfast, composed_of_isIdentity hfast hdefined, firstSeen_of_nodup hmap, hrange,
      ← map_rank_self hmap, List.map_map]
    rfl
  · rw [if_neg hfast]
    obtain ⟨size, hsize, hle, hlt⟩ := exists_size hred
    obtain ⟨slots, houtput, hloop⟩ := composeLoop hle (forall₂_composed hdefined) hlt
    simp only [hsize, hloop, houtput, Option.bind_eq_bind, Option.bind_some]
    rfl

end Compose

/-- There are at most as many composed entries as words of 31 bits. -/
theorem length_firstSeen_composed {map red : List UInt32} (hred : ∀ c ∈ red, c.toNat < 2 ^ 31)
    (hdefined : ∀ exit ∈ map, exit.toNat < red.length) :
    (firstSeen (composed map red)).length ≤ 2 ^ 31 := by
  refine length_le_of_nodup (nodup_firstSeen _) ?_
  intro c hc
  obtain ⟨exit, hexit, rfl⟩ := List.mem_map.mp (mem_firstSeen.mp hc)
  rw [List.getD_eq_getElem _ _ (hdefined exit hexit)]
  exact hred _ (List.getElem_mem _)

/-- The numbers of a list with at most as many values as words are not cut off. -/
theorem toNat_ofNat_rank {seq : List UInt32} (hlength : (firstSeen seq).length ≤ 2 ^ 32)
    {c : UInt32} (hc : c ∈ seq) :
    (UInt32.ofNat (rank (firstSeen seq) c)).toNat = rank (firstSeen seq) c :=
  UInt32.toNat_ofNat_of_lt' ((rank_lt (mem_firstSeen.mpr hc)).trans_le hlength)

/-- Ranks are numbered by words without loss. -/
theorem map_toNat_ofNat_rank {seq : List UInt32} (hlength : (firstSeen seq).length ≤ 2 ^ 32) :
    (seq.map fun c => UInt32.ofNat (rank (firstSeen seq) c)).map UInt32.toNat =
      seq.map (rank (firstSeen seq)) := by
  rw [List.map_map]
  exact List.map_congr_left fun c hc => toNat_ofNat_rank hlength hc

/-- The numbers of a list by first occurrence are a reduction map. -/
theorem isReductionMap_rank {α : Type} [DecidableEq α] (seq : List α) :
    IsReductionMap seq.length (seq.map (rank (firstSeen seq))) (firstSeen seq).length where
  length := List.length_map _
  onto exit := by rw [← mem_firstSeen, firstSeen_map_rank, List.mem_range]
  firstSeen := firstSeen_map_rank seq

/-- What `compose_and_reduce` returns, told in terms of `dedupe_first_seen` on the composed
entries. The return-map store is `s` before the call and `s'` after it. -/
structure AgreesWithDedupe (s : ReturnMapStore) (map red induced : List UInt32) (id : ReturnMapId)
    (len : UInt32) (s' : ReturnMapStore) : Prop where
  /-- The deduped list is what is interned. -/
  interned : s.intern (dedupeFirstSeen (composed map red)).1 = (id, s')
  /-- The id resolves to it as long as there are enough ids. -/
  resolves : ∀ calls, s = ReturnMapStore.interner.after calls → s'.bodies.length ≤ 2 ^ 32 →
    s'.body? id = some (dedupeFirstSeen (composed map red)).1
  /-- The induced map is the reduction. -/
  induced_eq : induced = (dedupeFirstSeen (composed map red)).2
  len_eq : len.toNat = (dedupeFirstSeen (composed map red)).1.length
  nodup : (dedupeFirstSeen (composed map red)).1.Nodup
  /-- Read through the induced map, the deduped list has the composed entries. -/
  entries : ∀ (k : ℕ) exit, map[k]? = some exit → ∃ pos c : UInt32, induced[k]? = some pos ∧
    red[exit.toNat]? = some c ∧ (dedupeFirstSeen (composed map red)).1[pos.toNat]? = some c
  /-- The induced map is onto `[0, len)` in first-seen order. -/
  isReductionMap : IsReductionMap map.length (induced.map UInt32.toNat) len.toNat

/-- **The two ways to dedupe agree:** for a return map without repetitions, and a reduction map
with entries of 31 bits that is defined on it, `compose_and_reduce` interns the list and
returns the positions that `dedupe_first_seen` computes, by its fast path and by its slots. -/
theorem dedupes_agree (s : ReturnMapStore) {map red : List UInt32} (hmap : map.Nodup)
    (hred : ∀ c ∈ red, c.toNat < 2 ^ 31) (hdefined : ∀ exit ∈ map, exit.toNat < red.length) :
    ∃ induced id len s', composeAndReduce s map red = some ((induced, id, len), s') ∧
      AgreesWithDedupe s map red induced id len s' := by
  have hlength : (firstSeen (composed map red)).length < 2 ^ 32 :=
    (length_firstSeen_composed hred hdefined).trans_lt (by decide)
  have hdedupe := dedupeFirstSeen_eq (composed map red)
  refine ⟨_, _, _, _, composeAndReduce_eq s hmap hred hdefined, ?_⟩
  constructor
  case interned => rw [hdedupe]
  case resolves =>
    rintro calls rfl hfits
    rw [hdedupe]
    exact (ReturnMapStore.follows_after calls).body?_intern hfits
  case induced_eq => rw [hdedupe]
  case len_eq =>
    rw [hdedupe]
    exact UInt32.toNat_ofNat_of_lt' hlength
  case nodup =>
    rw [hdedupe]
    exact nodup_firstSeen _
  case entries =>
    intro k exit hexit
    obtain ⟨c, hc, hcomp⟩ := getElem?_composed hdefined hexit
    have hmem := List.mem_of_getElem? hcomp
    refine ⟨UInt32.ofNat (rank (firstSeen (composed map red)) c), c, ?_, hc, ?_⟩
    · rw [List.getElem?_map, hcomp, Option.map_some]
    · rw [hdedupe, toNat_ofNat_rank hlength.le hmem]
      exact getElem?_rank (mem_firstSeen.mpr hmem)
  case isReductionMap =>
    have h := isReductionMap_rank (composed map red)
    rw [map_toNat_ofNat_rank hlength.le, UInt32.toNat_ofNat_of_lt' hlength]
    rwa [composed, List.length_map] at h

/-- Once through the slots, and once by the fast path. -/
theorem dedupes_agree_sample :
    (∃ induced id len s',
      composeAndReduce .new [2, 0, 1] [1, 0, 1] = some ((induced, id, len), s') ∧
        AgreesWithDedupe .new [2, 0, 1] [1, 0, 1] induced id len s') ∧
    ∃ induced id len s',
      composeAndReduce .new [1, 0] [0, 1, 2] = some ((induced, id, len), s') ∧
        AgreesWithDedupe .new [1, 0] [0, 1, 2] induced id len s' :=
  ⟨dedupes_agree .new (by decide) (by simp) (by simp),
    dedupes_agree .new (by decide) (by simp) (by simp)⟩

example : composeAndReduce .new [2, 0, 1] [1, 0, 1] =
    some (([0, 0, 1], ⟨0⟩, 2), (ReturnMapStore.new.intern [1, 0]).2) := rfl

section Refinement

/-- `dedupe_first_seen` on words is the one on numbers, as long as there are enough words. -/
theorem dedupeFirstSeen_refines {seq : List UInt32}
    (hlength : (dedupeFirstSeen seq).1.length ≤ 2 ^ 32) :
    Cflobdd.dedupeFirstSeen (seq.map UInt32.toNat) =
      ((dedupeFirstSeen seq).1.map UInt32.toNat, (dedupeFirstSeen seq).2.map UInt32.toNat) := by
  rw [dedupeFirstSeen_eq] at hlength ⊢
  rw [Cflobdd.dedupeFirstSeen_eq, map_toNat_ofNat_rank hlength,
    map_rank_firstSeen_map toNat_injective.injOn, firstSeen_map_of_injOn toNat_injective.injOn]

variable {map red : List UInt32}

/-- The composed map with numbers, entry by entry. -/
theorem forall₂_composed_toNat (hdefined : ∀ exit ∈ map, exit.toNat < red.length) :
    List.Forall₂ (fun exit c => (red.map UInt32.toNat)[exit]? = some c) (map.map UInt32.toNat)
      ((composed map red).map UInt32.toNat) := by
  rw [List.forall₂_map_left_iff, List.forall₂_map_right_iff]
  refine (forall₂_composed hdefined).imp ?_
  intro exit c hexit
  rw [List.getElem?_map, hexit, Option.map_some]

/-- `compose_and_reduce` on words is the one on numbers, from stores with the same bodies and as
long as there are enough ids. -/
theorem composeAndReduce_refines {s : ReturnMapStore} {seen : List (List UInt32)}
    (hs : s.Follows seen) {m : Manager}
    (hm : m.returnMaps.bodies = s.bodies.map (List.map UInt32.toNat)) (hmap : map.Nodup)
    (hred : ∀ c ∈ red, c.toNat < 2 ^ 31) (hdefined : ∀ exit ∈ map, exit.toNat < red.length) :
    ∃ induced id len s', composeAndReduce s map red = some ((induced, id, len), s') ∧
      (s'.bodies.length ≤ 2 ^ 32 → ∃ m',
        Cflobdd.composeAndReduce (map.map UInt32.toNat) (red.map UInt32.toNat) m =
          .ok (induced.map UInt32.toNat, id.widen, len.toNat) m' ∧
        m'.returnMaps.bodies = s'.bodies.map (List.map UInt32.toNat)) := by
  refine ⟨_, _, _, _, composeAndReduce_eq s hmap hred hdefined, ?_⟩
  intro hfits
  have hlength : (firstSeen (composed map red)).length < 2 ^ 32 :=
    (length_firstSeen_composed hred hdefined).trans_lt (by decide)
  obtain ⟨hid, hbodies⟩ := hs.intern_refines hm hfits
  refine ⟨{ m with returnMaps := (m.returnMaps.intern
    ((firstSeen (composed map red)).map UInt32.toNat)).2 }, ?_, hbodies⟩
  rw [Cflobdd.composeAndReduce_eq (hmap.map toNat_injective) (forall₂_composed_toNat hdefined),
    map_rank_firstSeen_map toNat_injective.injOn, firstSeen_map_of_injOn toNat_injective.injOn,
    map_toNat_ofNat_rank hlength.le, UInt32.toNat_ofNat_of_lt' hlength, List.length_map, ← hid]
  rfl

end Refinement

end Cflobdd.Words
