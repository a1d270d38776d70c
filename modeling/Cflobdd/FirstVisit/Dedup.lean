import Cflobdd.FirstVisit.FirstSeen

/-!
# Ways to keep a numbering by first occurrence

A program that numbers values in the order in which it meets them has to find
the number of a value met before. This file gives the usual ways, each as an
operation that returns the number of a value and the numbering that includes it:
a finite map beside the list, an array of slots with an "unset" mark, and a scan
of the list. Each is proved to compute `see` and `rank`.
-/

namespace FirstVisit

/-- A finite map as a list of entries. The newest entry of a key counts. -/
structure Table (κ ν : Type*) where
  /-- The entries, newest first. -/
  entries : List (κ × ν)

namespace Table

variable {κ ν : Type*} [DecidableEq κ]

/-- The map without entries. -/
def empty : Table κ ν := ⟨[]⟩

/-- The first value stored under a key in a list of entries. -/
def find? : List (κ × ν) → κ → Option ν
  | [], _ => none
  | (k', v) :: entries, k => if k' = k then some v else find? entries k

/-- The value of a key, if it has one. -/
def get? (t : Table κ ν) (k : κ) : Option ν := find? t.entries k

/-- Give a key a new value. -/
def insert (t : Table κ ν) (k : κ) (v : ν) : Table κ ν := ⟨(k, v) :: t.entries⟩

/-- Nothing is found in the empty table. -/
@[simp] theorem get?_empty (k : κ) : (empty : Table κ ν).get? k = none := rfl

/-- An entry is found under its key. -/
@[simp] theorem get?_insert_self (t : Table κ ν) (k : κ) (v : ν) :
    (t.insert k v).get? k = some v := if_pos rfl

/-- Insertion leaves the other keys alone. -/
theorem get?_insert_of_ne (t : Table κ ν) {k k' : κ} (v : ν) (h : k ≠ k') :
    (t.insert k v).get? k' = t.get? k' := if_neg h

/-- What is found after an insertion. -/
theorem get?_insert (t : Table κ ν) (k k' : κ) (v : ν) :
    (t.insert k v).get? k' = if k = k' then some v else t.get? k' := rfl

/-- An insertion that agrees with the value its key may already have keeps all entries. -/
theorem get?_insert_of_agree {t : Table κ ν} {k k' : κ} {v v' : ν}
    (hagree : ∀ w, t.get? k = some w → w = v) (h : t.get? k' = some v') :
    (t.insert k v).get? k' = some v' := by
  by_cases heq : k = k'
  · subst heq
    rw [get?_insert_self, hagree v' h]
  · rw [get?_insert_of_ne t v heq, h]

end Table

variable {κ : Type*} [DecidableEq κ]

/-- A numbering with a finite map from each value seen to its number. -/
structure Dedup (κ : Type*) [DecidableEq κ] where
  /-- The values seen, in order. -/
  seen : List κ
  /-- The number of each value seen. -/
  table : Table κ ℕ
  /-- The map holds the ranks of the values seen and nothing else. -/
  coherent : ∀ k, table.get? k = if k ∈ seen then some (rank seen k) else none
  /-- No value is listed twice. -/
  nodup : seen.Nodup

namespace Dedup

/-- The numbering before any value is seen. -/
def empty : Dedup κ := ⟨[], .empty, fun k => by simp, List.nodup_nil⟩

/-- A key that the table lacks has not been seen. -/
theorem not_mem_of_get? (d : Dedup κ) {k : κ} (h : d.table.get? k = none) : k ∉ d.seen := by
  intro hmem
  rw [d.coherent k, if_pos hmem] at h
  cases h

/-- The table still gives the rank of each key when a new one is pushed. -/
theorem coherent_push (d : Dedup κ) {k : κ} (h : d.table.get? k = none) (k' : κ) :
    (d.table.insert k d.seen.length).get? k' =
      if k' ∈ d.seen ++ [k] then some (rank (d.seen ++ [k]) k') else none := by
  have hk := d.not_mem_of_get? h
  rw [Table.get?_insert]
  by_cases heq : k = k'
  · subst heq
    simp [rank_append_self hk]
  · rw [if_neg heq, d.coherent k', rank_append_of_ne heq some none]

/-- A new key is pushed once. -/
theorem nodup_push (d : Dedup κ) {k : κ} (h : d.table.get? k = none) :
    (d.seen ++ [k]).Nodup := by
  rw [← see_of_not_mem (d.not_mem_of_get? h)]
  exact nodup_see d.nodup

/-- The number of a value: the stored one, or the next free one, which is stored. -/
def position (d : Dedup κ) (k : κ) : ℕ × Dedup κ :=
  match h : d.table.get? k with
  | some p => (p, d)
  | none =>
    (d.seen.length, ⟨d.seen ++ [k], d.table.insert k d.seen.length, d.coherent_push h,
      d.nodup_push h⟩)

/-- `position` returns the rank of the key and adds the key if it is new. -/
theorem position_spec (d : Dedup κ) (k : κ) :
    (d.position k).1 = rank (see d.seen k) k ∧ (d.position k).2.seen = see d.seen k := by
  have hcoherent := d.coherent k
  unfold position
  split
  next p h =>
    rw [h] at hcoherent
    split at hcoherent
    next hmem => exact ⟨by rw [see_of_mem hmem]; exact Option.some.inj hcoherent,
      (see_of_mem hmem).symm⟩
    next => cases hcoherent
  next h =>
    rw [h] at hcoherent
    split at hcoherent
    next => cases hcoherent
    next hmem =>
      rw [see_of_not_mem hmem, rank_append_self hmem]
      exact ⟨rfl, rfl⟩

/-- Numbering the values that stand for those of another list numbers that list. -/
theorem position_forall₂ {α : Type*} [DecidableEq α] {R : α → κ → Prop}
    (hR : ∀ {x x' y y'}, R x y → R x' y' → (x = x' ↔ y = y')) {xs : List α} (d : Dedup κ)
    (h : List.Forall₂ R xs d.seen) {x : α} {k : κ} (hxk : R x k) :
    List.Forall₂ R (see xs x) (d.position k).2.seen ∧ (d.position k).1 = rank (see xs x) x := by
  obtain ⟨hpos, hseen⟩ := d.position_spec k
  obtain ⟨hsee, hrank⟩ := forall₂_see hR h hxk
  rw [hpos, hseen]
  exact ⟨hsee, hrank⟩

end Dedup

/-- The position of a value in a list, found by scanning it. -/
def scan (seen : List κ) (k : κ) : Option ℕ := seen.findIdx? fun x => decide (x = k)

/-- The scan finds the rank of a value that has been seen. -/
theorem scan_eq (seen : List κ) (k : κ) :
    scan seen k = if k ∈ seen then some (rank seen k) else none := by
  unfold scan
  induction seen with
  | nil => rfl
  | cons x seen ih =>
    rw [List.findIdx?_cons, ih]
    by_cases hx : x = k
    · subst hx
      simp [rank]
    · have hrank : rank (x :: seen) k = rank seen k + 1 := by
        unfold rank
        rw [List.idxOf_cons_ne _ hx]
      by_cases hmem : k ∈ seen
      · simp [hx, hmem, hrank]
      · simp [hx, hmem, Ne.symm hx]

/-- A loop that numbers one value for each entry of a list, when every step gives the
number of its value. `seen` is what the loop variable `D` has seen, and `word` is how
numbers are written. -/
theorem foldlM_writes {m : Type → Type*} [Monad m] [LawfulMonad m] {D X W : Type} (word : ℕ → W)
    (seen : D → List κ) (ok : D → Prop) {step : D × List W → X → m (D × List W)} {xs : List X}
    {vs : List κ}
    (h : List.Forall₂ (fun x v => ∀ d out, ok d → ∃ d', step (d, out) x =
      pure (d', out ++ [word (rank (see (seen d) v) v)]) ∧ seen d' = see (seen d) v ∧ ok d') xs vs)
    {d : D} (hd : ok d) (out : List W) :
    ∃ d', xs.foldlM step (d, out) =
        pure (d', out ++ vs.map fun v => word (rank (seeAll (seen d) vs) v)) ∧
      seen d' = seeAll (seen d) vs ∧ ok d' := by
  induction h generalizing d out with
  | nil => exact ⟨d, by simp, rfl, hd⟩
  | @cons x v xs vs hxv _ ih =>
    obtain ⟨d₁, hstep, hseen₁, hd₁⟩ := hxv d out hd
    obtain ⟨d₂, hloop, hseen₂, hd₂⟩ := ih hd₁ (out ++ [word (rank (see (seen d) v) v)])
    refine ⟨d₂, ?_, by rw [hseen₂, hseen₁, seeAll_cons], hd₂⟩
    rw [List.foldlM_cons, hstep, pure_bind, hloop, hseen₁, List.append_assoc, List.map_cons,
      seeAll_cons, rank_seeAll (mem_see.mpr (Or.inr rfl))]
    rfl

/-- The loop that writes the ranks themselves. -/
theorem foldlM_numbers {m : Type → Type*} [Monad m] [LawfulMonad m] {D X : Type}
    (seen : D → List κ) (ok : D → Prop) {step : D × List ℕ → X → m (D × List ℕ)} {xs : List X}
    {vs : List κ}
    (h : List.Forall₂ (fun x v => ∀ d out, ok d → ∃ d', step (d, out) x =
      pure (d', out ++ [rank (see (seen d) v) v]) ∧ seen d' = see (seen d) v ∧ ok d') xs vs)
    {d : D} (hd : ok d) (out : List ℕ) :
    ∃ d', xs.foldlM step (d, out) = pure (d', out ++ vs.map (rank (seeAll (seen d) vs))) ∧
      seen d' = seeAll (seen d) vs ∧ ok d' :=
  foldlM_writes id seen ok h hd out

/-- The same for a loop without effects. -/
theorem foldl_writes {D W : Type*} (word : ℕ → W) (seen : D → List κ) (ok : D → Prop)
    {step : D × List W → κ → D × List W}
    (h : ∀ d out v, ok d → (step (d, out) v).2 = out ++ [word (rank (see (seen d) v) v)] ∧
      seen (step (d, out) v).1 = see (seen d) v ∧ ok (step (d, out) v).1)
    (vs : List κ) {d : D} (hd : ok d) (out : List W) :
    (vs.foldl step (d, out)).2 = out ++ vs.map (fun v => word (rank (seeAll (seen d) vs) v)) ∧
      seen (vs.foldl step (d, out)).1 = seeAll (seen d) vs ∧ ok (vs.foldl step (d, out)).1 := by
  induction vs generalizing d out with
  | nil => exact ⟨by simp, rfl, hd⟩
  | cons v vs ih =>
    obtain ⟨hout, hseen, hd'⟩ := h d out v hd
    obtain ⟨ihout, ihseen, ihd⟩ := ih hd' (step (d, out) v).2
    refine ⟨?_, by rw [List.foldl_cons, ihseen, hseen, seeAll_cons], ihd⟩
    rw [List.foldl_cons, ihout, hout, hseen, List.append_assoc, List.map_cons, seeAll_cons,
      rank_seeAll (mem_see.mpr (Or.inr rfl))]
    rfl

/-- The loop without effects that writes the ranks themselves. -/
theorem foldl_numbers {D : Type} (seen : D → List κ) (ok : D → Prop)
    {step : D × List ℕ → κ → D × List ℕ}
    (h : ∀ d out v, ok d → (step (d, out) v).2 = out ++ [rank (see (seen d) v) v] ∧
      seen (step (d, out) v).1 = see (seen d) v ∧ ok (step (d, out) v).1)
    (vs : List κ) {d : D} (hd : ok d) (out : List ℕ) :
    (vs.foldl step (d, out)).2 = out ++ vs.map (rank (seeAll (seen d) vs)) ∧
      seen (vs.foldl step (d, out)).1 = seeAll (seen d) vs ∧ ok (vs.foldl step (d, out)).1 :=
  foldl_writes id seen ok h vs hd out

/-- Number one value by scanning those seen. -/
def scanStep {W : Type*} (word : ℕ → W) (state : List κ × List W) (v : κ) : List κ × List W :=
  match scan state.1 v with
  | some p => (state.1, state.2 ++ [word p])
  | none => (state.1 ++ [v], state.2 ++ [word state.1.length])

/-- One step of the loop numbers one value. -/
theorem scanStep_eq {W : Type*} (word : ℕ → W) (state : List κ × List W) (v : κ) :
    scanStep word state v = (see state.1 v, state.2 ++ [word (rank (see state.1 v) v)]) := by
  rw [scanStep, scan_eq]
  by_cases hv : v ∈ state.1
  · rw [if_pos hv, see_of_mem hv]
  · rw [if_neg hv, see_of_not_mem hv, rank_append_self hv]

/-- Numbering a whole list by scanning gives its values by first occurrence. -/
theorem foldl_scanStep {W : Type*} (word : ℕ → W) (vs : List κ) :
    vs.foldl (scanStep word) ([], []) =
      (firstSeen vs, vs.map fun v => word (rank (firstSeen vs) v)) := by
  have hstep : ∀ (seen : List κ) (out : List W) v, True →
      (scanStep word (seen, out) v).2 = out ++ [word (rank (see seen v) v)] ∧
        (scanStep word (seen, out) v).1 = see seen v ∧ True := by
    intro seen out v _
    rw [scanStep_eq]
    exact ⟨rfl, rfl, trivial⟩
  obtain ⟨hout, hseen, -⟩ := foldl_writes word id (fun _ => True) hstep vs (d := []) trivial []
  exact Prod.ext hseen hout

/-- A numbering of natural numbers below a bound, with a slot for each: the slot
holds the number of its value, or `-1` while the value has not been seen. -/
structure Slots where
  /-- The values seen, in order. -/
  output : List ℕ
  /-- The slots, indexed by the values. -/
  slot : List ℤ
  /-- Each slot holds the rank of its value or the mark `-1`. -/
  coherent : ∀ v s, slot[v]? = some s → s = if v ∈ output then (rank output v : ℤ) else -1

namespace Slots

/-- All slots unset. -/
def new (bound : ℕ) : Slots where
  output := []
  slot := List.replicate bound (-1)
  coherent := by
    intro v s h
    rw [List.getElem?_replicate] at h
    split at h
    · simpa using h.symm
    · cases h

/-- The slots still hold the rank of each value when a new one is pushed. -/
theorem coherent_push (d : Slots) {v : ℕ} {s : ℤ} (h : d.slot[v]? = some s) (hs : s < 0)
    (w : ℕ) (s' : ℤ) (hw : (d.slot.set v d.output.length)[w]? = some s') :
    s' = if w ∈ d.output ++ [v] then (rank (d.output ++ [v]) w : ℤ) else -1 := by
  have hv : v ∉ d.output := by
    intro hmem
    have := d.coherent v s h
    rw [if_pos hmem] at this
    omega
  by_cases heq : v = w
  · subst heq
    have hlt : v < d.slot.length := (List.getElem?_eq_some_iff.mp h).choose
    rw [List.getElem?_set_self hlt] at hw
    simp [rank_append_self hv, ← Option.some.inj hw]
  · rw [List.getElem?_set_ne heq] at hw
    rw [d.coherent w s' hw, rank_append_of_ne heq (fun r : ℕ => (r : ℤ)) (-1)]

/-- The number of a value: the one in its slot, or the next free one, which is put
there. A value without a slot has no answer. -/
def position (d : Slots) (v : ℕ) : Option (ℕ × Slots) :=
  match h : d.slot[v]? with
  | none => none
  | some s =>
    if hs : s < 0 then
      some (d.output.length,
        ⟨d.output ++ [v], d.slot.set v d.output.length, d.coherent_push h hs⟩)
    else some (s.toNat, d)

/-- `position` returns the rank of a value in range and adds the value if it is new. -/
theorem position_spec (d : Slots) {v : ℕ} (hv : v < d.slot.length) :
    ∃ d', d.position v = some (rank (see d.output v) v, d') ∧ d'.output = see d.output v ∧
      d'.slot.length = d.slot.length := by
  have hcoherent := d.coherent v _ (List.getElem?_eq_getElem hv)
  unfold position
  split
  next h =>
    rw [List.getElem?_eq_getElem hv] at h
    cases h
  next s h =>
    obtain rfl : d.slot[v] = s := by
      rw [List.getElem?_eq_getElem hv] at h
      exact Option.some.inj h
    by_cases hmem : v ∈ d.output
    · rw [if_pos hmem] at hcoherent
      rw [dif_neg (by omega), see_of_mem hmem]
      exact ⟨d, by rw [hcoherent, Int.toNat_natCast], rfl, rfl⟩
    · rw [if_neg hmem] at hcoherent
      rw [dif_pos (by omega), see_of_not_mem hmem, rank_append_self hmem]
      refine ⟨_, rfl, rfl, ?_⟩
      exact List.length_set

/-- A value beyond the slots is an index out of range. -/
theorem position_of_le (d : Slots) {v : ℕ} (hv : d.slot.length ≤ v) : d.position v = none := by
  have hnone : d.slot[v]? = none := List.getElem?_eq_none hv
  unfold position
  split
  next => rfl
  next s h =>
    rw [hnone] at h
    cases h

end Slots

end FirstVisit
