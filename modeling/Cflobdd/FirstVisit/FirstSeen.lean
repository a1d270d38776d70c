import Mathlib.Data.List.Nodup
import Mathlib.Data.List.Infix
import Mathlib.Data.List.Forall2
import Mathlib.Data.Set.Function

/-!
# Lists numbered by first occurrence

Reading a list from left to right and keeping every value the first time it is
met numbers the values of the list. This file develops that numbering: the kept
list `firstSeen`, the number `rank` of a value, and the laws by which repeated,
mapped and concatenated readings give the same numbering.
-/

namespace FirstVisit

variable {α β : Type*} [DecidableEq α] [DecidableEq β]

/-- Append `v` to the values already seen, unless it is one of them. -/
def see (seen : List α) (v : α) : List α := if v ∈ seen then seen else seen ++ [v]

/-- Read a whole list on top of the values already seen. -/
def seeAll (seen vs : List α) : List α := vs.foldl see seen

/-- The distinct values of a list in the order of their first occurrence. -/
def firstSeen (vs : List α) : List α := seeAll [] vs

/-- The position of `v` among the values seen, and their number if `v` is not one of them. -/
def rank (seen : List α) (v : α) : ℕ := @List.idxOf α instBEqOfDecidableEq v seen

/-- Seeing a value again changes nothing. -/
theorem see_of_mem {seen : List α} {v : α} (h : v ∈ seen) : see seen v = seen := if_pos h

/-- A new value is added at the end. -/
theorem see_of_not_mem {seen : List α} {v : α} (h : v ∉ seen) : see seen v = seen ++ [v] :=
  if_neg h

/-- Seeing nothing. -/
@[simp] theorem seeAll_nil (seen : List α) : seeAll seen [] = seen := rfl

/-- Values are seen from the left. -/
@[simp] theorem seeAll_cons (seen : List α) (v : α) (vs : List α) :
    seeAll seen (v :: vs) = seeAll (see seen v) vs := rfl

/-- Seeing two lists one after the other. -/
theorem seeAll_append (seen vs ws : List α) :
    seeAll seen (vs ++ ws) = seeAll (seeAll seen vs) ws := List.foldl_append

/-- Seeing one more value. -/
theorem seeAll_concat (seen vs : List α) (v : α) :
    seeAll seen (vs ++ [v]) = see (seeAll seen vs) v := seeAll_append seen vs [v]

/-- The first occurrences with one more value. -/
theorem firstSeen_concat (vs : List α) (v : α) :
    firstSeen (vs ++ [v]) = see (firstSeen vs) v := seeAll_concat [] vs v

/-- The first occurrences in two lists. -/
theorem firstSeen_append (vs ws : List α) :
    firstSeen (vs ++ ws) = seeAll (firstSeen vs) ws := seeAll_append [] vs ws

/-- What has been seen after one more value. -/
theorem mem_see {seen : List α} {v w : α} : w ∈ see seen v ↔ w ∈ seen ∨ w = v := by
  by_cases h : v ∈ seen
  · rw [see_of_mem h]
    constructor
    · exact Or.inl
    · rintro (hw | rfl)
      · exact hw
      · exact h
  · rw [see_of_not_mem h, List.mem_append, List.mem_singleton]

/-- What has been seen after a list. -/
theorem mem_seeAll {seen vs : List α} {w : α} : w ∈ seeAll seen vs ↔ w ∈ seen ∨ w ∈ vs := by
  induction vs generalizing seen with
  | nil => simp
  | cons v vs ih => rw [seeAll_cons, ih, mem_see, List.mem_cons, or_assoc]

/-- Every value has a first occurrence. -/
@[simp] theorem mem_firstSeen {vs : List α} {w : α} : w ∈ firstSeen vs ↔ w ∈ vs := by
  simp [firstSeen, mem_seeAll]

/-- No value is added twice. -/
theorem nodup_see {seen : List α} {v : α} (h : seen.Nodup) : (see seen v).Nodup := by
  by_cases hv : v ∈ seen
  · rwa [see_of_mem hv]
  · rw [see_of_not_mem hv, List.nodup_append]
    refine ⟨h, List.nodup_singleton v, ?_⟩
    intro a ha b hb hab
    rw [List.mem_singleton] at hb
    exact hv (by rwa [← hb, ← hab])

/-- Nor by a list. -/
theorem nodup_seeAll {seen vs : List α} (h : seen.Nodup) : (seeAll seen vs).Nodup := by
  induction vs generalizing seen with
  | nil => exact h
  | cons v vs ih => exact ih (nodup_see h)

/-- First occurrences are all different. -/
theorem nodup_firstSeen (vs : List α) : (firstSeen vs).Nodup := nodup_seeAll List.nodup_nil

/-- What was seen before keeps its place. -/
theorem prefix_see (seen : List α) (v : α) : seen <+: see seen v := by
  by_cases h : v ∈ seen
  · rw [see_of_mem h]
  · rw [see_of_not_mem h]
    exact List.prefix_append seen [v]

/-- What has been seen stays at its place: later readings only append. -/
theorem prefix_seeAll (seen vs : List α) : seen <+: seeAll seen vs := by
  induction vs generalizing seen with
  | nil => exact List.prefix_rfl
  | cons v vs ih => exact (prefix_see seen v).trans (ih _)

/-- A list of values seen before adds nothing. -/
theorem seeAll_of_subset {seen vs : List α} (h : ∀ v ∈ vs, v ∈ seen) : seeAll seen vs = seen := by
  induction vs with
  | nil => rfl
  | cons v vs ih =>
    rw [seeAll_cons, see_of_mem (h v (by simp))]
    exact ih fun w hw => h w (by simp [hw])

/-- A list without repetitions is its own list of first occurrences. -/
theorem firstSeen_of_nodup {vs : List α} (h : vs.Nodup) : firstSeen vs = vs := by
  induction vs using List.reverseRecOn with
  | nil => rfl
  | append_singleton vs v ih =>
    rw [List.nodup_append] at h
    obtain ⟨hvs, -, hv⟩ := h
    rw [firstSeen_concat, ih hvs, see_of_not_mem]
    intro hmem
    exact hv v hmem v (by simp) rfl

/-- Reading a list block by block, a block met before adds nothing. -/
theorem seeAll_flatMap_firstSeen (seen : List β) (vs : List α) (f : α → List β) :
    seeAll seen ((firstSeen vs).flatMap f) = seeAll seen (vs.flatMap f) := by
  induction vs using List.reverseRecOn with
  | nil => rfl
  | append_singleton vs v ih =>
    rw [firstSeen_concat, List.flatMap_append, seeAll_append]
    by_cases hv : v ∈ firstSeen vs
    · rw [see_of_mem hv, ih, List.flatMap_singleton]
      refine (seeAll_of_subset ?_).symm
      intro w hw
      exact mem_seeAll.mpr (Or.inr (List.mem_flatMap.mpr ⟨v, mem_firstSeen.mp hv, hw⟩))
    · rw [see_of_not_mem hv, List.flatMap_append, seeAll_append, ih]

/-- Repetitions in the outer list do not matter. -/
theorem firstSeen_flatMap_firstSeen (vs : List α) (f : α → List β) :
    firstSeen ((firstSeen vs).flatMap f) = firstSeen (vs.flatMap f) :=
  seeAll_flatMap_firstSeen [] vs f

/-- Repetitions do not matter to what has been seen. -/
theorem seeAll_firstSeen (seen vs : List α) : seeAll seen (firstSeen vs) = seeAll seen vs := by
  have h := seeAll_flatMap_firstSeen seen vs fun v => [v]
  rwa [List.flatMap_singleton', List.flatMap_singleton'] at h

omit [DecidableEq α] in
/-- Inside each block only the first occurrences matter. -/
theorem seeAll_flatMap_inner (seen : List β) (vs : List α) (f : α → List β) :
    seeAll seen (vs.flatMap fun v => firstSeen (f v)) = seeAll seen (vs.flatMap f) := by
  induction vs generalizing seen with
  | nil => rfl
  | cons v vs ih =>
    rw [List.flatMap_cons, List.flatMap_cons, seeAll_append, seeAll_append, seeAll_firstSeen, ih]

omit [DecidableEq α] in
/-- Repetitions in the inner lists do not matter. -/
theorem firstSeen_flatMap_inner (vs : List α) (f : α → List β) :
    firstSeen (vs.flatMap fun v => firstSeen (f v)) = firstSeen (vs.flatMap f) :=
  seeAll_flatMap_inner [] vs f

/-- The first occurrences of a mapped list are found among the first occurrences. -/
theorem firstSeen_map_firstSeen (φ : α → β) (vs : List α) :
    firstSeen ((firstSeen vs).map φ) = firstSeen (vs.map φ) := by
  rw [List.map_eq_flatMap, List.map_eq_flatMap]
  exact firstSeen_flatMap_firstSeen vs fun v => [φ v]

/-- Renaming the values of a list injectively renames its first occurrences. -/
theorem firstSeen_map_of_injOn {φ : α → β} {vs : List α} (hφ : Set.InjOn φ {v | v ∈ vs}) :
    firstSeen (vs.map φ) = (firstSeen vs).map φ := by
  rw [← firstSeen_map_firstSeen]
  refine firstSeen_of_nodup (List.Nodup.map_on ?_ (nodup_firstSeen vs))
  intro v hv w hw h
  exact hφ (mem_firstSeen.mp hv) (mem_firstSeen.mp hw) h

/-- The rank of a member is a position of the list. -/
theorem rank_lt {seen : List α} {v : α} (h : v ∈ seen) : rank seen v < seen.length :=
  List.idxOf_lt_length_of_mem h

/-- At the rank of a value is the value. -/
@[simp] theorem getElem_rank {seen : List α} {v : α} (h : rank seen v < seen.length) :
    seen[rank seen v] = v := List.getElem_idxOf h

/-- At the rank of a member is the member. -/
theorem getElem?_rank {seen : List α} {v : α} (h : v ∈ seen) : seen[rank seen v]? = some v := by
  rw [List.getElem?_eq_getElem (rank_lt h), getElem_rank]

/-- Rank and position are inverse to each other on a list without repetitions. -/
theorem rank_getElem {seen : List α} (hseen : seen.Nodup) {i : ℕ} (hi : i < seen.length) :
    rank seen seen[i] = i := List.Nodup.idxOf_getElem hseen i hi

/-- In a list without repetitions, a position is the rank of its value. -/
theorem rank_of_getElem? {seen : List α} (hseen : seen.Nodup) {i : ℕ} {v : α}
    (h : seen[i]? = some v) : rank seen v = i := by
  obtain ⟨hi, rfl⟩ := List.getElem?_eq_some_iff.mp h
  exact rank_getElem hseen hi

/-- The first value has rank zero. -/
@[simp] theorem rank_cons_self (seen : List α) (v : α) : rank (v :: seen) v = 0 :=
  List.idxOf_cons_self

/-- The second of two values has rank one. -/
theorem rank_pair {v w : α} (h : v ≠ w) : rank [v, w] w = 1 :=
  rank_of_getElem? (by simpa using h) rfl

/-- Different members have different ranks. -/
theorem rank_injOn (seen : List α) : Set.InjOn (rank seen) {v | v ∈ seen} := by
  intro v hv w hw h
  have hv' := getElem?_rank hv
  rw [h, getElem?_rank hw] at hv'
  exact (Option.some.inj hv').symm

/-- A value that is appended gets the next free number. -/
theorem rank_append_self {seen : List α} {v : α} (h : v ∉ seen) :
    rank (seen ++ [v]) v = seen.length := by
  unfold rank
  rw [List.idxOf_append_of_notMem h]
  simp

/-- A value keeps its rank when more values are seen. -/
theorem rank_of_isPrefix {seen later : List α} (h : seen <+: later) {v : α} (hv : v ∈ seen) :
    rank later v = rank seen v := by
  obtain ⟨rest, rfl⟩ := h
  exact List.idxOf_append_of_mem hv

/-- Appending a value does not change what is known of the others. -/
theorem rank_append_of_ne {δ : Type*} {seen : List α} {v w : α} (h : v ≠ w) (f : ℕ → δ) (c : δ) :
    (if w ∈ seen ++ [v] then f (rank (seen ++ [v]) w) else c) =
      if w ∈ seen then f (rank seen w) else c := by
  have hiff : w ∈ seen ++ [v] ↔ w ∈ seen := by simp [Ne.symm h]
  by_cases hmem : w ∈ seen
  · rw [if_pos hmem, if_pos (hiff.mpr hmem), rank_of_isPrefix (List.prefix_append _ _) hmem]
  · rw [if_neg hmem, if_neg fun h => hmem (hiff.mp h)]

/-- Seeing more keeps the ranks. -/
theorem rank_seeAll {seen vs : List α} {v : α} (hv : v ∈ seen) :
    rank (seeAll seen vs) v = rank seen v := rank_of_isPrefix (prefix_seeAll seen vs) hv

/-- An injective renaming keeps the ranks. -/
theorem rank_map_of_injOn {φ : α → β} {seen : List α} (hφ : Set.InjOn φ {v | v ∈ seen})
    (hseen : seen.Nodup) {v : α} (hv : v ∈ seen) : rank (seen.map φ) (φ v) = rank seen v := by
  refine rank_of_getElem? (List.Nodup.map_on (fun x hx y hy => hφ hx hy) hseen) ?_
  rw [List.getElem?_map, getElem?_rank hv, Option.map_some]

/-- Renamed values are seen like the values themselves. -/
theorem see_map_of_injective {φ : α → β} (hφ : Function.Injective φ) (seen : List α) (v : α) :
    see (seen.map φ) (φ v) = (see seen v).map φ := by
  by_cases hv : v ∈ seen
  · rw [see_of_mem hv, see_of_mem (List.mem_map_of_mem hv)]
  · rw [see_of_not_mem hv, see_of_not_mem ((List.mem_map_of_injective hφ).not.mpr hv),
      List.map_append, List.map_singleton]

/-- The ranks of a list without repetitions are its positions. -/
theorem map_rank_self {seen : List α} (hseen : seen.Nodup) :
    seen.map (rank seen) = List.range seen.length := by
  refine List.ext_getElem (by simp) ?_
  intro i hi _
  rw [List.getElem_map, List.getElem_range, rank_getElem hseen]

/-- A number is its own rank. -/
theorem rank_range {m i : ℕ} (hi : i < m) : rank (List.range m) i = i :=
  rank_of_getElem? List.nodup_range (by simp [hi])

/-- Numbers that occur in the order `0, 1, 2, ...` are their own ranks. -/
theorem map_rank_of_firstSeen_range {vs : List ℕ} {m : ℕ} (h : firstSeen vs = List.range m) :
    vs.map (rank (List.range m)) = vs := by
  conv_rhs => rw [← List.map_id vs]
  refine List.map_congr_left fun v hv => rank_range ?_
  rwa [← List.mem_range, ← h, mem_firstSeen]

omit [DecidableEq β] in
/-- Changing the entry of one value in a list indexed by the values seen. -/
theorem map_set_rank {seen : List α} (hseen : seen.Nodup) (v : α) (f : α → β) (b : β) :
    (seen.map f).set (rank seen v) b = seen.map fun w => if w = v then b else f w := by
  refine List.ext_getElem (by simp) ?_
  intro i hi _
  rw [List.getElem_set, List.getElem_map, List.getElem_map]
  by_cases h : rank seen v = i
  · subst h
    rw [if_pos rfl, getElem_rank, if_pos rfl]
  · rw [if_neg h, if_neg fun hw => h ?_]
    rw [← hw, rank_getElem hseen]

/-- The ranks of a list in its own order of first occurrence are themselves numbered
by first occurrence. -/
theorem firstSeen_map_rank (vs : List α) :
    firstSeen (vs.map (rank (firstSeen vs))) = List.range (firstSeen vs).length := by
  rw [firstSeen_map_of_injOn, map_rank_self (nodup_firstSeen vs)]
  intro v hv w hw h
  exact rank_injOn _ (mem_firstSeen.mpr hv) (mem_firstSeen.mpr hw) h

/-- Renaming the values of a list injectively keeps their ranks. -/
theorem map_rank_firstSeen_map {φ : α → β} {vs : List α} (hφ : Set.InjOn φ {v | v ∈ vs}) :
    (vs.map φ).map (rank (firstSeen (vs.map φ))) = vs.map (rank (firstSeen vs)) := by
  rw [firstSeen_map_of_injOn hφ, List.map_map]
  refine List.map_congr_left fun v hv => rank_map_of_injOn ?_ (nodup_firstSeen vs) ?_
  · intro x hx y hy h
    exact hφ (mem_firstSeen.mp hx) (mem_firstSeen.mp hy) h
  · exact mem_firstSeen.mpr hv

/-- Reading one more value leaves the ranks of the others as they are. -/
theorem map_rank_concat (vs : List α) (v : α) :
    (vs ++ [v]).map (rank (firstSeen (vs ++ [v]))) =
      vs.map (rank (firstSeen vs)) ++ [rank (see (firstSeen vs) v) v] := by
  rw [firstSeen_concat, List.map_append, List.map_singleton]
  congr 1
  exact List.map_congr_left fun w hw => rank_of_isPrefix (prefix_see _ _) (mem_firstSeen.mpr hw)

omit [DecidableEq β] in
/-- Reading one more block of values. -/
theorem seeAll_flatMap_block (vals : β → List α) (done : List β) (y : β) :
    seeAll (firstSeen (done.flatMap vals)) (vals y) = firstSeen ((done ++ [y]).flatMap vals) := by
  rw [List.flatMap_append, List.flatMap_singleton, firstSeen_append]

omit [DecidableEq β] in
/-- The ranks a block gets when it is read are its ranks after all blocks are read. -/
theorem map_rank_block (vals : β → List α) (done rest : List β) (y : β) :
    (vals y).map (rank (seeAll (firstSeen (done.flatMap vals)) (vals y))) =
      (vals y).map (rank (firstSeen ((done ++ y :: rest).flatMap vals))) := by
  refine List.map_congr_left fun v hv => (rank_of_isPrefix ?_ ?_).symm
  · rw [List.flatMap_append, List.flatMap_cons, firstSeen_append, seeAll_append]
    exact prefix_seeAll _ _
  · exact mem_seeAll.mpr (Or.inr hv)

/-- Corresponding values are numbered alike in corresponding lists. -/
theorem forall₂_see {R : α → β → Prop} (hR : ∀ {x x' y y'}, R x y → R x' y' → (x = x' ↔ y = y'))
    {xs : List α} {ys : List β} (h : List.Forall₂ R xs ys) {x : α} {y : β} (hxy : R x y) :
    List.Forall₂ R (see xs x) (see ys y) ∧ rank (see ys y) y = rank (see xs x) x := by
  have hmem : (x ∈ xs ↔ y ∈ ys) ∧ rank ys y = rank xs x := by
    induction h with
    | nil => simp [rank]
    | @cons a b xs ys hab _ ih =>
      have hiff := hR hab hxy
      by_cases hax : a = x
      · have hby := hiff.mp hax
        subst hax hby
        simp [rank]
      · have hby : b ≠ y := fun hby => hax (hiff.mpr hby)
        refine ⟨?_, ?_⟩
        · rw [List.mem_cons, List.mem_cons, ih.1]
          simp [Ne.symm hax, Ne.symm hby]
        · unfold rank at ih ⊢
          rw [List.idxOf_cons_ne _ hax, List.idxOf_cons_ne _ hby, ih.2]
  by_cases hx : x ∈ xs
  · rw [see_of_mem hx, see_of_mem (hmem.1.mp hx)]
    exact ⟨h, hmem.2⟩
  · have hy : y ∉ ys := fun hy => hx (hmem.1.mpr hy)
    rw [see_of_not_mem hx, see_of_not_mem hy, rank_append_self hx, rank_append_self hy]
    exact ⟨List.rel_append h (.cons hxy .nil), h.length_eq.symm⟩

end FirstVisit
