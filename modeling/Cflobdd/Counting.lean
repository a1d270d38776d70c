import Cflobdd.Reduction

/-!
# Correctness of path counting

The path counts of a node are the numbers of assignments that take its exits. Up to
level six every product and every partial sum is at most `2 ^ 64`, so that no checked
operation fails.
-/

namespace Cflobdd

open FirstVisit Growing Enumerated

section Bounds

variable {k : ℕ} {α : Type} [DecidableEq α]

/-- How often a function takes a value, collected by rows. -/
theorem visits_rows (g : Asg (k + 1) → α) (v : α) :
    visits g v = ((visited (row g)).map fun r => visits (row g) r * visits r v).sum :=
  visits_pairs (Asg.all_succ k) g v

/-- The part of a count that the rows `done` contribute. -/
def partialCount (g : Asg (k + 1) → α) (done : List (Asg k → α)) (v : α) : ℕ :=
  (done.map fun r => visits (row g) r * visits r v).sum

/-- One more row adds its paths. -/
theorem partialCount_concat (g : Asg (k + 1) → α) (done : List (Asg k → α)) (r : Asg k → α)
    (v : α) : partialCount g (done ++ [r]) v =
      partialCount g done v + visits (row g) r * visits r v := by
  simp [partialCount]

/-- The partial counts stay below the final ones. -/
theorem partialCount_le {g : Asg (k + 1) → α} {done rest : List (Asg k → α)}
    (h : visited (row g) = done ++ rest) (v : α) : partialCount g done v ≤ visits g v := by
  rw [visits_rows, h, List.map_append, List.sum_append]
  exact Nat.le_add_right _ _

/-- Up to level six all counts are in range. -/
theorem visits_lt (hk : k ≤ 6) (g : Asg k → α) (v : α) : visits g v < i128Bound := by
  have hle := visits_le g v
  rw [Asg.length_all] at hle
  have hpow : 2 ^ 2 ^ k ≤ 2 ^ 64 :=
    Nat.pow_le_pow_right (by decide) ((Nat.pow_le_pow_right (by decide) hk).trans_eq rfl)
  exact (hle.trans hpow).trans_lt (by decide)

end Bounds

/-- The entries of the second list with their positions, beside the first list. -/
theorem forall₂_zipIdx {α β : Type*} {R : α → β → Prop} {xs : List α} {ys : List β}
    (h : List.Forall₂ R xs ys) :
    List.Forall₂ (fun x (entry : β × ℕ) => R x entry.1 ∧ xs[entry.2]? = some x) xs ys.zipIdx := by
  rw [List.forall₂_iff_get] at h ⊢
  obtain ⟨hlen, hget⟩ := h
  refine ⟨by simpa using hlen, ?_⟩
  intro i hi hi'
  have hiy : i < ys.length := by simpa using hi'
  simp only [List.get_eq_getElem, List.getElem_zipIdx, Nat.zero_add]
  exact ⟨hget i hi hiy, List.getElem?_eq_getElem hi⟩

section Exits

variable {m : Manager} {k : ℕ} {α : Type} [DecidableEq α]

/-- One B-connection: the paths through it are added to the counts of all exits. -/
theorem pathExits_returns (hm : m.Inv) {vals : List α} (hvals : vals.Nodup) {r : Asg k → α}
    (hr : ∀ y, r y ∈ vals) {aPathsI : ℕ} {base : α → ℕ}
    (hbound : ∀ v, base v + aPathsI * visits r v < i128Bound) :
    Returns (((visited r).map (rank vals)).zipIdx.foldlM (pathExit aPathsI (visitCounts r))
        (vals.map base)) m
      fun out _ => out = vals.map fun v => base v + aPathsI * visits r v := by
  have hentries : List.Forall₂ (fun w c => c = rank vals w) (visited r)
      ((visited r).map (rank vals)) := by
    rw [List.forall₂_map_right_iff]
    exact List.forall₂_same.mpr fun _ _ => rfl
  refine (Runs.foldlM_forall₂ (I := fun done out _ => out = vals.map fun v =>
    base v + if v ∈ done then aPathsI * visits r v else 0) (forall₂_zipIdx hentries) hm
    (by simp) ?_).mono ?_
  · rintro done w rest ⟨c, j⟩ out m₁ hdone ⟨hc, hj⟩ _ hm₁ rfl
    dsimp only at hc hj
    subst hc
    obtain ⟨y, rfl⟩ := mem_visited.mp (show w ∈ visited r by simp [hdone])
    have hnew : r y ∉ done := by
      have hnodup := nodup_visited r
      rw [hdone, List.nodup_middle, List.nodup_cons, List.mem_append, not_or] at hnodup
      exact hnodup.1.1
    have hlt := hbound (r y)
    have hmul : checkedMul aPathsI (visits r (r y)) = some (aPathsI * visits r (r y)) :=
      if_pos (by omega)
    have hadd : checkedAdd (base (r y)) (aPathsI * visits r (r y)) =
        some (base (r y) + aPathsI * visits r (r y)) := if_pos hlt
    have hslot : (vals.map fun v => base v + if v ∈ done then aPathsI * visits r v else 0)[
        rank vals (r y)]? = some (base (r y)) := by
      rw [List.getElem?_map, getElem?_rank (hr y), Option.map_some, if_neg hnew, Nat.add_zero]
    unfold pathExit
    refine index_bind (getElem?_visitCounts hj) ?_
    rw [hmul, expect, pure_bind]
    refine index_bind hslot ?_
    rw [hadd, expect, pure_bind]
    refine Runs.pure hm₁ ?_
    rw [map_set_rank hvals]
    refine List.map_congr_left fun v _ => ?_
    by_cases hv : v = r y
    · subst hv
      simp
    · simp [hv]
  · rintro out m₁ _ _ rfl
    refine List.map_congr_left fun v _ => ?_
    by_cases hv : v ∈ visited r
    · rw [if_pos hv]
    · rw [if_neg hv, visits_of_not_mem hv, Nat.mul_zero]

end Exits

section Node

variable {m : Manager} {k : ℕ}

/-- A program counts the paths of nodes of level `k`. -/
def PathsCorrect (f : NodeId → ManagerM (List ℕ)) (k : ℕ) : Prop :=
  ∀ {m : Manager} {α : Type} [DecidableEq α] {g : Asg k → α} {n : NodeId}, m.Inv →
    Represents m k g n → Returns (f n) m fun paths _ => paths = visitCounts g

variable {α : Type} [DecidableEq α] {g : Asg (k + 1) → α}

/-- One B-connection adds the paths of its row. -/
theorem pathStep_returns {f : NodeId → ManagerM (List ℕ)} (hf : PathsCorrect f k) (hk : k + 1 ≤ 6)
    (hm : m.Inv) {done rest : List (Asg k → α)} {r : Asg k → α}
    (hrows : visited (row g) = done ++ r :: rest) {entry : Connection × ℕ}
    (hb : Represents m k r entry.1.target)
    (hmap : m.body? entry.1.returnMap = some ((visited r).map (rank (visited g))))
    (hi : (visited (row g))[entry.2]? = some r) :
    Returns (pathStep f (visitCounts (row g)) ((visited g).map (partialCount g done)) entry) m
      fun out _ => out = (visited g).map (partialCount g (done ++ [r])) := by
  have hr : r ∈ visited (row g) := by simp [hrows]
  obtain ⟨bConn, i⟩ := entry
  unfold pathStep
  refine Runs.bind (hf hm hb) ?_
  rintro bPaths m₁ hle₁ hm₁ rfl
  refine body_bind hm₁ (Manager.body?_mono hle₁ hmap) ?_
  refine debugAssert_bind (beq_iff_eq.mpr (by simp)) ?_
  refine index_bind (getElem?_visitCounts hi) ?_
  have hcount : (fun v => partialCount g done v + visits (row g) r * visits r v) =
      partialCount g (done ++ [r]) := funext fun v => (partialCount_concat g done r v).symm
  have hbound : ∀ v, partialCount g done v + visits (row g) r * visits r v < i128Bound := by
    intro v
    rw [← partialCount_concat]
    have hprefix : visited (row g) = (done ++ [r]) ++ rest := by simp [hrows]
    exact (partialCount_le hprefix v).trans_lt (visits_lt hk g v)
  rw [← hcount]
  exact pathExits_returns hm₁ (nodup_visited g) (mem_visited_of_row hr) hbound

/-- The path counts of an internal node. -/
theorem computePathsUncached_internal {f : NodeId → ManagerM (List ℕ)} (hf : PathsCorrect f k)
    (hk : k + 1 ≤ 6) (hm : m.Inv) {n : NodeId} (h : Represents m (k + 1) g n) :
    Returns (computePathsUncached f n) m fun paths _ => paths = visitCounts g := by
  obtain ⟨aConn, bConns, hrecord, hparts⟩ := h.parts
  have hdontCare : n ≠ .dontCare := by
    rintro rfl
    rw [m.record?_dontCare] at hrecord
    cases hrecord
  have hfork : n ≠ .fork := by
    rintro rfl
    rw [m.record?_fork] at hrecord
    cases hrecord
  unfold computePathsUncached
  rw [if_neg hdontCare, if_neg hfork]
  refine record_bind hm hrecord ?_
  dsimp only
  refine Runs.bind (hf hm hparts.aTarget) ?_
  rintro aPaths m₁ hle₁ hm₁ rfl
  refine body_bind hm₁ (Manager.body?_mono hle₁ hparts.aMap) ?_
  refine debugAssert_bind (isIdentity_range _) ?_
  refine debugAssert_bind (beq_iff_eq.mpr (by simp [hparts.bConns.length_eq])) ?_
  have hinit : (visited g).map (partialCount g []) = List.replicate (visited g).length 0 :=
    List.map_const'
  refine (Runs.foldlM_forall₂ (I := fun done out _ => out = (visited g).map (partialCount g done))
    (forall₂_zipIdx hparts.bConns) hm₁ hinit.symm ?_).mono ?_
  · rintro done r rest entry out m₂ hrows ⟨hb, hi⟩ hle₂ hm₂ rfl
    exact pathStep_returns hf hk hm₂ hrows (hb.1.mono (hle₁.trans hle₂))
      (Manager.body?_mono (hle₁.trans hle₂) hb.2) hi
  · rintro out m₂ _ _ rfl
    exact List.map_congr_left fun v _ => (visits_rows g v).symm

/-- The path counts of a leaf. -/
theorem computePathsUncached_leaf {f : NodeId → ManagerM (List ℕ)} (hm : m.Inv) {g : Asg 0 → α}
    {n : NodeId} (h : Represents m 0 g n) :
    Returns (computePathsUncached f n) m fun paths _ => paths = visitCounts g := by
  unfold computePathsUncached
  by_cases heq : g (.leaf false) = g (.leaf true)
  · obtain rfl : n = .dontCare := h.trans (if_pos heq)
    rw [if_pos rfl]
    refine Runs.pure hm ?_
    simp [visitCounts, visited_zero, visits, Asg.all_zero, heq]
  · obtain rfl : n = .fork := h.trans (if_neg heq)
    rw [if_neg (by decide), if_pos rfl]
    refine Runs.pure hm ?_
    simp [visitCounts, visited_zero, visits, Asg.all_zero, heq, Ne.symm heq]

/-- Memoized path counts are the path counts. -/
theorem PathEntry.paths_eq {n : NodeId} {paths : List ℕ} {g : Asg k → α}
    (h : PathEntry m n paths) (hn : Represents m k g n) : paths = visitCounts g := by
  obtain ⟨k', e, -, he, rfl⟩ := h
  obtain rfl : k' = k := he.level_unique hn
  rw [← visitCounts_number e, he.number_eq hn, visitCounts_number]

/-- Memoizing path counts. -/
theorem recordPaths_spec {n : NodeId} {g : Asg k → α} (hm : m.Inv) (hk : k ≤ 6)
    (hn : Represents m k g n) :
    m ≤ recordPaths n (visitCounts g) m ∧ (recordPaths n (visitCounts g) m).Inv ∧
      lookupPaths n (recordPaths n (visitCounts g) m) = some (visitCounts g) := by
  have hle : m ≤ recordPaths n (visitCounts g) m :=
    { le_refl m with
      pathCounts := fun id paths hpaths => Table.get?_insert_of_agree
        (fun paths' hpaths' => (hm.pathCounts _ _ hpaths').paths_eq hn) hpaths }
  refine ⟨hle, ?_, Table.get?_insert_self _ _ _⟩
  refine hm.grow hle (fun _ _ h => .inl h) rfl (fun _ _ h => .inl h) (fun _ _ h => .inl h)
    (fun _ _ h => .inl h) ?_ (fun _ h => .inl h)
  intro id paths hpaths
  rw [recordPaths, Table.get?_insert] at hpaths
  split at hpaths
  next hid =>
    obtain rfl := Option.some.inj hpaths
    subst hid
    exact .inr ⟨k, number g, hk, hn.numbered.mono hle, (visitCounts_number g).symm⟩
  next => exact .inl hpaths

/-- **Correctness of `compute_paths`:** it gives the number of assignments for each exit. -/
theorem computePaths_returns {fuel : ℕ} (hfuel : k < fuel) (hk : k ≤ 6) :
    PathsCorrect (computePaths fuel) k := by
  induction fuel generalizing k with
  | zero => omega
  | succ fuel ih =>
    intro m α _ g n hm hn
    unfold computePaths
    refine Runs.memoized hm (fun t hle => hle.memo) ?_ ?_ ?_ ?_
    · intro t u paths _ htu _ _ hlookup
      exact htu.pathCounts _ _ hlookup
    · intro paths hlookup
      exact (hm.pathCounts _ _ hlookup).paths_eq hn
    · cases k with
      | zero => exact computePathsUncached_leaf hm hn
      | succ k => exact computePathsUncached_internal (ih (by omega) (by omega)) hk hm hn
    · rintro paths t hle ht rfl
      obtain ⟨hle', hinv, hlookup⟩ := recordPaths_spec ht hk (hn.mono hle)
      exact ⟨hle', hinv, rfl, hlookup⟩

end Node

section Count

variable {m : Manager} {L : ℕ} {f : Bdd} {F : Asg L → Bool}

/-- Above level six `path_count` panics before it does anything. -/
theorem pathCount_of_level (h : ¬m.level ≤ 6) :
    pathCount f m = .error (.pathCountLevel m.level) m := by
  have hlevel : reads Manager.level m = .ok m.level m := rfl
  unfold pathCount
  rw [bind_ok hlevel, assert_of_false (decide_eq_false h)]
  rfl

/-- A count that was returned is of a level within the guard. -/
theorem level_le_of_pathCount {count : ℕ} {m' : Manager} (hok : pathCount f m = .ok count m') :
    m.level ≤ 6 := by
  by_contra hlevel
  rw [pathCount_of_level hlevel] at hok
  cases hok

/-- **Correctness of `path_count`:** it gives the number of satisfying assignments. -/
theorem pathCount_returns (hm : m.Inv) (hL : m.level = L) (hL6 : L ≤ 6) (hf : Denotes m L f F) :
    Returns (pathCount f) m fun count _ => count = visits F true := by
  unfold pathCount
  refine level_bind hm ?_
  rw [hL]
  refine assert_bind (decide_eq_true hL6) ?_
  refine Runs.bind (computePaths_returns (Nat.lt_succ_self L) hL6 hm hf.root) ?_
  rintro rootPaths m₁ hle₁ hm₁ rfl
  refine body_bind hm₁ (Manager.body?_mono hle₁ hf.values) ?_
  refine debugAssert_bind (beq_iff_eq.mpr (by simp)) ?_
  have hentries : List.Forall₂ (fun b v => v = Bool.toNat b) (visited F)
      ((visited F).map Bool.toNat) := by
    rw [List.forall₂_map_right_iff]
    exact List.forall₂_same.mpr fun _ _ => rfl
  refine (Runs.foldlM_forall₂
    (I := fun done acc _ => acc = if true ∈ done then visits F true else 0)
    (forall₂_zipIdx hentries) hm₁ rfl ?_).mono ?_
  · rintro done b rest ⟨v, i⟩ acc m₂ hdone ⟨hv, hi⟩ _ hm₂ rfl
    dsimp only at hv hi
    subst hv
    unfold sumStep
    dsimp only
    cases b with
    | false =>
      rw [if_neg (show ¬false.toNat = 1 by decide)]
      exact Runs.pure hm₂ (by simp)
    | true =>
      have hnew : true ∉ done := by
        have hnodup := nodup_visited F
        rw [hdone, List.nodup_middle, List.nodup_cons, List.mem_append, not_or] at hnodup
        exact hnodup.1.1
      have hadd : checkedAdd 0 (visits F true) = some (visits F true) := by
        rw [checkedAdd, if_pos (by rw [Nat.zero_add]; exact visits_lt hL6 F true), Nat.zero_add]
      rw [if_pos (show true.toNat = 1 from rfl)]
      refine index_bind (getElem?_visitCounts hi) ?_
      rw [if_neg hnew, hadd]
      exact Runs.pure hm₂ (by simp)
  · rintro count m₂ _ _ rfl
    split
    next => rfl
    next h => exact (visits_of_not_mem h).symm

end Count

end Cflobdd
