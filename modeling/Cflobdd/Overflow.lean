import Cflobdd.CountExact
import Cflobdd.Growing.Outcomes
import Cflobdd.NodeSpecs
import Cflobdd.Recovery

/-!
# Path counts beyond level six

`path_count` refuses managers above level six before it calls `compute_paths`. Without the
guard, `compute_paths` returns the exact counts of a node exactly if all of them are below
`2 ^ 127`, and it panics with an overflow otherwise. Above level six the root of every diagram
has a count that is too large, so the guard refuses nothing that could be counted.
-/

namespace Cflobdd

open FirstVisit Growing Enumerated

/-- The panics of the checked operations in `compute_paths`. -/
def IsOverflow (e : Panic) : Prop := e = .pathMulOverflow ∨ e = .pathAddOverflow

section Bounds

variable {k : ℕ} {α : Type} [DecidableEq α]

/-- All counts of the function are in the range of the type. -/
def Fits (g : Asg k → α) : Prop := ∀ v, visits g v < i128Bound

/-- One count out of range is enough. -/
theorem not_fits {g : Asg k → α} {v : α} (h : i128Bound ≤ visits g v) : ¬Fits g :=
  fun hfits => Nat.not_lt.mpr h (hfits v)

variable {g : Asg (k + 1) → α} {r : Asg k → α}

/-- The paths through one row are among those of the function. -/
theorem mul_visits_le (hr : r ∈ visited (row g)) (v : α) :
    visits (row g) r * visits r v ≤ visits g v := by
  obtain ⟨done, rest, hrows⟩ := List.append_of_mem hr
  have hrows' : visited (row g) = (done ++ [r]) ++ rest := by simp [hrows]
  have hle := partialCount_le hrows' v
  rw [partialCount_concat] at hle
  omega

/-- If a row does not fit, the function does not. -/
theorem Fits.of_row (hr : r ∈ visited (row g)) (h : Fits g) : Fits r := by
  intro v
  obtain ⟨x, rfl⟩ := mem_visited.mp hr
  have hpos := visits_pos (row g) x
  exact (Nat.le_mul_of_pos_left _ hpos).trans_lt ((mul_visits_le hr v).trans_lt (h v))

/-- If the counts of the rows do not fit, the function does not. -/
theorem Fits.of_rows (h : Fits g) : Fits (row g) := by
  intro r
  by_cases hr : r ∈ visited (row g)
  · have hpos := visits_pos r (.allFalse k)
    exact (Nat.le_mul_of_pos_right _ hpos).trans_lt ((mul_visits_le hr _).trans_lt (h _))
  · rw [visits_of_not_mem hr]
    decide

end Bounds

section Exits

variable {m : Manager} {k : ℕ} {α : Type} [DecidableEq α]

/-- One B-connection: either the paths through it are added to the counts of all exits, or one
of the sums is out of range. -/
theorem pathExits_ends {vals : List α} (hvals : vals.Nodup) {r : Asg k → α}
    (hr : ∀ y, r y ∈ vals) {aPathsI : ℕ} {base : α → ℕ} (hbase : ∀ v, base v < i128Bound) :
    Ends (((visited r).map (rank vals)).zipIdx.foldlM (pathExit aPathsI (visitCounts r))
        (vals.map base)) m
      (fun out t => t = m ∧ (out = vals.map fun v => base v + aPathsI * visits r v) ∧
        ∀ v, base v + aPathsI * visits r v < i128Bound)
      fun e t => t = m ∧ IsOverflow e ∧ ∃ v, i128Bound ≤ base v + aPathsI * visits r v := by
  have hentries : List.Forall₂ (fun w c => c = rank vals w) (visited r)
      ((visited r).map (rank vals)) := by
    rw [List.forall₂_map_right_iff]
    exact List.forall₂_same.mpr fun _ _ => rfl
  refine (Ends.foldlM_forall₂ (I := fun done out t => t = m ∧
    (out = vals.map fun v => base v + if v ∈ done then aPathsI * visits r v else 0) ∧
    ∀ v, (base v + if v ∈ done then aPathsI * visits r v else 0) < i128Bound)
    (forall₂_zipIdx hentries) ⟨rfl, by simp, by simpa using hbase⟩ ?_).mono ?_ fun _ _ h => h
  · rintro done w rest ⟨c, j⟩ out t hdone ⟨hc, hj⟩ ⟨rfl, rfl, hlt⟩
    dsimp only at hc hj
    subst hc
    obtain ⟨y, rfl⟩ := mem_visited.mp (show w ∈ visited r by simp [hdone])
    have hnew : r y ∉ done := by
      have hnodup := nodup_visited r
      rw [hdone, List.nodup_middle, List.nodup_cons, List.mem_append, not_or] at hnodup
      exact hnodup.1.1
    have hslot : (vals.map fun v => base v + if v ∈ done then aPathsI * visits r v else 0)[
        rank vals (r y)]? = some (base (r y)) := by
      rw [List.getElem?_map, getElem?_rank (hr y), Option.map_some, if_neg hnew, Nat.add_zero]
    unfold pathExit
    dsimp only
    rw [index_of_some (getElem?_visitCounts hj), pure_bind, checkedMul]
    by_cases hmul : aPathsI * visits r (r y) < i128Bound
    · rw [if_pos hmul, expect, pure_bind, index_of_some hslot, pure_bind, checkedAdd]
      by_cases hadd : base (r y) + aPathsI * visits r (r y) < i128Bound
      · rw [if_pos hadd, expect, pure_bind]
        have hentry : ∀ v, (if v ∈ done ++ [r y] then aPathsI * visits r v else 0) =
            if v = r y then aPathsI * visits r (r y)
            else if v ∈ done then aPathsI * visits r v else 0 := by
          intro v
          by_cases hv : v = r y
          · subst hv
            simp
          · simp [hv]
        refine Ends.pure ⟨rfl, ?_, fun v => ?_⟩
        · rw [map_set_rank hvals]
          refine List.map_congr_left fun v _ => ?_
          rw [hentry]
          by_cases hv : v = r y
          · rw [if_pos hv, if_pos hv, hv]
          · rw [if_neg hv, if_neg hv]
        · rw [hentry]
          by_cases hv : v = r y
          · rw [if_pos hv, hv]
            exact hadd
          · rw [if_neg hv]
            exact hlt v
      · rw [if_neg hadd]
        exact Ends.throw ⟨rfl, .inr rfl, r y, Nat.not_lt.mp hadd⟩
    · rw [if_neg hmul]
      exact Ends.throw ⟨rfl, .inl rfl, r y, by omega⟩
  · rintro out t ⟨rfl, rfl, hlt⟩
    have hall : ∀ v, (if v ∈ visited r then aPathsI * visits r v else 0) =
        aPathsI * visits r v := by
      intro v
      by_cases hv : v ∈ visited r
      · rw [if_pos hv]
      · rw [if_neg hv, visits_of_not_mem hv, Nat.mul_zero]
    simp only [hall] at hlt ⊢
    exact ⟨trivial, trivial, hlt⟩

end Exits

/-- A manager that differs from `m` in the path counts only, each of which is that of its node
and in range. -/
structure CountsOnly (m t : Manager) : Prop where
  eq : t = { m with pathCounts := t.pathCounts }
  entries : ∀ id paths, t.pathCounts.get? id = some paths →
    ∃ (k : ℕ) (e : Asg k → ℕ), Represents m k e id ∧ paths = visitCounts e ∧ Fits e

section Node

variable {m t : Manager} {k : ℕ} {α : Type} [DecidableEq α]

/-- At the start nothing has been added. -/
theorem Manager.Inv.countsOnly (hm : m.Inv) : CountsOnly m m where
  eq := rfl
  entries id paths h := by
    obtain ⟨k, e, hk, he, hpaths⟩ := hm.pathCounts id paths h
    exact ⟨k, e, he, hpaths, fun v => visits_lt hk e v⟩

/-- Records are read as before. -/
theorem CountsOnly.record_ok (ht : CountsOnly m t) {id : NodeId} {r : NodeRecord}
    (h : m.record? id = some r) : record id t = .ok r t := by
  refine Cflobdd.record_ok ?_
  rw [ht.eq]
  exact h

/-- Bodies are read as before. -/
theorem CountsOnly.body_ok (ht : CountsOnly m t) {id : ReturnMapId} {b : List ℕ}
    (h : m.body? id = some b) : body id t = .ok b t := by
  refine Cflobdd.body_ok ?_
  rw [ht.eq]
  exact h

/-- Counts in range may be recorded. -/
theorem CountsOnly.recordPaths (ht : CountsOnly m t) {n : NodeId} {g : Asg k → α}
    (hn : Represents m k g n) (hg : Fits g) :
    CountsOnly m (recordPaths n (visitCounts g) t) where
  eq := by
    conv_lhs => rw [ht.eq]
    rfl
  entries id paths h := by
    rw [Cflobdd.recordPaths, Table.get?_insert] at h
    split at h
    next hid =>
      obtain rfl := Option.some.inj h
      subst hid
      refine ⟨k, number g, hn.numbered, (visitCounts_number g).symm, fun v => ?_⟩
      by_cases hv : ∃ a, number g a = v
      · obtain ⟨a, rfl⟩ := hv
        rw [visits_number]
        exact hg _
      · rw [visits_of_not_mem fun hmem => hv (mem_visited.mp hmem)]
        decide
    next => exact ht.entries id paths h

/-- What a program that counts the paths of nodes of level `k` ends in: the counts, which are
in range, or an overflow, some count being out of range. -/
def PathsEnd (m : Manager) (f : NodeId → ManagerM (List ℕ)) (k : ℕ) : Prop :=
  ∀ {t : Manager} {α : Type} [DecidableEq α] {g : Asg k → α} {n : NodeId}, CountsOnly m t →
    Represents m k g n →
    Ends (f n) t (fun paths t' => CountsOnly m t' ∧ paths = visitCounts g ∧ Fits g)
      fun e t' => CountsOnly m t' ∧ IsOverflow e ∧ ¬Fits g

variable {g : Asg (k + 1) → α}

/-- One B-connection. -/
theorem pathStep_ends {f : NodeId → ManagerM (List ℕ)} (hf : PathsEnd m f k)
    (ht : CountsOnly m t) {done rest : List (Asg k → α)} {r : Asg k → α}
    (hrows : visited (row g) = done ++ r :: rest)
    (hdone : ∀ v, partialCount g done v < i128Bound) {entry : Connection × ℕ}
    (hb : Represents m k r entry.1.target)
    (hmap : m.body? entry.1.returnMap = some ((visited r).map (rank (visited g))))
    (hi : (visited (row g))[entry.2]? = some r) :
    Ends (pathStep f (visitCounts (row g)) ((visited g).map (partialCount g done)) entry) t
      (fun out t' => CountsOnly m t' ∧ out = (visited g).map (partialCount g (done ++ [r])) ∧
        ∀ v, partialCount g (done ++ [r]) v < i128Bound)
      fun e t' => CountsOnly m t' ∧ IsOverflow e ∧ ¬Fits g := by
  have hr : r ∈ visited (row g) := by simp [hrows]
  obtain ⟨bConn, i⟩ := entry
  unfold pathStep
  refine ((hf ht hb).mono (fun _ _ h => h) fun e t' h =>
    ⟨h.1, h.2.1, fun hg => h.2.2 (hg.of_row hr)⟩).bind ?_
  rintro bPaths t₁ ⟨ht₁, rfl, -⟩
  refine .bind_ok (ht₁.body_ok hmap) ?_
  rw [debugAssert_of_true (beq_iff_eq.mpr (by simp)), pure_bind,
    index_of_some (getElem?_visitCounts hi), pure_bind]
  have hcount : ∀ v, partialCount g done v + visits (row g) r * visits r v =
      partialCount g (done ++ [r]) v := fun v => (partialCount_concat g done r v).symm
  refine (pathExits_ends (nodup_visited g) (mem_visited_of_row hr) hdone).mono ?_ ?_
  · rintro out t' ⟨rfl, rfl, hlt⟩
    simp only [hcount] at hlt ⊢
    exact ⟨ht₁, trivial, hlt⟩
  · rintro e t' ⟨rfl, he, v, hv⟩
    rw [hcount] at hv
    have hprefix : visited (row g) = (done ++ [r]) ++ rest := by simp [hrows]
    exact ⟨ht₁, he, not_fits (hv.trans (partialCount_le hprefix v))⟩

/-- An internal node. -/
theorem computePathsUncached_internal_ends {f : NodeId → ManagerM (List ℕ)} (hf : PathsEnd m f k)
    (ht : CountsOnly m t) {n : NodeId} (h : Represents m (k + 1) g n) :
    Ends (computePathsUncached f n) t
      (fun paths t' => CountsOnly m t' ∧ paths = visitCounts g ∧ Fits g)
      fun e t' => CountsOnly m t' ∧ IsOverflow e ∧ ¬Fits g := by
  obtain ⟨aConn, bConns, hrecord, hparts⟩ := h.parts
  have hdontCare : n ≠ .dontCare := by
    rintro rfl
    rw [m.record?_dontCare] at hrecord
    cases hrecord
  have hfork : n ≠ .fork := by
    rintro rfl
    rw [m.record?_fork] at hrecord
    cases hrecord
  unfold computePathsUncached
  rw [if_neg hdontCare, if_neg hfork]
  refine .bind_ok (ht.record_ok hrecord) ?_
  dsimp only
  refine ((hf ht hparts.aTarget).mono (fun _ _ h => h) fun e t' h =>
    ⟨h.1, h.2.1, fun hg => h.2.2 hg.of_rows⟩).bind ?_
  rintro aPaths t₁ ⟨ht₁, rfl, -⟩
  refine .bind_ok (ht₁.body_ok hparts.aMap) ?_
  rw [debugAssert_of_true (isIdentity_range _), pure_bind,
    debugAssert_of_true (beq_iff_eq.mpr (by simp [hparts.bConns.length_eq])), pure_bind]
  have hinit : (visited g).map (partialCount g []) = List.replicate (visited g).length 0 :=
    List.map_const'
  have hzero : 0 < i128Bound := by decide
  refine (Ends.foldlM_forall₂ (I := fun done out t' => CountsOnly m t' ∧
    out = (visited g).map (partialCount g done) ∧ ∀ v, partialCount g done v < i128Bound)
    (forall₂_zipIdx hparts.bConns) ⟨ht₁, hinit.symm, fun _ => hzero⟩ ?_).mono ?_
    fun _ _ h => h
  · rintro done r rest entry out t₂ hrows ⟨hb, hi⟩ ⟨ht₂, rfl, hdone⟩
    exact pathStep_ends hf ht₂ hrows hdone hb.1 hb.2 hi
  · rintro out t' ⟨ht', rfl, hlt⟩
    have htotal : ∀ v, partialCount g (visited (row g)) v = visits g v :=
      fun v => (visits_rows g v).symm
    simp only [htotal] at hlt
    exact ⟨ht', List.map_congr_left fun v _ => htotal v, hlt⟩

/-- **How `compute_paths` ends:** with the exact counts, if all of them are in range, and with
an overflow otherwise. -/
theorem computePaths_ends {fuel : ℕ} (hfuel : k < fuel) : PathsEnd m (computePaths fuel) k := by
  induction fuel generalizing k with
  | zero => omega
  | succ fuel ih =>
    intro t α _ g n ht hn
    have hcompute : Ends (computePathsUncached (computePaths fuel) n) t
        (fun paths t' => CountsOnly m t' ∧ paths = visitCounts g ∧ Fits g)
        fun e t' => CountsOnly m t' ∧ IsOverflow e ∧ ¬Fits g := by
      cases k with
      | zero =>
        -- The counts of a leaf are at most two.
        have hg : Fits g := fun v => visits_lt (Nat.zero_le 6) g v
        unfold computePathsUncached
        by_cases heq : g (.leaf false) = g (.leaf true)
        · obtain rfl : n = .dontCare := Eq.trans hn (if_pos heq)
          rw [if_pos rfl]
          exact Ends.pure ⟨ht, by simp [visitCounts, visited_zero, visits, Asg.all_zero, heq], hg⟩
        · obtain rfl : n = .fork := Eq.trans hn (if_neg heq)
          rw [if_neg (by decide), if_pos rfl]
          refine Ends.pure ⟨ht, ?_, hg⟩
          simp [visitCounts, visited_zero, visits, Asg.all_zero, heq, Ne.symm heq]
      | succ k => exact computePathsUncached_internal_ends (ih (by omega)) ht hn
    unfold computePaths
    refine Ends.memoized (fun _ => hcompute) ?_ ?_
    · intro paths _ hlookup
      obtain ⟨k', e, he, rfl, hfits⟩ := ht.entries _ _ hlookup
      obtain rfl : k' = k := he.level_unique hn
      have hcounts : visitCounts e = visitCounts g := by
        rw [← visitCounts_number e, he.number_eq hn, visitCounts_number]
      refine ⟨ht, hcounts, fun v => ?_⟩
      by_cases hv : ∃ a, g a = v
      · obtain ⟨a, rfl⟩ := hv
        rw [← visits_number g a, ← he.number_eq hn, visits_number]
        exact hfits _
      · rw [visits_of_not_mem fun hmem => hv (mem_visited.mp hmem)]
        decide
    · intro _ _
      refine hcompute.mono ?_ fun _ _ h => h
      rintro paths t' ⟨ht', rfl, hg⟩
      exact ⟨ht'.recordPaths hn hg, rfl, hg⟩

end Node

section Sessions

variable {L : ℕ} {s : Session}

/-- The counts of a node are in range exactly if those of its exits are. -/
theorem Represents.fits_iff {m : Manager} {k : ℕ} {α : Type} [DecidableEq α] {g : Asg k → α}
    {n : NodeId} (h : Represents m k g n) (hk : k ≤ m.level) :
    Fits g ↔ ∀ exit < (visited g).length, (m.reaching n k exit).ncard < 2 ^ 127 := by
  constructor
  · intro hg exit hexit
    obtain ⟨a, ha⟩ := mem_visited.mp (List.getElem_mem hexit)
    have hnumber : number g a = exit := by
      rw [number, ha, rank_getElem (nodup_visited g) hexit]
    rw [h.ncard_reaching hk, ← hnumber, visits_number]
    exact hg _
  · intro hlt v
    by_cases hv : ∃ a, g a = v
    · obtain ⟨a, rfl⟩ := hv
      rw [← visits_number, ← h.ncard_reaching hk]
      exact hlt _ (number_lt g a)
    · rw [visits_of_not_mem fun hmem => hv (mem_visited.mp hmem)]
      decide

/-- Of two counts that add up to the number of all assignments, one is out of range from level
seven on. -/
theorem not_fits_of_level {L : ℕ} (hL : 7 ≤ L) (F : Asg L → Bool) : ¬Fits F := by
  have hsum : visits F true + visits F false = 2 ^ 2 ^ L := by
    rw [← Asg.length_all L, List.length_eq_countP_add_countP (fun a => decide (F a = true)),
      visits, visits]
    congr 2
    funext a
    cases F a <;> rfl
  have hvars : 2 ^ 7 ≤ 2 ^ L := Nat.pow_le_pow_right (by decide) hL
  have hpow : 2 ^ 128 ≤ 2 ^ 2 ^ L := Nat.pow_le_pow_right (by decide) hvars
  intro hF
  have htrue := hF true
  have hfalse := hF false
  have hbound : i128Bound + i128Bound = 2 ^ 128 := by decide
  omega

/-- **Path counts at any level:** in every session, calls that panicked included,
`compute_paths` returns the exact counts of a node if all of them are below `2 ^ 127`, and
panics with an overflow if one is not. -/
theorem compute_paths_any_level (hs : AfterScript L s) {id : NodeId} {r : NodeRecord}
    (hr : s.manager.record? id = some r) :
    ((∀ exit < r.numExits, (s.manager.reaching id r.level exit).ncard < 2 ^ 127) →
      ∃ paths m', computePaths s.manager.depth id s.manager = .ok paths m' ∧
        PathsExact s.manager id r.level r.numExits paths) ∧
    ((∃ exit < r.numExits, 2 ^ 127 ≤ (s.manager.reaching id r.level exit).ncard) →
      ∃ e m', computePaths s.manager.depth id s.manager = .error e m' ∧ IsOverflow e) := by
  have hm := hs.valid.inv
  obtain ⟨hk, e, he, -⟩ := hm.exists_represents hr
  have hends := computePaths_ends (m := s.manager) (Manager.lt_depth hk) hm.countsOnly he
  have hfits := he.fits_iff hk
  rw [← he.numExits_eq hr] at hfits
  constructor
  · intro hlt
    obtain ⟨paths, m', hok, -, rfl, -⟩ := hends.returns fun _ _ h => h.2.2 (hfits.mpr hlt)
    refine ⟨_, m', hok, ?_⟩
    rw [he.numExits_eq hr]
    exact he.paths_exact hk
  · rintro ⟨exit, hexit, hge⟩
    obtain ⟨e', m', herror, -, he', -⟩ := hends.fails fun _ _ h =>
      Nat.not_lt.mpr hge (hfits.mp h.2.2 exit hexit)
    exact ⟨e', m', herror, he'⟩

/-- The session of level seven that makes the constant true. -/
def sampleSeven : Session := Session.after ⟨Manager.fresh 7, []⟩ .mkTrue

/-- The root of the constant is the eighth node, after those of the lower levels. -/
theorem sampleSeven_reachable :
    Reachable 7 sampleSeven ∧ ⟨⟨⟨8⟩, ⟨1⟩⟩, fun _ => true⟩ ∈ sampleSeven.returned := by
  obtain ⟨h, hr⟩ := Step.after .mkTrue (L := 7) (s := ⟨Manager.fresh 7, []⟩) (f := ⟨⟨8⟩, ⟨1⟩⟩)
    (by decide +kernel) (fun x hx => by cases hx) trivial
  refine ⟨⟨Manager.fresh 7, rfl, Relation.ReflTransGen.single h⟩, ?_⟩
  rw [sampleSeven, hr]
  exact List.mem_singleton_self _

/-- The constant of level six is counted, that of level seven has `2 ^ 128` assignments. -/
theorem compute_paths_any_level_sample :
    (∃ paths m', computePaths sampleSeven.manager.depth ⟨7⟩ sampleSeven.manager = .ok paths m' ∧
      PathsExact sampleSeven.manager ⟨7⟩ 6 1 paths) ∧
    ∃ e m', computePaths sampleSeven.manager.depth ⟨8⟩ sampleSeven.manager = .error e m' ∧
      IsOverflow e := by
  obtain ⟨hreachable, hmem⟩ := sampleSeven_reachable
  have hs := hreachable.afterScript
  have hsix : sampleSeven.manager.record? ⟨7⟩ = some (.internal 6 1 ⟨⟨6⟩, ⟨0⟩⟩ [⟨⟨6⟩, ⟨0⟩⟩]) := by
    decide +kernel
  have hseven : sampleSeven.manager.record? ⟨8⟩ = some (.internal 7 1 ⟨⟨7⟩, ⟨0⟩⟩ [⟨⟨7⟩, ⟨0⟩⟩]) := by
    decide +kernel
  constructor
  · obtain ⟨hk, e, he, -⟩ := hs.valid.inv.exists_represents hsix
    refine (compute_paths_any_level hs hsix).1 ?_
    rw [he.numExits_eq hsix]
    exact (he.fits_iff hk).mp fun v => visits_lt le_rfl e v
  · have hroot := (hs.valid.returned _ hmem).root
    have hlarge := mt (hroot.fits_iff hs.valid.level.ge).mpr (not_fits_of_level le_rfl _)
    rw [← hroot.numExits_eq hseven] at hlarge
    push Not at hlarge
    exact (compute_paths_any_level hs hseven).2 hlarge

/-- **The level guard is exact:** for every diagram of a session, calls that panicked
included, `path_count` returns exactly if `compute_paths` returns on its root. -/
theorem path_count_guard_exact (hs : AfterScript L s) {f : Returned} (hf : f ∈ s.returned) :
    (∃ count m', pathCount f.bdd s.manager = .ok count m') ↔
      ∃ paths m', computePaths s.manager.depth f.bdd.root s.manager = .ok paths m' := by
  have hv := hs.valid
  have hends := computePaths_ends (m := s.manager)
    (Manager.lt_depth hv.level.ge) hv.inv.countsOnly (hv.returned f hf).root
  constructor
  · rintro ⟨count, m', hok⟩
    have hL : L ≤ 6 := hv.level ▸ level_le_of_pathCount hok
    obtain ⟨paths, m₁, hok₁, -⟩ := hends.returns fun _ _ h => h.2.2 fun v => visits_lt hL _ v
    exact ⟨paths, m₁, hok₁⟩
  · rintro ⟨paths, m', hok⟩
    have hL : L ≤ 6 := by
      by_contra hL
      exact not_fits_of_level (by omega) _ (hends.of_ok hok).2.2
    obtain ⟨count, m₁, hcount, -⟩ := hv.pathCount_returns hf hL
    exact ⟨count, m₁, hcount⟩

/-- On level one the counts of the root are computed, on level seven they are not. -/
theorem path_count_guard_exact_sample :
    (∃ paths m', computePaths sampleLiterals.manager.depth ⟨2⟩ sampleLiterals.manager =
      .ok paths m') ∧
    ¬∃ paths m', computePaths sampleSeven.manager.depth ⟨8⟩ sampleSeven.manager =
      .ok paths m' := by
  have hone := sampleLiterals_reachable.1
  obtain ⟨hseven, hmem⟩ := sampleSeven_reachable
  constructor
  · obtain ⟨count, m', hok, -⟩ := hone.valid.pathCount_returns sampleVar_mem (by decide)
    exact (path_count_guard_exact hone.afterScript sampleVar_mem).mp ⟨count, m', hok⟩
  · intro h
    obtain ⟨count, m', hok⟩ := (path_count_guard_exact hseven.afterScript hmem).mpr h
    have hlevel := level_le_of_pathCount hok
    rw [hseven.valid.level] at hlevel
    omega

end Sessions

end Cflobdd
