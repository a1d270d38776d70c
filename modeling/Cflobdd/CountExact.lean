import Cflobdd.ExitOrder

/-!
# Path counts are exact

In a manager of level six or less, `compute_paths` returns for every node, for each of its
exits, the number of assignments that the node sends to this exit, and `path_count` returns
the number of assignments at which a diagram evaluates to true. No sum or product on the
way leaves the range of its type.
-/

namespace Cflobdd

open FirstVisit Growing

/-- The path counts of a node are the numbers of assignments that reach its exits. -/
def PathsExact (m : Manager) (id : NodeId) (k numExits : ℕ) (paths : List ℕ) : Prop :=
  paths.length = numExits ∧
  (∀ exit < numExits, paths[exit]? = some (m.reaching id k exit).ncard ∧
    1 ≤ (m.reaching id k exit).ncard) ∧
  paths.sum = 2 ^ 2 ^ k

section Counts

variable {m : Manager} {k : ℕ} {α : Type} [DecidableEq α] {g : Asg k → α} {n : NodeId}

/-- The assignments that reach an exit are counted. -/
theorem Represents.ncard_reaching (h : Represents m k g n) (hk : k ≤ m.level) (exit : ℕ) :
    (m.reaching n k exit).ncard = visits (number g) exit := by
  rw [h.reaching_eq hk, Set.ncard_image_of_injective _ Asg.toList_injective, visits_eq_ncard]

/-- The counts of the function are the numbers of assignments that reach the exits. -/
theorem Represents.paths_exact (h : Represents m k g n) (hk : k ≤ m.level) :
    PathsExact m n k (visited g).length (visitCounts g) := by
  refine ⟨length_visitCounts g, ?_, ?_⟩
  · intro exit hexit
    obtain ⟨a, ha⟩ := mem_visited.mp (List.getElem_mem hexit)
    have hnumber : number g a = exit := by
      rw [number, ha, rank_getElem (nodup_visited g) hexit]
    have hentry := getElem?_visitCounts (getElem?_number g a)
    rw [h.ncard_reaching hk, ← hnumber, visits_number]
    exact ⟨hentry, visits_pos g a⟩
  · rw [sum_visitCounts, Asg.length_all]

end Counts

/-- The satisfying assignments of a diagram are counted. -/
theorem Denotes.ncard_true {m : Manager} {L : ℕ} {f : Bdd} {F : Asg L → Bool}
    (h : Denotes m L f F) (hlevel : m.level = L) (hL : L ≤ 30) :
    {a : List Bool | a.length = 2 ^ L ∧ m.evaluate f a = .ok true}.ncard = visits F true := by
  have himage : {a : List Bool | a.length = 2 ^ L ∧ m.evaluate f a = .ok true} =
      Asg.toList '' {a | F a = true} := by
    ext l
    constructor
    · rintro ⟨hlen, hok⟩
      obtain ⟨a, rfl⟩ := Asg.exists_toList hlen
      rw [h.evaluate hlevel hL a] at hok
      exact ⟨a, Except.ok.inj hok, rfl⟩
    · rintro ⟨a, ha, rfl⟩
      refine ⟨Asg.length_toList a, ?_⟩
      rw [h.evaluate hlevel hL a, show F a = true from ha]
  rw [himage, Set.ncard_image_of_injective _ Asg.toList_injective, visits_eq_ncard]

/-- **Path counting is exact:** in every reachable session of level six or less,
`compute_paths` returns the exact counts of every node, and `path_count` returns the number
of satisfying assignments of every returned diagram. -/
theorem path_count_exact {L : ℕ} {s : Session} (hs : Reachable L s) (hL : L ≤ 6) :
    (∀ id r, s.manager.record? id = some r → ∃ paths m',
      computePaths s.manager.depth id s.manager = .ok paths m' ∧
        PathsExact s.manager id r.level r.numExits paths) ∧
    ∀ f ∈ s.returned, ∃ m', pathCount f.bdd s.manager = .ok
      {a : List Bool | a.length = 2 ^ L ∧ s.manager.evaluate f.bdd a = .ok true}.ncard m' := by
  have hinv := hs.valid.inv
  have hlevel := hs.valid.level
  constructor
  · intro id r hr
    obtain ⟨hk, e, he⟩ := hinv.canonical id r hr
    obtain ⟨paths, m', hok, -, -, rfl, -⟩ :=
      computePaths_returns (Manager.lt_depth hk) (by omega) hinv he
    refine ⟨_, m', hok, ?_⟩
    rw [he.numExits_eq hr]
    exact he.paths_exact hk
  · intro f hf
    obtain ⟨count, m', hok, -, -, rfl, -⟩ := hs.valid.pathCount_returns hf hL
    refine ⟨m', ?_⟩
    rw [(hs.valid.returned f hf).ncard_true hlevel hs.valid.level_le.2]
    exact hok

theorem path_count_exact_sample :
    (∀ id r, sampleSession.manager.record? id = some r → ∃ paths m',
      computePaths sampleSession.manager.depth id sampleSession.manager = .ok paths m' ∧
        PathsExact sampleSession.manager id r.level r.numExits paths) ∧
    ∀ f ∈ sampleSession.returned, ∃ m', pathCount f.bdd sampleSession.manager = .ok
      {a : List Bool | a.length = 2 ^ 1 ∧ sampleSession.manager.evaluate f.bdd a = .ok true}.ncard
      m' :=
  path_count_exact sampleSession_reachable (by decide)

end Cflobdd
