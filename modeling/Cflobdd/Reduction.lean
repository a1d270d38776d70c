import Cflobdd.Constants
import Mathlib.Data.List.MinMax

/-!
# Correctness of reduction

Let `g` be the function that a node represents and let `ρ` merge some of its values.
Reducing the node by `reduction g ρ` gives the node of the merged function: the
B-connections of the merged rows are the old ones reduced, equal rows are merged,
and the A-target is reduced by the merging of the rows.
-/

namespace Cflobdd

open FirstVisit Growing

/-- The identity map of its length. -/
theorem isIdentity_iff {red : List ℕ} : isIdentity red = true ↔ red = List.range red.length := by
  rw [isIdentity, List.all_eq_true]
  constructor
  · intro h
    refine List.ext_getElem (by simp) ?_
    intro i hi _
    have hmem : (red[i], i) ∈ red.zipIdx := by
      rw [List.mem_zipIdx_iff_getElem?]
      exact List.getElem?_eq_getElem hi
    rw [List.getElem_range]
    exact beq_iff_eq.mp (h _ hmem)
  · rintro h ⟨v, i⟩ hmem
    rw [List.mem_zipIdx_iff_getElem?, h, List.getElem?_eq_some_iff] at hmem
    obtain ⟨_, hv⟩ := hmem
    rw [List.getElem_range] at hv
    exact beq_iff_eq.mpr hv.symm

/-- The identity map is one. -/
theorem isIdentity_range (n : ℕ) : isIdentity (List.range n) = true := by
  rw [isIdentity_iff, List.length_range]

/-- The greatest entry is no smaller than any. -/
theorem le_foldl_max {xs : List ℕ} {x : ℕ} (h : x ∈ xs) (start : ℕ) : x ≤ xs.foldl max start := by
  rw [List.foldl_eq_foldr_reverse]
  simp only [max_comm _ (_ : ℕ)]
  exact List.le_max_of_le' start (List.mem_reverse.mpr h) le_rfl

section Observe

variable {m : Manager} {call : ReduceCall}

/-- Noting a call changes nothing but the trace. -/
theorem observe_returns (hm : m.Inv) (h : GoodCall m call) :
    Returns (observe call) m fun _ _ => True := by
  have hnoted : ∀ t : Manager, t.Inv → m ≤ t → ∃ t', observe call t = .ok () t' ∧ t ≤ t' ∧
      t' ≤ t ∧ t'.Inv := by
    intro t ht hle
    have hgrow : t ≤ { t with probe := { t.probe with trace := call :: t.probe.trace } } :=
      { le_refl t with }
    have hshrink : { t with probe := { t.probe with trace := call :: t.probe.trace } } ≤ t :=
      { le_refl t with }
    refine ⟨_, rfl, hgrow, hshrink, ?_⟩
    refine ht.grow hgrow (fun _ _ h => .inl h) rfl (fun _ _ h => .inl h) (fun _ _ h => .inl h)
      (fun _ _ h => .inl h) (fun _ _ h => .inl h) ?_
    intro call' hcall'
    rcases List.mem_cons.mp hcall' with rfl | hold
    · exact .inr ((h.mono hle).mono hgrow)
    · exact .inl hold
  obtain ⟨m', hok, hle, -, hm'⟩ := hnoted m hm le_rfl
  exact ⟨(), m', hok, hle, hm', trivial, fun t ht hle' => hnoted t ht (hle.trans hle')⟩

end Observe

section Compose

variable {m : Manager} {map red comp : List ℕ}

/-- The loop of `composeAndReduce` numbers the composed entries. -/
theorem composeLoop {bound : ℕ} (hcomp : List.Forall₂ (fun i c => red[i]? = some c) map comp)
    (hbound : ∀ c ∈ red, c < bound) :
    ∃ slots : Slots, slots.output = firstSeen comp ∧
      map.foldlM (composeStep red) (.new bound, []) =
        (pure (slots, comp.map (rank (firstSeen comp))) : ManagerM _) := by
  have hsteps : List.Forall₂ (fun i c => ∀ (d : Slots) out, d.slot.length = bound →
      ∃ d', composeStep red (d, out) i =
          (pure (d', out ++ [rank (see d.output c) c]) : ManagerM _) ∧
        d'.output = see d.output c ∧ d'.slot.length = bound) map comp := by
    refine hcomp.imp ?_
    intro i c hi d out hd
    have hc : c < d.slot.length := by
      rw [hd]
      exact hbound c (List.mem_of_getElem? hi)
    obtain ⟨d', hposition, houtput, hslot⟩ := d.position_spec hc
    refine ⟨d', ?_, houtput, hslot.trans hd⟩
    rw [composeStep, index_of_some hi, pure_bind, hposition]
  obtain ⟨slots, hloop, houtput, -⟩ :=
    foldlM_numbers Slots.output (fun d => d.slot.length = bound) hsteps (d := .new bound)
      List.length_replicate []
  exact ⟨slots, houtput, hloop⟩

/-- `composeAndReduce` is the program that interns the composed entries, each value once, and
returns their numbers by first occurrence. -/
theorem composeAndReduce_eq (hmap : map.Nodup)
    (hcomp : List.Forall₂ (fun i c => red[i]? = some c) map comp) :
    composeAndReduce map red = do
      let id ← internMap (firstSeen comp)
      return (comp.map (rank (firstSeen comp)), id, (firstSeen comp).length) := by
  funext m
  unfold composeAndReduce
  rw [reads_bind_apply]
  by_cases hfast : (shortcutsOn m && isIdentity red) = true
  · rw [if_pos hfast]
    have hred := isIdentity_iff.mp (Bool.and_eq_true_iff.mp hfast).2
    obtain rfl : map = comp := by
      rw [← List.forall₂_eq_eq_eq]
      refine hcomp.imp ?_
      intro i c hi
      rw [hred, List.getElem?_eq_some_iff] at hi
      obtain ⟨_, hi⟩ := hi
      rwa [List.getElem_range] at hi
    rw [firstSeen_of_nodup hmap, map_rank_self hmap]
  · rw [if_neg hfast]
    have hbound : ∀ c ∈ red, c < red.foldl max 0 + 1 :=
      fun c hc => Nat.lt_succ_of_le (le_foldl_max hc 0)
    obtain ⟨slots, houtput, hloop⟩ := composeLoop hcomp hbound
    dsimp only
    rw [hloop, pure_bind, houtput]

/-- `composeAndReduce` numbers the composed entries by their first occurrence. -/
theorem composeAndReduce_returns (hm : m.Inv) (hmap : map.Nodup)
    (hcomp : List.Forall₂ (fun i c => red[i]? = some c) map comp) :
    Returns (composeAndReduce map red) m fun result m' =>
      result.1 = comp.map (rank (firstSeen comp)) ∧
      m'.body? result.2.1 = some (firstSeen comp) ∧ result.2.2 = (firstSeen comp).length := by
  rw [composeAndReduce_eq hmap hcomp]
  refine Runs.bind (internMap_returns hm _) ?_
  intro id m' _ hm' hid
  exact Runs.pure hm' ⟨rfl, hid, rfl⟩

end Compose

section Merge

variable {k : ℕ} {α β : Type} [DecidableEq α] [DecidableEq β] {m m' : Manager}

/-- The connection of a row whose values are exits numbered by `vals`. -/
structure RowConn (m : Manager) (vals : List α) (r : Asg k → α) (c : Connection) : Prop where
  mem : ∀ y, r y ∈ vals
  target : Represents m k r c.target
  returnMap : m.body? c.returnMap = some ((visited r).map (rank vals))

/-- A connection stays right when the manager grows. -/
theorem RowConn.mono (hle : m ≤ m') {vals : List α} {r : Asg k → α} {c : Connection}
    (h : RowConn m vals r c) : RowConn m' vals r c :=
  ⟨h.mem, h.target.mono hle, Manager.body?_mono hle h.returnMap⟩

/-- Connections are equal exactly if their rows are. -/
theorem RowConn.eq_iff {vals : List α} {r r' : Asg k → α} {c c' : Connection}
    (h : RowConn m vals r c) (h' : RowConn m vals r' c') : r = r' ↔ c = c' := by
  constructor
  · rintro rfl
    exact Connection.ext (h.target.unique h'.target)
      (m.returnMaps.body?_inj h.returnMap h'.returnMap)
  · rintro rfl
    have hmaps := Option.some.inj (h.returnMap.symm.trans h'.returnMap)
    funext y
    have hy := congrArg (·[number r y]?) hmaps
    have hnumber := h.target.number_eq h'.target
    simp only [List.getElem?_map, getElem?_number, Option.map_some] at hy
    rw [hnumber, getElem?_number, Option.map_some] at hy
    exact rank_injOn vals (h.mem y) (h'.mem y) (Option.some.inj hy)

/-- What a loop that rewrites the B-connections and merges equal ones has made of the
rows `done`: the connections of the rewritten rows, and the position of each. -/
structure MergedRows (m : Manager) (rewrite : (Asg k → α) → Asg k → β) (vals : List β)
    (done : List (Asg k → α)) (newBConns : List Connection) (positions : List ℕ) : Prop where
  conns : List.Forall₂ (RowConn m vals) (firstSeen (done.map rewrite)) newBConns
  positions : positions = (done.map rewrite).map (rank (firstSeen (done.map rewrite)))

omit [DecidableEq α] in
/-- Before the loop nothing is merged. -/
theorem MergedRows.nil (m : Manager) (rewrite : (Asg k → α) → Asg k → β) (vals : List β) :
    MergedRows m rewrite vals [] [] [] := ⟨.nil, rfl⟩

omit [DecidableEq α] in
/-- One more row. -/
theorem MergedRows.concat {rewrite : (Asg k → α) → Asg k → β} {vals : List β}
    {done : List (Asg k → α)} {r : Asg k → α} {c : Connection} {newBConns : Dedup Connection}
    {positions : List ℕ} (h : MergedRows m rewrite vals done newBConns.seen positions)
    (hle : m ≤ m') (hc : RowConn m' vals (rewrite r) c) :
    MergedRows m' rewrite vals (done ++ [r]) (newBConns.position c).2.seen
      (positions ++ [(newBConns.position c).1]) := by
  obtain ⟨hsee, hrank⟩ := newBConns.position_forall₂ RowConn.eq_iff
    (h.conns.imp fun _ _ hc => hc.mono hle) hc
  constructor
  · rw [List.map_append, List.map_singleton, firstSeen_concat]
    exact hsee
  · rw [List.map_append, List.map_singleton, map_rank_concat, hrank, h.positions]

/-- When all rows are done, the positions are the reduction of the A-target. -/
theorem MergedRows.positions_eq {rewrite : (Asg k → α) → Asg k → β} {vals : List β}
    {g : Asg (k + 1) → α} {newBConns : List Connection} {positions : List ℕ}
    (h : MergedRows m rewrite vals (visited (row g)) newBConns positions) :
    positions = reduction (row g) rewrite := by
  rw [h.positions, ← visited_comp, List.map_map]
  rfl

/-- When all rows are done, the connections are those of the rewritten function. -/
theorem MergedRows.conns_eq {rewrite : (Asg k → α) → Asg k → β} {vals : List β}
    {g : Asg (k + 1) → α} {newBConns : List Connection} {positions : List ℕ}
    (h : MergedRows m rewrite vals (visited (row g)) newBConns positions) :
    List.Forall₂ (RowConn m vals) (visited fun x => rewrite (row g x)) newBConns := by
  rw [visited_comp]
  exact h.conns

/-- Under the identity map a reduction is composed to itself. -/
theorem composed_range (g : Asg k → α) (ρ : α → β) :
    List.Forall₂ (fun i c => (reduction g ρ)[i]? = some c) (List.range (visited g).length)
      (reduction g ρ) := by
  refine List.forall₂_iff_get.mpr ⟨by simp, ?_⟩
  intro i _ hi
  simp [List.getElem?_eq_getElem hi]

variable {g : Asg (k + 1) → α} {ρ : α → β} {r : Asg k → α}

/-- The values of a merged row are values of the merged function. -/
theorem mem_merged_row (hr : r ∈ visited (row g)) (y : Asg k) :
    ρ (r y) ∈ visited fun a => ρ (g a) := by
  obtain ⟨x, rfl⟩ := mem_visited.mp hr
  exact mem_visited_self (fun a => ρ (g a)) (.node x y)

/-- The return map of a row, composed with the reduction. -/
theorem composed_row (hr : r ∈ visited (row g)) :
    List.Forall₂ (fun i c => (reduction g ρ)[i]? = some c) ((visited r).map (rank (visited g)))
      ((visited r).map fun v => rank (visited fun a => ρ (g a)) (ρ v)) := by
  rw [List.forall₂_map_left_iff, List.forall₂_map_right_iff, List.forall₂_same]
  intro v hv
  obtain ⟨y, rfl⟩ := mem_visited.mp hv
  obtain ⟨x, rfl⟩ := mem_visited.mp hr
  exact getElem?_reduction g ρ (.node x y)

/-- They have different numbers. -/
theorem rank_injOn_merged_row (hr : r ∈ visited (row g)) :
    Set.InjOn (rank (visited fun a => ρ (g a))) (Set.range fun y => ρ (r y)) := by
  rintro _ ⟨y, rfl⟩ _ ⟨y', rfl⟩ h
  exact rank_injOn _ (mem_merged_row hr y) (mem_merged_row hr y') h

/-- The return map of a row has no repetitions. -/
theorem nodup_row_map (hr : r ∈ visited (row g)) :
    ((visited r).map (rank (visited g))).Nodup :=
  List.Nodup.map_on (fun _ hv _ hw h => rank_injOn_row hr (mem_visited.mp hv) (mem_visited.mp hw) h)
    (nodup_visited r)

end Merge

section Step

variable {m : Manager} {k : ℕ}

/-- A program reduces nodes of level `k` correctly. -/
def ReduceCorrect (f : NodeId → List ℕ → ℕ → ManagerM NodeId) (k : ℕ) : Prop :=
  ∀ {m : Manager} {α β : Type} [DecidableEq α] [DecidableEq β] {g : Asg k → α} (ρ : α → β)
    {n : NodeId}, m.Inv → Represents m k g n →
    Returns (f n (reduction g ρ) (visited fun a => ρ (g a)).length) m
      fun n' m' => Represents m' k (fun a => ρ (g a)) n'

variable {α β : Type} [DecidableEq α] [DecidableEq β] {g : Asg (k + 1) → α} {ρ : α → β}

/-- One B-connection: its reduction is the connection of the merged row. -/
theorem reduceStep_returns {f : NodeId → List ℕ → ℕ → ManagerM NodeId} (hf : ReduceCorrect f k)
    (hm : m.Inv) {done : List (Asg k → α)} {r : Asg k → α} (hr : r ∈ visited (row g))
    {b : Connection} (hb : Represents m k r b.target)
    (hbmap : m.body? b.returnMap = some ((visited r).map (rank (visited g))))
    {state : Dedup Connection × List ℕ} (hstate : MergedRows m (fun r y => ρ (r y))
      (visited fun a => ρ (g a)) done state.1.seen state.2) :
    Returns (reduceStep f (reduction g ρ) state b) m fun state' m' =>
      MergedRows m' (fun r y => ρ (r y)) (visited fun a => ρ (g a)) (done ++ [r]) state'.1.seen
        state'.2 := by
  unfold reduceStep
  refine body_bind hm hbmap ?_
  refine Runs.bind (composeAndReduce_returns hm (nodup_row_map hr) (composed_row hr)) ?_
  rintro ⟨inducedRed, inducedId, inducedNumExits⟩ m₁ hle₁ hm₁ ⟨hred, hid, hnum⟩
  rw [map_rank_renamed (rank_injOn_merged_row hr)] at hred
  rw [firstSeen_renamed (rank_injOn_merged_row hr)] at hid hnum
  rw [List.length_map] at hnum
  obtain rfl := hred
  obtain rfl := hnum
  refine Runs.bind (hf ρ hm₁ (hb.mono hle₁)) ?_
  intro newTarget m₂ hle₂ hm₂ hnew
  have hconn : RowConn m₂ (visited fun a => ρ (g a)) (fun y => ρ (r y)) ⟨newTarget, inducedId⟩ :=
    ⟨mem_merged_row hr, hnew, Manager.body?_mono hle₂ hid⟩
  exact Runs.pure hm₂ (hstate.concat (hle₁.trans hle₂) hconn)

/-- The internal case of `reduceInner`. -/
theorem reduceInner_internal {f : NodeId → List ℕ → ℕ → ManagerM NodeId} (hf : ReduceCorrect f k)
    (hm : m.Inv) {n : NodeId} (h : Represents m (k + 1) g n) {call : ReduceCall}
    (hcall : call = .reduceInner n (reduction g ρ) (visited fun a => ρ (g a)).length)
    (hgood : GoodCall m call) :
    Returns (reduceInner f n (reduction g ρ) (visited fun a => ρ (g a)).length) m
      fun n' m' => Represents m' (k + 1) (fun a => ρ (g a)) n' := by
  subst hcall
  obtain ⟨aConn, bConns, hrecord, ha, hamap, hb⟩ := h.parts
  have hk : k + 1 ≤ m.level := (hm.exists_represents hrecord).1
  unfold reduceInner
  refine Runs.bind (observe_returns hm hgood) ?_
  intro _ m₁ hle₁ hm₁ _
  refine record_bind hm₁ (Manager.record?_mono hle₁ hrecord) ?_
  dsimp only
  -- The loop over the B-connections merges all rows.
  refine Runs.bind (Runs.foldlM_forall₂ (I := fun done state m' => MergedRows m'
    (fun r y => ρ (r y)) (visited fun a => ρ (g a)) done state.1.seen state.2) hb hm₁
    (.nil _ _ _) ?_) ?_
  · intro done r rest b state m₂ hrows hrb hle₂ hm₂ hstate
    have hr : r ∈ visited (row g) := by simp [hrows]
    exact reduceStep_returns hf hm₂ hr (hrb.1.mono (hle₁.trans hle₂))
      (Manager.body?_mono (hle₁.trans hle₂) hrb.2) hstate
  rintro ⟨newBConns, aRed⟩ m₂ hle₂ hm₂ hstate
  have hconns := hstate.conns_eq
  obtain rfl : aRed = reduction (row g) fun r y => ρ (r y) := hstate.positions_eq
  -- The A-connection is reduced by the positions of the merged rows.
  refine body_bind hm₂ (Manager.body?_mono (hle₁.trans hle₂) hamap) ?_
  refine Runs.bind (composeAndReduce_returns hm₂ List.nodup_range
    (composed_range (row g) fun r y => ρ (r y))) ?_
  rintro ⟨inducedARed, newAMapId, newAExits⟩ m₃ hle₃ hm₃ ⟨hred, hid, hnum⟩
  have hrows : firstSeen (reduction (row g) fun r y => ρ (r y)) =
      List.range (visited (row fun a => ρ (g a))).length := firstSeen_reduction _ _
  rw [hrows] at hred hid hnum
  rw [List.length_range] at hnum
  obtain rfl := hred.trans (map_rank_of_firstSeen_range hrows)
  obtain rfl := hnum
  have hle₃' := (hle₁.trans hle₂).trans hle₃
  refine Runs.bind (hf (fun r y => ρ (r y)) hm₃ (ha.mono hle₃')) ?_
  intro newATarget m₄ hle₄ hm₄ hnewA
  refine debugAssert_bind (beq_iff_eq.mpr hconns.length_eq) ?_
  have hk' : k + 1 ≤ m₄.level := by rwa [(hle₃'.trans hle₄).level]
  refine internInternal_returns hm₄ hk' rfl ⟨hnewA, Manager.body?_mono hle₄ hid, ?_⟩
  exact hconns.imp fun _ _ hc =>
    ⟨(hc.target.mono hle₃).mono hle₄, Manager.body?_mono (hle₃.trans hle₄) hc.returnMap⟩

/-- The leaves in `reduceInner`, which are only reached without shortcuts. -/
theorem reduceInner_leaf {f : NodeId → List ℕ → ℕ → ManagerM NodeId} (hm : m.Inv)
    {g : Asg 0 → α} {n : NodeId} (h : Represents m 0 g n) {call : ReduceCall}
    (hcall : call = .reduceInner n (reduction g ρ) (visited fun a => ρ (g a)).length)
    (hgood : GoodCall m call) :
    Returns (reduceInner f n (reduction g ρ) (visited fun a => ρ (g a)).length) m
      fun n' m' => Represents m' 0 (fun a => ρ (g a)) n' := by
  subst hcall
  unfold reduceInner
  refine Runs.bind (observe_returns hm hgood) ?_
  intro _ m₁ _ hm₁ _
  by_cases heq : g (.leaf false) = g (.leaf true)
  · have hρ : ρ (g (.leaf false)) = ρ (g (.leaf true)) := by rw [heq]
    obtain rfl : n = .dontCare := h.trans (if_pos heq)
    refine record_bind hm₁ m₁.record?_dontCare ?_
    refine debugAssert_bind ?_ (Runs.pure hm₁ (Represents.dontCare hρ))
    simp [reduction, visited_zero, heq, rank]
  · obtain rfl : n = .fork := h.trans (if_neg heq)
    have hred : reduction g ρ = [number (fun a => ρ (g a)) (.leaf false),
        number (fun a => ρ (g a)) (.leaf true)] := by
      rw [reduction, visited_zero g, if_neg heq]
      rfl
    rw [hred]
    refine record_bind hm₁ m₁.record?_fork ?_
    refine debugAssert_bind rfl ?_
    refine index_bind rfl (index_bind rfl ?_)
    by_cases hρ : ρ (g (.leaf false)) = ρ (g (.leaf true))
    · rw [if_pos ((number_eq_iff (fun a => ρ (g a)) _ _).mpr hρ)]
      exact Runs.pure hm₁ (Represents.dontCare hρ)
    · rw [if_neg fun hc => hρ ((number_eq_iff (fun a => ρ (g a)) _ _).mp hc)]
      exact Runs.pure hm₁ (Represents.fork hρ)

end Step

section Memo

variable {m : Manager} {k : ℕ} {α β : Type} [DecidableEq α] [DecidableEq β] {g : Asg k → α}
  {ρ : α → β} {n n' : NodeId} {redId : ReturnMapId}

/-- A memoized reduction is what the reduction gives. -/
theorem ReductionEntry.represents (h : ReductionEntry m (n, redId) n') (hn : Represents m k g n)
    (hred : m.body? redId = some (reduction g ρ)) :
    Represents m k (fun a => ρ (g a)) n' := by
  obtain ⟨k', e, σ, he, hbody, he'⟩ := h
  obtain rfl : k' = k := he.level_unique hn
  have heq : reduction e σ = reduction g ρ := Option.some.inj (hbody.symm.trans hred)
  have hnumber : ∀ a, number (fun a => σ (e a)) a = number (fun a => ρ (g a)) a := by
    intro a
    have ha := getElem?_reduction e σ a
    rw [heq, he.number_eq hn, getElem?_reduction g ρ a] at ha
    exact (Option.some.inj ha).symm
  refine he'.congr fun a b => ?_
  rw [← number_eq_iff fun a => σ (e a), hnumber, hnumber, number_eq_iff fun a => ρ (g a)]

/-- Memoizing a reduction. -/
theorem recordReduce_spec (hm : m.Inv) (hn : Represents m k g n)
    (hred : m.body? redId = some (reduction g ρ)) (hn' : Represents m k (fun a => ρ (g a)) n') :
    m ≤ recordReduce n redId n' m ∧ (recordReduce n redId n' m).Inv ∧
      lookupReduce n redId (recordReduce n redId n' m) = some n' := by
  have hagree : ∀ id, m.reduceCache.get? (n, redId) = some id → id = n' := by
    intro id hid
    exact ((hm.reductions _ _ hid).represents hn hred).unique hn'
  have hle : m ≤ recordReduce n redId n' m :=
    { le_refl m with
      reductions := fun key id hid => Table.get?_insert_of_agree hagree hid }
  refine ⟨hle, ?_, Table.get?_insert_self _ _ _⟩
  refine hm.grow hle (fun _ _ h => .inl h) rfl (fun _ _ h => .inl h) (fun _ _ h => .inl h)
    ?_ (fun _ _ h => .inl h) (fun _ h => .inl h)
  intro key id hid
  rw [recordReduce, Table.get?_insert] at hid
  split at hid
  next hkey =>
    obtain rfl := Option.some.inj hid
    subst hkey
    obtain ⟨σ, hreduction, hmerged⟩ := exists_reduction_number g ρ
    refine .inr ⟨k, number g, σ, hn.numbered.mono hle, ?_, ?_⟩
    · rw [hreduction]
      exact Manager.body?_mono hle hred
    · rw [hmerged]
      exact hn'.numbered.mono hle
  next => exact .inl hid

end Memo

section Reduce

variable {m : Manager} {k : ℕ} {α β : Type} [DecidableEq α] [DecidableEq β] {g : Asg k → α}
  {ρ : α → β} {n : NodeId}

/-- The arguments of a reduction fit. -/
theorem goodReduction (hn : Represents m k g n) (ρ : α → β) :
    GoodReduction m n (reduction g ρ) (visited fun a => ρ (g a)).length := by
  obtain ⟨r, hr, -, hexits⟩ := hn.record
  exact ⟨r, hr, by rw [length_reduction, hexits], firstSeen_reduction g ρ⟩

/-- A reduction that merges nothing is the identity. -/
theorem injOn_of_isIdentity (h : isIdentity (reduction g ρ) = true) :
    Set.InjOn ρ (Set.range g) := by
  rw [isIdentity_iff] at h
  have hnumber : ∀ a, number (fun a => ρ (g a)) a = number g a := by
    intro a
    have ha := getElem?_reduction g ρ a
    rw [h, List.getElem?_range (by rw [length_reduction]; exact number_lt g a)] at ha
    exact (Option.some.inj ha).symm
  rintro _ ⟨a, rfl⟩ _ ⟨b, rfl⟩ hab
  rw [← number_eq_iff g, ← hnumber, ← hnumber]
  exact (number_eq_iff (fun a => ρ (g a)) a b).mpr hab

/-- At a leaf one of the two shortcuts applies. -/
theorem shortcut_of_leaf (g : Asg 0 → α) (ρ : α → β)
    (h : (visited fun a => ρ (g a)).length ≠ 1) : isIdentity (reduction g ρ) = true := by
  have hρ : ρ (g (.leaf false)) ≠ ρ (g (.leaf true)) := by
    intro heq
    rw [visited_zero, if_pos heq] at h
    exact h rfl
  have hinj : Set.InjOn ρ (Set.range g) := by
    rintro _ ⟨⟨b⟩, rfl⟩ _ ⟨⟨b'⟩, rfl⟩ hbb'
    cases b <;> cases b'
    · rfl
    · exact absurd hbb' hρ
    · exact absurd hbb'.symm hρ
    · rfl
  rw [reduction_of_injOn hinj]
  exact isIdentity_range _

/-- **Correctness of `reduce`:** it gives the node of the merged function. -/
theorem reduce_returns {fuel : ℕ} (hm : m.Inv) (hn : Represents m k g n) (hfuel : k < fuel)
    (ρ : α → β) :
    Returns (reduce fuel n (reduction g ρ) (visited fun a => ρ (g a)).length) m
      fun n' m' => Represents m' k (fun a => ρ (g a)) n' := by
  induction fuel generalizing m k α β n with
  | zero => omega
  | succ fuel ih =>
    have hgood := goodReduction hn ρ
    obtain ⟨r, hr, hlevel, -⟩ := hn.record
    have hk : k ≤ m.level := hlevel ▸ (hm.exists_represents hr).1
    unfold reduce
    refine Runs.bind (observe_returns hm hgood) ?_
    intro _ m₁ hle₁ hm₁ _
    have hn₁ := hn.mono hle₁
    refine shortcutsOn_bind hm₁ ?_
    by_cases hone : (shortcutsOn m₁ && (visited fun a => ρ (g a)).length == 1) = true
    · rw [if_pos hone]
      have hconst := const_of_length_visited (beq_iff_eq.mp (Bool.and_eq_true_iff.mp hone).2)
      refine record_bind hm₁ (Manager.record?_mono hle₁ hr) ?_
      rw [hlevel]
      refine (noDistinction_returns hm₁ (by rwa [hle₁.level])).mono ?_
      intro n' m' _ _ hn'
      exact hn'.congr fun a b => ⟨fun _ => hconst a b, fun _ => rfl⟩
    rw [if_neg hone]
    by_cases hidentity : (shortcutsOn m₁ && isIdentity (reduction g ρ)) = true
    · rw [if_pos hidentity]
      exact Runs.pure hm₁ (hn₁.comp (injOn_of_isIdentity (Bool.and_eq_true_iff.mp hidentity).2))
    rw [if_neg hidentity]
    refine Runs.bind (internMap_returns hm₁ _) ?_
    intro redId m₂ hle₂ hm₂ hredId
    have hn₂ := hn₁.mono hle₂
    refine Runs.memoized hm₂ (fun t hle => hle.memo) ?_ ?_ ?_ ?_
    · intro t u id _ htu _ _ hlookup
      exact htu.reductions _ _ hlookup
    · intro id hlookup
      exact (hm₂.reductions _ _ hlookup).represents hn₂ hredId
    · cases k with
      | zero =>
        refine reduceInner_leaf hm₂ hn₂ rfl ⟨goodReduction hn₂ ρ, fun hshortcuts => ?_⟩
        -- With shortcuts a leaf has been dealt with above.
        exfalso
        have hon : shortcutsOn m₁ = true := hle₂.shortcuts.symm.trans hshortcuts
        rw [hon, Bool.true_and] at hone hidentity
        exact hidentity (shortcut_of_leaf g ρ fun h => hone (beq_iff_eq.mpr h))
      | succ k =>
        have hcorrect : ReduceCorrect (reduce fuel) k := fun ρ' _ hm' hn' =>
          ih hm' hn' (by omega) ρ'
        refine reduceInner_internal hcorrect hm₂ hn₂ rfl ⟨goodReduction hn₂ ρ, fun _ => ?_⟩
        obtain ⟨r', hr', hlevel', -⟩ := hn₂.record
        exact ⟨r', hr', by omega⟩
    · intro id t hle ht hid
      obtain ⟨hle', hinv, hlookup⟩ :=
        recordReduce_spec ht (hn₂.mono hle) (Manager.body?_mono hle hredId) hid
      exact ⟨hle', hinv, hid.mono hle', hlookup⟩

end Reduce

end Cflobdd
