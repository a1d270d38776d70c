import Cflobdd.Product

/-!
# Correctness of restriction, composition and the quantifiers

Restricting a node that represents `g` gives the node of `fun a => g (a.set i v)`, and
the map handle lists the old exits by their first visit in the restricted function.
In the A-case the rows of the restricted function are some of the old rows. In the
B-case every row is restricted, and rows that become equal are merged.
-/

namespace Cflobdd

open FirstVisit Growing

section Loops

/-- `dedupe_first_seen` numbers the entries of a list by their first occurrence. -/
theorem dedupeFirstSeen_eq (seq : List ℕ) :
    dedupeFirstSeen seq = (firstSeen seq, seq.map (rank (firstSeen seq))) :=
  foldl_scanStep id seq

/-- The position of an exit in the map handle, when the counter is right. -/
theorem MapHandle.position_spec {handle : MapHandle} (h : handle.curExit = handle.exits.length)
    (c : ℕ) : (handle.position c).1 = rank (see handle.exits c) c ∧
      (handle.position c).2.exits = see handle.exits c ∧
      (handle.position c).2.curExit = (handle.position c).2.exits.length := by
  rw [MapHandle.position, scan_eq]
  by_cases hc : c ∈ handle.exits
  · rw [if_pos hc, see_of_mem hc]
    exact ⟨rfl, rfl, h⟩
  · rw [if_neg hc, see_of_not_mem hc, rank_append_self hc]
    exact ⟨h, rfl, by rw [h, List.length_append]; rfl⟩

/-- Rewriting a return map gives each old exit its position in the map handle. -/
theorem renumberLoop {handle : MapHandle} (h : handle.curExit = handle.exits.length)
    (vs : List ℕ) :
    (vs.foldl renumberStep (handle, [])).2 = vs.map (rank (seeAll handle.exits vs)) ∧
      (vs.foldl renumberStep (handle, [])).1.exits = seeAll handle.exits vs ∧
      (vs.foldl renumberStep (handle, [])).1.curExit =
        (vs.foldl renumberStep (handle, [])).1.exits.length := by
  refine foldl_numbers MapHandle.exits
    (fun handle => handle.curExit = handle.exits.length) ?_ vs h []
  intro handle out c h
  obtain ⟨hpos, hexits, hcur⟩ := MapHandle.position_spec h c
  exact ⟨by rw [renumberStep, ← hpos], hexits, hcur⟩

/-- Reading entries of a return map. -/
theorem translateLoop {map xs ys : List ℕ}
    (h : List.Forall₂ (fun exit v => map[exit]? = some v) xs ys) :
    xs.foldlM (translateStep map) [] = (pure ys : ManagerM _) := by
  refine foldlM_collect (h.imp ?_) []
  intro exit v hv out
  rw [translateStep, index_of_some hv, pure_bind]

end Loops

section Spec

variable {m m' : Manager} {k : ℕ} {α : Type} [DecidableEq α]

/-- What the exits of a restricted node stand for: the old exits, in the order of their
first visit. -/
def restrictMap (g : Asg k → α) (i : ℕ) (v : Bool) : List ℕ :=
  visited fun a : Asg k => number g (a.set i v)

/-- The map of a restriction as a list of numbers. -/
theorem restrictMap_eq_map (g : Asg k → α) (i : ℕ) (v : Bool) :
    restrictMap g i v = (visited fun a : Asg k => g (a.set i v)).map (rank (visited g)) := by
  rw [← visited_comp_of_injOn]
  · rfl
  · refine (rank_visited_injOn g).mono ?_
    rintro _ ⟨a, rfl⟩
    exact ⟨a.set i v, rfl⟩

/-- Only the numbers of the values matter. -/
theorem restrictMap_number (g : Asg k → α) (i : ℕ) (v : Bool) :
    restrictMap (number g) i v = restrictMap g i v := by
  rw [restrictMap, number_number, restrictMap]

/-- The result of a restriction: the node of the restricted function and the map handle. -/
structure IsRestriction (m : Manager) (g : Asg k → α) (i : ℕ) (v : Bool)
    (result : NodeId × List ℕ) : Prop where
  node : Represents m k (fun a => g (a.set i v)) result.1
  exits : result.2 = restrictMap g i v

/-- The restriction of the numbering of the exits is the restriction of the function. -/
theorem IsRestriction.of_number {g : Asg k → α} {i : ℕ} {v : Bool} {result : NodeId × List ℕ}
    (h : IsRestriction m (number g) i v result) : IsRestriction m g i v result :=
  ⟨h.node.congr fun _ _ => number_eq_iff g _ _, h.exits.trans (restrictMap_number g i v)⟩

/-- The restriction of a constant. -/
theorem IsRestriction.of_const {g : Asg k → α} {n : NodeId} (hn : Represents m k g n)
    (h : ∀ a b, g a = g b) (i : ℕ) (v : Bool) : IsRestriction m g i v (n, [0]) := by
  refine ⟨hn.congr fun a b => ⟨fun _ => h _ _, fun _ => h _ _⟩, ?_⟩
  have hzero : (fun a : Asg k => number g (a.set i v)) = fun _ => 0 :=
    funext fun a => number_of_const h _
  rw [restrictMap, hzero, visited_of_const (.allFalse k) fun _ => rfl]

/-- A program restricts nodes of level `k` correctly. -/
def RestrictCorrect (f : NodeId → ℕ → Bool → List ℕ → ManagerM (NodeId × List ℕ)) (k : ℕ) : Prop :=
  ∀ {m : Manager} {α : Type} [DecidableEq α] {g : Asg k → α} {n : NodeId} (i : ℕ) (v : Bool),
    m.Inv → Represents m k g n →
    Returns (f n i v []) m fun result m' => IsRestriction m' g i v result

/-- The return map of a row leads to the values themselves, when these are the exits. -/
theorem numbered_row_map {e : Asg (k + 1) → ℕ} (he : number e = e) {r : Asg k → ℕ}
    (hr : r ∈ visited (row e)) : (visited r).map (rank (visited e)) = visited r := by
  conv_rhs => rw [← List.map_id (visited r)]
  refine List.map_congr_left fun w hw => ?_
  obtain ⟨y, rfl⟩ := mem_visited.mp hw
  obtain ⟨x, rfl⟩ := mem_visited.mp hr
  exact congrFun he (.node x y)

end Spec

section ACase

variable {m : Manager} {k : ℕ} {e : Asg (k + 1) → ℕ} {i : ℕ} {v : Bool}

/-- The rows of a function restricted in the first half are rows of the function. -/
theorem row_set_left (hi : i < 2 ^ k) :
    (row fun a => e (a.set i v)) = fun x => row e (x.set i v) := by
  funext x y
  rw [row_apply, Asg.set_node_left x y hi, row_apply]

/-- One selected B-connection: it is rewritten to the connection of its row. -/
theorem restrictAStep_returns (hm : m.Inv) (he : number e = e) (hi : i < 2 ^ k)
    {bConns : List Connection}
    (hb : List.Forall₂ (fun r b => Represents m k r b.target ∧
      m.body? b.returnMap = some ((visited r).map (rank (visited e)))) (visited (row e)) bConns)
    {done rest : List (Asg k → ℕ)} {r : Asg k → ℕ}
    (hrows : visited (row fun a => e (a.set i v)) = done ++ r :: rest)
    {state : List Connection × MapHandle}
    (hstate : BuiltRows m (fun a => e (a.set i v)) done state.1 state.2.exits)
    (hcur : state.2.curExit = state.2.exits.length) :
    Returns (restrictAStep bConns state (rank (visited (row e)) r)) m fun state' m' =>
      BuiltRows m' (fun a => e (a.set i v)) (done ++ [r]) state'.1 state'.2.exits ∧
        state'.2.curExit = state'.2.exits.length := by
  have hr : r ∈ visited (row fun a => e (a.set i v)) := by simp [hrows]
  rw [row_set_left hi] at hr
  obtain ⟨x, rfl⟩ := mem_visited.mp hr
  obtain ⟨orig, hindex, hnode, hmap⟩ := Represents.bConn_of_row hb (x.set i v)
  rw [numbered_row_map he (mem_visited_self (row e) _)] at hmap
  unfold restrictAStep
  refine index_bind hindex (body_bind hm hmap ?_)
  obtain ⟨hrm, hexits, hcur'⟩ := renumberLoop hcur (visited (row e (x.set i v)))
  dsimp only
  rw [hrm]
  refine Runs.bind (internMap_returns hm _) ?_
  intro newRmId m₁ hle₁ hm₁ hid
  refine Runs.pure hm₁ ⟨?_, hcur'⟩
  rw [hexits]
  exact hstate.concat hle₁ hrows (hnode.mono hle₁) hid

/-- The variable belongs to the A-connection. -/
theorem restrictACase_returns {f : NodeId → ℕ → Bool → List ℕ → ManagerM (NodeId × List ℕ)}
    (hf : RestrictCorrect f k) (hm : m.Inv) (hk : k + 1 ≤ m.level) (he : number e = e)
    {aConn : Connection} {bConns : List Connection} (h : Parts m e aConn bConns)
    (hi : i < 2 ^ k) (v : Bool) :
    Returns (restrictACase f (k + 1) aConn bConns i v []) m
      fun result m' => IsRestriction m' e i v result := by
  unfold restrictACase
  refine Runs.bind (hf i v hm h.aTarget) ?_
  rintro ⟨newATarget, aMap⟩ m₁ hle₁ hm₁ ⟨hnode, hexits⟩
  obtain rfl : aMap = restrictMap (row e) i v := hexits
  refine body_bind hm₁ (Manager.body?_mono hle₁ h.aMap) ?_
  have htranslate : List.Forall₂
      (fun exit b => (List.range (visited (row e)).length)[exit]? = some b)
      (restrictMap (row e) i v) (restrictMap (row e) i v) := by
    refine List.forall₂_same.mpr ?_
    intro c hc
    obtain ⟨x, rfl⟩ := mem_visited.mp hc
    exact List.getElem?_range (number_lt (row e) _)
  rw [translateLoop htranslate, pure_bind]
  have hrows : List.Forall₂ (fun r b => b = rank (visited (row e)) r)
      (visited (row fun a => e (a.set i v))) (restrictMap (row e) i v) := by
    rw [restrictMap_eq_map, row_set_left hi, List.forall₂_map_right_iff]
    exact List.forall₂_same.mpr fun _ _ => rfl
  refine Runs.bind (Runs.foldlM_forall₂ (I := fun done state m' =>
    BuiltRows m' (fun a => e (a.set i v)) done state.1 state.2.exits ∧
      state.2.curExit = state.2.exits.length) hrows hm₁ ⟨.nil _ _, rfl⟩ ?_) ?_
  · rintro done r rest _ state m₂ hdone rfl hle₂ hm₂ ⟨hstate, hcur⟩
    exact restrictAStep_returns hm₂ he hi (h.mono (hle₁.trans hle₂)).bConns hdone hstate hcur
  rintro ⟨newBConns, handle⟩ m₂ hle₂ hm₂ ⟨hstate, hcur⟩
  refine Runs.bind (identity_returns hm₂ _) ?_
  intro newAReturnMap m₃ hle₃ hm₃ hid
  rw [restrictMap_eq_map, List.length_map] at hid
  dsimp only at hcur hstate
  have hexits := hstate.exits_eq
  have hle := (hle₁.trans hle₂).trans hle₃
  have hnode' : Represents m₁ k (row fun a => e (a.set i v)) newATarget := by
    rw [row_set_left hi]
    exact hnode
  rw [hcur, hexits]
  refine Runs.bind (internInternal_returns hm₃ (by rwa [hle.level]) rfl
    ⟨hnode'.mono (hle₂.trans hle₃), ?_, (hstate.mono hle₃).bConns⟩) ?_
  · rw [row_set_left hi]
    exact hid
  intro n m₄ _ hm₄ hn
  exact Runs.pure hm₄ ⟨hn, by rw [restrictMap, he]⟩

end ACase

section BCase

variable {m : Manager} {k : ℕ} {e : Asg (k + 1) → ℕ} {i : ℕ} {v : Bool}

/-- A row with one of its variables fixed. -/
def restrictRow (j : ℕ) (v : Bool) (r : Asg k → ℕ) : Asg k → ℕ := fun y => r (y.set j v)

/-- The rows of a function restricted in the second half are the restricted rows. -/
theorem row_set_right (hi : ¬i < 2 ^ k) :
    (row fun a => e (a.set i v)) = fun x => restrictRow (i - 2 ^ k) v (row e x) := by
  funext x y
  rw [row_apply, Asg.set_node_right x y hi]
  rfl

/-- The exits are visited while the rows are restricted one by one. -/
theorem visited_set_right (hi : ¬i < 2 ^ k) :
    (visited fun a : Asg (k + 1) => e (a.set i v)) =
      firstSeen ((visited (row e)).flatMap fun r => visited (restrictRow (i - 2 ^ k) v r)) := by
  rw [visited_rows, row_set_right hi, visited_comp, firstSeen_flatMap_firstSeen,
    List.flatMap_map]

/-- What the loop over the B-connections has made of the rows `done`. -/
structure RestrictedRows (m : Manager) (e : Asg (k + 1) → ℕ) (i : ℕ) (v : Bool)
    (done : List (Asg k → ℕ)) (state : RestrictBState) : Prop where
  merged : MergedRows m (restrictRow (i - 2 ^ k) v)
    (visited fun a : Asg (k + 1) => e (a.set i v)) done state.newBConns.seen state.aReduction
  exits : state.handle.exits =
    firstSeen (done.flatMap fun r => visited (restrictRow (i - 2 ^ k) v r))
  curExit : state.handle.curExit = state.handle.exits.length

/-- One B-connection: it becomes the connection of the restricted row. -/
theorem restrictBStep_returns {f : NodeId → ℕ → Bool → List ℕ → ManagerM (NodeId × List ℕ)}
    (hf : RestrictCorrect f k) (hm : m.Inv) (he : number e = e) (hi : ¬i < 2 ^ k)
    {done rest : List (Asg k → ℕ)} {r : Asg k → ℕ} (hrows : visited (row e) = done ++ r :: rest)
    {origB : Connection} (hb : Represents m k r origB.target)
    (hmap : m.body? origB.returnMap = some ((visited r).map (rank (visited e))))
    {state : RestrictBState} (hstate : RestrictedRows m e i v done state) :
    Returns (restrictBStep f (i - 2 ^ k) v state origB) m fun state' m' =>
      RestrictedRows m' e i v (done ++ [r]) state' := by
  have hr : r ∈ visited (row e) := by simp [hrows]
  rw [numbered_row_map he hr] at hmap
  unfold restrictBStep
  refine Runs.bind (hf (i - 2 ^ k) v hm hb) ?_
  rintro ⟨node, bMap⟩ m₁ hle₁ hm₁ ⟨hnode, hexits⟩
  obtain rfl : bMap = restrictMap r (i - 2 ^ k) v := hexits
  refine body_bind hm₁ (Manager.body?_mono hle₁ hmap) ?_
  have htranslate : List.Forall₂ (fun exit w => (visited r)[exit]? = some w)
      (restrictMap r (i - 2 ^ k) v) (visited (restrictRow (i - 2 ^ k) v r)) := by
    rw [restrictMap_eq_map, List.forall₂_map_left_iff]
    refine List.forall₂_same.mpr ?_
    intro w hw
    obtain ⟨y, rfl⟩ := mem_visited.mp hw
    exact getElem?_rank (mem_visited_self r _)
  rw [translateLoop htranslate, pure_bind]
  obtain ⟨hinduced, hexits, hcur⟩ :=
    renumberLoop hstate.curExit (visited (restrictRow (i - 2 ^ k) v r))
  dsimp only
  rw [hinduced]
  refine Runs.bind (internMap_returns hm₁ _) ?_
  intro inducedId m₂ hle₂ hm₂ hid
  rw [hstate.exits, map_rank_block (fun r => visited (restrictRow (i - 2 ^ k) v r)) done rest,
    ← hrows, ← visited_set_right hi] at hid
  have hconn : RowConn m₂ (visited fun a : Asg (k + 1) => e (a.set i v))
      (restrictRow (i - 2 ^ k) v r) ⟨node, inducedId⟩ := by
    refine ⟨fun y => ?_, hnode.mono hle₂, hid⟩
    obtain ⟨x, rfl⟩ := mem_visited.mp hr
    have hx := congrFun (congrFun (row_set_right (e := e) (v := v) hi) x) y
    rw [← hx]
    exact mem_visited_self (fun a : Asg (k + 1) => e (a.set i v)) (.node x y)
  refine Runs.pure hm₂ ⟨hstate.merged.concat (hle₁.trans hle₂) hconn, ?_, hcur⟩
  dsimp only
  rw [hexits, hstate.exits]
  exact seeAll_flatMap_block (fun r => visited (restrictRow (i - 2 ^ k) v r)) done r

/-- The variable belongs to the B-connections. -/
theorem restrictBCase_returns {f : NodeId → ℕ → Bool → List ℕ → ManagerM (NodeId × List ℕ)}
    (hf : RestrictCorrect f k) {fuel : ℕ} (hfuel : k < fuel) (hm : m.Inv) (hk : k + 1 ≤ m.level)
    (he : number e = e) {aConn : Connection} {bConns : List Connection}
    (h : Parts m e aConn bConns) (hi : ¬i < 2 ^ k) (v : Bool) :
    Returns (restrictBCase f fuel (k + 1) aConn bConns (i - 2 ^ k) v []) m
      fun result m' => IsRestriction m' e i v result := by
  unfold restrictBCase
  refine Runs.bind (Runs.foldlM_forall₂ (I := fun done state m' => RestrictedRows m' e i v done
    state) h.bConns hm ⟨.nil _ _ _, rfl, rfl⟩ ?_) ?_
  · intro done r rest b state m₁ hrows hb hle₁ hm₁ hstate
    exact restrictBStep_returns hf hm₁ he hi hrows (hb.1.mono hle₁)
      (Manager.body?_mono hle₁ hb.2) hstate
  rintro ⟨newBConns, handle, aReduction⟩ m₁ hle₁ hm₁ ⟨hmerged, hexits, hcur⟩
  dsimp only at hmerged hexits hcur
  rw [← visited_set_right hi] at hexits
  have hconns := hmerged.conns_eq
  rw [← row_set_right hi] at hconns
  obtain rfl : aReduction = reduction (row e) (restrictRow (i - 2 ^ k) v) := hmerged.positions_eq
  -- The A-target is reduced by the positions of the restricted rows.
  refine body_bind hm₁ (Manager.body?_mono hle₁ h.aMap) ?_
  rw [translateLoop (composed_range (row e) _), pure_bind, dedupeFirstSeen_eq, firstSeen_reduction,
    ← row_set_right hi, map_rank_of_firstSeen_range (by rw [firstSeen_reduction, row_set_right hi])]
  refine Runs.bind (internMap_returns hm₁ _) ?_
  intro inducedId m₂ hle₂ hm₂ hid
  refine body_bind hm₂ hid ?_
  rw [List.length_range, row_set_right hi]
  have hle₁₂ := hle₁.trans hle₂
  refine Runs.bind (reduce_returns hm₂ (h.aTarget.mono hle₁₂) hfuel
    (restrictRow (i - 2 ^ k) v)) ?_
  intro reducedATarget m₃ hle₃ hm₃ hnode
  rw [← row_set_right hi] at hnode
  dsimp only
  rw [hcur, hexits]
  refine Runs.bind (internInternal_returns hm₃ (by rwa [(hle₁₂.trans hle₃).level]) rfl
    ⟨hnode, Manager.body?_mono hle₃ hid, ?_⟩) ?_
  · exact hconns.imp fun _ _ hc => ⟨hc.target.mono (hle₂.trans hle₃),
      Manager.body?_mono (hle₂.trans hle₃) hc.returnMap⟩
  intro n m₄ _ hm₄ hn
  exact Runs.pure hm₄ ⟨hn, by rw [restrictMap, he]⟩

end BCase

section Restrict

variable {m : Manager} {k : ℕ}

/-- A restricted leaf is the leaf of a constant. -/
theorem restrictNode_leaf (fuel : ℕ) : RestrictCorrect (restrictNode (fuel + 1)) 0 := by
  intro m α _ g n i v hm hn
  unfold restrictNode
  by_cases heq : g (.leaf false) = g (.leaf true)
  · obtain rfl : n = .dontCare := hn.trans (if_pos heq)
    refine record_bind hm m.record?_dontCare ?_
    exact Runs.pure hm (.of_const hn (const_of_leaf heq) i v)
  · obtain rfl : n = .fork := hn.trans (if_neg heq)
    refine record_bind hm m.record?_fork ?_
    refine Runs.pure hm ⟨Represents.dontCare rfl, ?_⟩
    have hexit : number g (.leaf v) = if v then 1 else 0 := by
      rw [number, visited_zero, if_neg heq]
      cases v
      · exact rank_cons_self _ _
      · exact rank_pair heq
    have hfixed : (fun a : Asg 0 => number g (a.set i v)) = fun _ => number g (.leaf v) := by
      funext a
      cases a
      rfl
    rw [restrictMap, hfixed, visited_of_const (.leaf false) fun _ => rfl, hexit]
    rfl

/-- The case of an internal node: the variable belongs to the A-connection or to the
B-connections. -/
theorem restrictNode_internal {fuel : ℕ} (hk : k < fuel)
    (ih : RestrictCorrect (restrictNode fuel) k) :
    RestrictCorrect (restrictNode (fuel + 1)) (k + 1) := by
  intro m α _ g n i v hm hn
  obtain ⟨aConn, bConns, hrecord, hparts⟩ := hn.numbered.parts
  have hlevel : k + 1 ≤ m.level := (hm.exists_represents hrecord).1
  have hinternal : ∀ {m₁ : Manager}, m ≤ m₁ → m₁.Inv →
      Returns (if i < 2 ^ (k + 1 - 1) then
          restrictACase (restrictNode fuel) (k + 1) aConn bConns i v []
        else restrictBCase (restrictNode fuel) fuel (k + 1) aConn bConns
          (i - 2 ^ (k + 1 - 1)) v []) m₁ fun result m' => IsRestriction m' g i v result := by
    intro m₁ hle₁ hm₁
    have hlevel₁ : k + 1 ≤ m₁.level := by rwa [hle₁.level]
    rw [Nat.add_sub_cancel]
    split
    next hi =>
      exact (restrictACase_returns ih hm₁ hlevel₁ (number_number g) (hparts.mono hle₁) hi
        v).mono fun _ _ _ _ h => h.of_number
    next hi =>
      exact (restrictBCase_returns ih hk hm₁ hlevel₁ (number_number g) (hparts.mono hle₁) hi
        v).mono fun _ _ _ _ h => h.of_number
  unfold restrictNode
  refine record_bind hm hrecord ?_
  dsimp only
  refine shortcutsOn_bind hm ?_
  split
  · -- The constant node does not depend on any variable.
    refine Runs.bind (noDistinction_returns hm hlevel) ?_
    intro nd m₁ hle₁ hm₁ hnd
    split
    next heq =>
      subst heq
      have hconst : ∀ a b, g a = g b := fun a b => ((hn.mono hle₁).eq_iff hnd a b).mpr rfl
      exact Runs.pure hm₁ (.of_const (hn.mono hle₁) hconst i v)
    next => exact hinternal hle₁ hm₁
  · exact hinternal le_rfl hm

/-- **Correctness of `restrict_node`.** -/
theorem restrictNode_returns {fuel : ℕ} (hfuel : k < fuel) :
    RestrictCorrect (restrictNode fuel) k := by
  induction fuel generalizing k with
  | zero => omega
  | succ fuel ih =>
    cases k with
    | zero => exact restrictNode_leaf fuel
    | succ k => exact restrictNode_internal (by omega) (ih (by omega))

end Restrict

section Operations

variable {m : Manager} {L : ℕ} {f g : Bdd} {F G : Asg L → Bool} {i : ℕ}

/-- **Correctness of `restrict`.** -/
theorem restrict_returns (hm : m.Inv) (hL : m.level = L) (hf : Denotes m L f F) (hi : i < 2 ^ L)
    (v : Bool) :
    Returns (restrict f i v) m fun h m' => Denotes m' L h fun a => F (a.set i v) := by
  have hdepth : L < m.depth := Manager.lt_depth hL.ge
  unfold restrict
  refine totalVars_bind hm (assert_bind (decide_eq_true (by rwa [Manager.totalVars, hL])) ?_)
  refine depth_bind hm ?_
  refine Runs.bind (restrictNode_returns hdepth i v hm hf.root) ?_
  rintro ⟨newRoot, mapHandle⟩ m₁ hle₁ hm₁ ⟨hnode, hexits⟩
  obtain rfl : mapHandle = restrictMap F i v := hexits
  refine body_bind hm₁ (Manager.body?_mono hle₁ hf.values) ?_
  have htranslate : List.Forall₂ (fun exit w => ((visited F).map Bool.toNat)[exit]? = some w)
      (restrictMap F i v) ((visited fun a : Asg L => F (a.set i v)).map Bool.toNat) := by
    rw [restrictMap_eq_map, List.forall₂_map_left_iff, List.forall₂_map_right_iff]
    refine List.forall₂_same.mpr ?_
    intro b hb
    obtain ⟨a, rfl⟩ := mem_visited.mp hb
    rw [List.getElem?_map, getElem?_rank (mem_visited_self F _), Option.map_some]
  have hinj : Set.InjOn Bool.toNat (Set.range fun a : Asg L => F (a.set i v)) :=
    fun b _ b' _ h => by cases b <;> cases b' <;> simp_all
  -- Restriction leaves no equal values, so that the last reduction merges nothing.
  have hvalues : firstSeen ((visited fun a : Asg L => F (a.set i v)).map Bool.toNat) =
      (visited fun a : Asg L => F (a.set i v)).map Bool.toNat := firstSeen_renamed (ρ := id) hinj
  have hreduction : ((visited fun a : Asg L => F (a.set i v)).map Bool.toNat).map
        (rank (firstSeen ((visited fun a : Asg L => F (a.set i v)).map Bool.toNat))) =
      reduction (fun a : Asg L => F (a.set i v)) id := map_rank_renamed (ρ := id) hinj
  rw [translateLoop htranslate, pure_bind, dedupeFirstSeen_eq, hreduction, hvalues]
  refine Runs.bind (internMap_returns hm₁ _) ?_
  intro newValuesId m₂ hle₂ hm₂ hid
  rw [List.length_map]
  refine Runs.bind (reduce_returns hm₂ (hnode.mono hle₂) hdepth id) ?_
  intro reducedRoot m₃ hle₃ hm₃ hreduced
  exact Runs.pure hm₃ ⟨hreduced, Manager.body?_mono hle₃ hid⟩

/-- A named operation on the two restrictions of a diagram. -/
theorem quantify_returns (c : Connective) (hm : m.Inv) (hL : m.level = L) (hf : Denotes m L f F)
    (hi : i < 2 ^ L) :
    Returns (do
        let t ← restrict f i true
        let fa ← restrict f i false
        c.exec t fa) m fun h m' =>
      Denotes m' L h fun a => c.eval (F (a.set i true)) (F (a.set i false)) := by
  refine Runs.bind (restrict_returns hm hL hf hi true) ?_
  intro t m₁ hle₁ hm₁ ht
  have hL₁ : m₁.level = L := hle₁.level.trans hL
  refine Runs.bind (restrict_returns hm₁ hL₁ (hf.mono hle₁) hi false) ?_
  intro fa m₂ hle₂ hm₂ hfa
  exact c.returns hm₂ (hle₂.level.trans hL₁) (ht.mono hle₂) hfa

/-- `exists` returns the disjunction of both restrictions. -/
theorem existsVar_returns (hm : m.Inv) (hL : m.level = L) (hf : Denotes m L f F)
    (hi : i < 2 ^ L) :
    Returns (existsVar f i) m fun h m' =>
      Denotes m' L h fun a => F (a.set i true) || F (a.set i false) :=
  quantify_returns .or hm hL hf hi

/-- `forall` returns the conjunction of both restrictions. -/
theorem forallVar_returns (hm : m.Inv) (hL : m.level = L) (hf : Denotes m L f F)
    (hi : i < 2 ^ L) :
    Returns (forallVar f i) m fun h m' =>
      Denotes m' L h fun a => F (a.set i true) && F (a.set i false) :=
  quantify_returns .and hm hL hf hi

/-- **Correctness of `compose`.** -/
theorem compose_returns (hm : m.Inv) (hL : m.level = L) (hf : Denotes m L f F)
    (hg : Denotes m L g G) (hi : i < 2 ^ L) :
    Returns (compose f i g) m fun h m' => Denotes m' L h fun a => F (a.set i (G a)) := by
  unfold compose
  refine Runs.bind (restrict_returns hm hL hf hi true) ?_
  intro fTrue m₁ hle₁ hm₁ hfTrue
  have hL₁ : m₁.level = L := hle₁.level.trans hL
  refine Runs.bind (restrict_returns hm₁ hL₁ (hf.mono hle₁) hi false) ?_
  intro fFalse m₂ hle₂ hm₂ hfFalse
  have hL₂ : m₂.level = L := hle₂.level.trans hL₁
  have hg₂ := hg.mono (hle₁.trans hle₂)
  refine Runs.bind (not_returns hm₂ hg₂) ?_
  intro notG m₃ hle₃ hm₃ hnotG
  have hL₃ : m₃.level = L := hle₃.level.trans hL₂
  refine Runs.bind (Connective.returns .and hm₃ hL₃ (hg₂.mono hle₃)
    (hfTrue.mono (hle₂.trans hle₃))) ?_
  intro left m₄ hle₄ hm₄ hleft
  have hL₄ : m₄.level = L := hle₄.level.trans hL₃
  refine Runs.bind (Connective.returns .and hm₄ hL₄ (hnotG.mono hle₄)
    (hfFalse.mono (hle₃.trans hle₄))) ?_
  intro right m₅ hle₅ hm₅ hright
  refine (Connective.returns .or hm₅ (hle₅.level.trans hL₄) (hleft.mono hle₅) hright).mono ?_
  intro h m₆ _ _ hh
  -- The value of `g` selects one of the two restrictions.
  have hselect : (fun a => Connective.or.eval (Connective.and.eval (G a) (F (a.set i true)))
      (Connective.and.eval (!G a) (F (a.set i false)))) = fun a => F (a.set i (G a)) := by
    funext a
    cases hGa : G a <;> simp [Connective.eval]
  rwa [hselect] at hh

end Operations

end Cflobdd
