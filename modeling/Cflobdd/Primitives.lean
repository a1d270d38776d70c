import Cflobdd.Invariant

/-!
# The basic steps of the programs

Rules for reading the manager, for the checks, and for the two interning operations.
Interning the parts of the canonical diagram of a function gives the node that
represents the function; this is the only way in which the operations make nodes.
-/

namespace Cflobdd

open FirstVisit Growing

/-- The program returns from `m`, keeps the invariant, only adds to the manager, can be
repeated later with the same result, and its result satisfies `Q`. -/
abbrev Returns {α : Type} (f : ManagerM α) (m : Manager) (Q : α → Manager → Prop) : Prop :=
  Runs Manager.Inv f m Q

/-- A loop that appends a result for each entry of a list. -/
theorem foldlM_collect {m : Type → Type*} [Monad m] [LawfulMonad m] {α β : Type}
    {step : List β → α → m (List β)} {xs : List α} {ys : List β}
    (h : List.Forall₂ (fun x y => ∀ out, step out x = pure (out ++ [y])) xs ys) (out : List β) :
    xs.foldlM step out = pure (out ++ ys) := by
  induction h generalizing out with
  | nil => simp
  | cons hxy _ ih =>
    rw [List.foldlM_cons, hxy, pure_bind, ih, List.append_assoc, List.singleton_append]

section Reading

variable {α β : Type} {m : Manager} {Q : β → Manager → Prop}

/-- A first step whose result is known. -/
theorem bind_ok {f : ManagerM α} {g : α → ManagerM β} {a : α} {m m' : Manager}
    (h : f m = .ok a m') : (f >>= g) m = g a m' := by
  simp only [Bind.bind, EStateM.bind, h]

/-- A first step that fails. -/
theorem bind_error {f : ManagerM α} {g : α → ManagerM β} {e : Panic} {m m' : Manager}
    (h : f m = .error e m') : (f >>= g) m = .error e m' := by
  simp only [Bind.bind, EStateM.bind, h]

/-- Reading the record of a stored node. -/
theorem record_ok {id : NodeId} {r : NodeRecord} (h : m.record? id = some r) :
    record id m = .ok r m := by
  change (index m.nodes.records id.raw : ManagerM NodeRecord) m = _
  rw [index_of_some h]
  rfl

/-- Reading the body of a stored return map. -/
theorem body_ok {id : ReturnMapId} {b : List ℕ} (h : m.body? id = some b) :
    body id m = .ok b m := by
  change (index m.returnMaps.bodies id.raw : ManagerM (List ℕ)) m = _
  rw [index_of_some h]
  rfl

/-- The rule for a program that starts by reading a record. -/
theorem record_bind {id : NodeId} {r : NodeRecord} {g : NodeRecord → ManagerM β} (hm : m.Inv)
    (h : m.record? id = some r) (hg : Returns (g r) m Q) : Returns (record id >>= g) m Q :=
  Runs.read_bind hm (fun _ hle _ => record_ok (Manager.record?_mono hle h)) hg

/-- The rule for a program that starts by reading a body. -/
theorem body_bind {id : ReturnMapId} {b : List ℕ} {g : List ℕ → ManagerM β} (hm : m.Inv)
    (h : m.body? id = some b) (hg : Returns (g b) m Q) : Returns (body id >>= g) m Q :=
  Runs.read_bind hm (fun _ hle _ => body_ok (Manager.body?_mono hle h)) hg

/-- The rule for reading what does not change while the manager grows. -/
theorem reads_bind {f : Manager → α} {g : α → ManagerM β} (hm : m.Inv)
    (h : ∀ t, m ≤ t → t.Inv → f t = f m) (hg : Returns (g (f m)) m Q) :
    Returns (reads f >>= g) m Q :=
  Runs.read_bind hm (fun t hle ht => by rw [← h t hle ht]; rfl) hg

/-- The rule for indexing in range. -/
theorem index_bind {xs : List α} {i : ℕ} {x : α} {g : α → ManagerM β} (h : xs[i]? = some x)
    (hg : Returns (g x) m Q) : Returns (index xs i >>= g) m Q := by
  rwa [index_of_some h, pure_bind]

/-- The rule for an assertion that holds. -/
theorem assert_bind {condition : Bool} {panic : Panic} {g : Unit → ManagerM β}
    (h : condition = true) (hg : Returns (g ()) m Q) :
    Returns (assert condition panic >>= g) m Q := by
  rwa [assert_of_true h, pure_bind]

/-- The rule for a debug assertion that holds. -/
theorem debugAssert_bind {condition : Bool} {failed : DebugAssert} {g : Unit → ManagerM β}
    (h : condition = true) (hg : Returns (g ()) m Q) :
    Returns (debugAssert condition failed >>= g) m Q := assert_bind h hg

/-- The level does not change. -/
theorem level_bind {g : ℕ → ManagerM β} (hm : m.Inv) (hg : Returns (g m.level) m Q) :
    Returns (reads (·.level) >>= g) m Q :=
  reads_bind hm (fun _ hle _ => hle.level) hg

/-- The bound on the depth does not change. -/
theorem depth_bind {g : ℕ → ManagerM β} (hm : m.Inv) (hg : Returns (g m.depth) m Q) :
    Returns (reads Manager.depth >>= g) m Q :=
  reads_bind hm (fun _ hle _ => by rw [Manager.depth, hle.level, Manager.depth]) hg

/-- The number of variables does not change. -/
theorem totalVars_bind {g : ℕ → ManagerM β} (hm : m.Inv) (hg : Returns (g m.totalVars) m Q) :
    Returns (reads Manager.totalVars >>= g) m Q :=
  reads_bind hm (fun _ hle _ => by rw [Manager.totalVars, hle.level, Manager.totalVars]) hg

/-- The switch of the shortcuts does not change. -/
theorem shortcutsOn_bind {g : Bool → ManagerM β} (hm : m.Inv)
    (hg : Returns (g (shortcutsOn m)) m Q) : Returns (reads shortcutsOn >>= g) m Q :=
  reads_bind hm (fun _ hle _ => hle.shortcuts) hg

end Reading

section Interning

variable {m : Manager}

/-- Interning a return map adds it to the store. -/
theorem internMap_le (b : List ℕ) :
    m ≤ { m with returnMaps := (m.returnMaps.intern b).2 } where
  nodes := List.prefix_rfl
  returnMaps := by
    rw [ReturnMapStore.bodies_intern]
    exact prefix_see _ _
  level := rfl
  noDistinction _ _ h := h
  pairProducts _ _ h := h
  reductions _ _ h := h
  pathCounts _ _ h := h
  rmSingleton0 := rfl
  rmSingleton1 := rfl
  rmIdentity2 := rfl
  memo := rfl
  shortcuts := rfl

/-- Interning a return map keeps the invariant: nodes and tables stay the same. -/
theorem internMap_inv (hm : m.Inv) (b : List ℕ) :
    ({ m with returnMaps := (m.returnMaps.intern b).2 } : Manager).Inv :=
  hm.grow (internMap_le b) (fun _ _ h => .inl h) rfl (fun _ _ h => .inl h) (fun _ _ h => .inl h)
    (fun _ _ h => .inl h) (fun _ _ h => .inl h) (fun _ h => .inl h)

/-- The interned body is found under its index. -/
theorem body?_internMap (b : List ℕ) :
    ({ m with returnMaps := (m.returnMaps.intern b).2 } : Manager).body?
      (m.returnMaps.intern b).1 = some b := by
  rw [Manager.body?, ReturnMapStore.body?, ReturnMapStore.bodies_intern, ReturnMapStore.intern_raw]
  exact getElem?_rank (mem_see.mpr (Or.inr rfl))

/-- Interning a stored return map finds it and changes nothing. -/
theorem internMap_stored (hm : m.Inv) {id : ReturnMapId} {b : List ℕ} (h : m.body? id = some b) :
    ∃ m', internMap b m = .ok id m' ∧ m ≤ m' ∧ m' ≤ m ∧ m'.Inv := by
  have hsame : see m.returnMaps.bodies b = m.returnMaps.bodies :=
    see_of_mem (List.mem_of_getElem? h)
  have hid : (m.returnMaps.intern b).1 = id := by
    refine m.returnMaps.body?_inj ?_ h
    have hbody := body?_internMap (m := m) b
    rwa [Manager.body?, ReturnMapStore.body?, ReturnMapStore.bodies_intern, hsame] at hbody
  refine ⟨_, by rw [internMap, hid], internMap_le b, ?_, internMap_inv hm b⟩
  have hle := internMap_le (m := m) b
  exact { hle with
    returnMaps := by rw [ReturnMapStore.bodies_intern, hsame] }

/-- `internMap` returns the index of the body. -/
theorem internMap_returns (hm : m.Inv) (b : List ℕ) :
    Returns (internMap b) m fun id m' => m'.body? id = some b :=
  ⟨_, _, rfl, internMap_le b, internMap_inv hm b, body?_internMap b, fun _ ht hle =>
    internMap_stored ht (Manager.body?_mono hle (body?_internMap b))⟩

/-- `identity` returns the index of the identity map. -/
theorem identity_returns (hm : m.Inv) (n : ℕ) :
    Returns (identity n) m fun id m' => m'.body? id = some (List.range n) :=
  internMap_returns hm (List.range n)

/-- The manager with one more internal node. -/
def withInternal (m : Manager) (level numExits : ℕ) (aConn : Connection)
    (bConns : List Connection) : Manager :=
  { m with nodes := (m.nodes.internInternal level numExits aConn bConns).2 }

/-- Interning a node only adds to the store. -/
theorem withInternal_le (level numExits : ℕ) (aConn : Connection) (bConns : List Connection) :
    m ≤ withInternal m level numExits aConn bConns where
  nodes := by
    rw [withInternal, (m.nodes.internInternal_spec level numExits aConn bConns).2]
    exact prefix_see _ _
  returnMaps := List.prefix_rfl
  level := rfl
  noDistinction _ _ h := h
  pairProducts _ _ h := h
  reductions _ _ h := h
  pathCounts _ _ h := h
  rmSingleton0 := rfl
  rmSingleton1 := rfl
  rmIdentity2 := rfl
  memo := rfl
  shortcuts := rfl

/-- The interned record is found under its index. -/
theorem record?_withInternal (level numExits : ℕ) (aConn : Connection)
    (bConns : List Connection) :
    (withInternal m level numExits aConn bConns).record?
        (m.nodes.internInternal level numExits aConn bConns).1 =
      some (.internal level numExits aConn bConns) := by
  obtain ⟨hid, hrecords⟩ := m.nodes.internInternal_spec level numExits aConn bConns
  rw [Manager.record?, NodeStore.record?, withInternal, hrecords, hid]
  exact getElem?_rank (mem_see.mpr (Or.inr rfl))

variable {k : ℕ} {α : Type} [DecidableEq α] {g : Asg (k + 1) → α} {aConn : Connection}
  {bConns : List Connection}

/-- The connections of the canonical diagram of a function. -/
structure Parts (m : Manager) (g : Asg (k + 1) → α) (aConn : Connection)
    (bConns : List Connection) : Prop where
  /-- The A-target tells the rows of the function apart. -/
  aTarget : Represents m k (row g) aConn.target
  /-- The A-connection selects the B-connection of the row. -/
  aMap : m.body? aConn.returnMap = some (List.range (visited (row g)).length)
  /-- Each row has its B-connection. -/
  bConns : List.Forall₂ (fun r b => Represents m k r b.target ∧
    m.body? b.returnMap = some ((visited r).map (rank (visited g)))) (visited (row g)) bConns

/-- The parts of a node stay its parts when the manager grows. -/
theorem Parts.mono {m m' : Manager} (hle : m ≤ m') (h : Parts m g aConn bConns) :
    Parts m' g aConn bConns :=
  ⟨h.aTarget.mono hle, Manager.body?_mono hle h.aMap,
    h.bConns.imp fun _ _ hb => ⟨hb.1.mono hle, Manager.body?_mono hle hb.2⟩⟩

/-- A node that represents a function has its parts. -/
theorem Represents.parts {m : Manager} {n : NodeId} (h : Represents m (k + 1) g n) :
    ∃ aConn bConns, m.record? n = some (.internal (k + 1) (visited g).length aConn bConns) ∧
      Parts m g aConn bConns := by
  obtain ⟨aConn, bConns, hrecord, ha, hamap, hb⟩ := h
  exact ⟨aConn, bConns, hrecord, ha, hamap, hb⟩

/-- An internal node has the parts of the function that numbers its exits. -/
theorem Manager.Inv.exists_parts {m : Manager} (hm : m.Inv) {id : NodeId} {level numExits : ℕ}
    {aConn : Connection} {bConns : List Connection}
    (hrecord : m.record? id = some (.internal level numExits aConn bConns)) :
    ∃ (k : ℕ) (e : Asg (k + 1) → ℕ), level = k + 1 ∧ k + 1 ≤ m.level ∧
      numExits = (visited e).length ∧ number e = e ∧ Represents m (k + 1) e id ∧
      Parts m e aConn bConns := by
  obtain ⟨hlevel, e, he, hnumber⟩ := hm.exists_represents hrecord
  change level ≤ m.level at hlevel
  change Asg level → ℕ at e
  cases level with
  | zero =>
    -- A node of level zero is a leaf.
    have hleaf : m.record? id = some .dontCare ∨ m.record? id = some .fork := by
      rw [show id = _ from he]
      split
      · exact .inl m.record?_dontCare
      · exact .inr m.record?_fork
    rw [hrecord] at hleaf
    simp at hleaf
  | succ k =>
    obtain ⟨aConn', bConns', hrecord', hparts⟩ := he.parts
    obtain ⟨-, rfl, rfl, rfl⟩ :=
      NodeRecord.internal.inj (Option.some.inj (hrecord.symm.trans hrecord'))
    exact ⟨k, e, rfl, hlevel, rfl, hnumber, he, hparts⟩

/-- A node made of the parts of a function represents it. -/
theorem Parts.represents {m m' : Manager} {n : NodeId} (h : Parts m g aConn bConns)
    (hle : m ≤ m')
    (hn : m'.record? n = some (.internal (k + 1) (visited g).length aConn bConns)) :
    Represents m' (k + 1) g n :=
  ⟨aConn, bConns, hn, (h.mono hle).aTarget, (h.mono hle).aMap, (h.mono hle).bConns⟩

/-- What a loop that makes a B-connection for each row has made of the rows `done`: their
connections, and the exits that their values lead to. -/
structure BuiltRows (m : Manager) (g : Asg (k + 1) → α) (done : List (Asg k → α))
    (bConns : List Connection) (exits : List α) : Prop where
  bConns : List.Forall₂ (fun r b => Represents m k r b.target ∧
    m.body? b.returnMap = some ((visited r).map (rank (visited g)))) done bConns
  exits : exits = firstSeen (done.flatMap visited)

/-- Before the loop nothing is built. -/
theorem BuiltRows.nil (m : Manager) (g : Asg (k + 1) → α) : BuiltRows m g [] [] [] := ⟨.nil, rfl⟩

/-- What is built stays built when the manager grows. -/
theorem BuiltRows.mono {m m' : Manager} (hle : m ≤ m') {done : List (Asg k → α)} {exits : List α}
    (h : BuiltRows m g done bConns exits) : BuiltRows m' g done bConns exits :=
  ⟨h.bConns.imp fun _ _ hc => ⟨hc.1.mono hle, Manager.body?_mono hle hc.2⟩, h.exits⟩

/-- One more row. Its return map gives each value the number it has when it is met. -/
theorem BuiltRows.concat {m m' : Manager} {done rest : List (Asg k → α)} {r : Asg k → α}
    {exits : List α} {b : Connection} (h : BuiltRows m g done bConns exits) (hle : m ≤ m')
    (hrows : visited (row g) = done ++ r :: rest) (hb : Represents m' k r b.target)
    (hmap : m'.body? b.returnMap = some ((visited r).map (rank (seeAll exits (visited r))))) :
    BuiltRows m' g (done ++ [r]) (bConns ++ [b]) (seeAll exits (visited r)) := by
  obtain ⟨hconns, rfl⟩ := h.mono hle
  refine ⟨List.rel_append hconns (.cons ⟨hb, ?_⟩ .nil), seeAll_flatMap_block visited done r⟩
  rw [hmap, map_rank_block visited done rest, ← hrows, ← visited_rows]

/-- When all rows are done, the exits are those of the function. -/
theorem BuiltRows.exits_eq {m : Manager} {exits : List α}
    (h : BuiltRows m g (visited (row g)) bConns exits) : exits = visited g :=
  h.exits.trans (visited_rows g).symm

/-- Interning a node made of the parts of a function keeps the invariant. -/
theorem withInternal_inv (hm : m.Inv) (hk : k + 1 ≤ m.level) (h : Parts m g aConn bConns) :
    (withInternal m (k + 1) (visited g).length aConn bConns).Inv := by
  have hle := withInternal_le (m := m) (k + 1) (visited g).length aConn bConns
  refine hm.grow hle ?_ rfl (fun _ _ h => .inl h) (fun _ _ h => .inl h) (fun _ _ h => .inl h)
    (fun _ _ h => .inl h) (fun _ h => .inl h)
  intro id r hr
  have hmem : r ∈ see m.nodes.records (.internal (k + 1) (visited g).length aConn bConns) := by
    rw [← (m.nodes.internInternal_spec _ _ _ _).2]
    exact List.mem_of_getElem? hr
  rcases mem_see.mp hmem with hold | rfl
  · obtain ⟨i, hi⟩ := List.getElem?_of_mem hold
    have hi' : m.record? ⟨i⟩ = some r := hi
    obtain rfl : id = ⟨i⟩ := NodeStore.record?_inj _ hr (Manager.record?_mono hle hi')
    exact .inl hi'
  · exact .inr ⟨hk, number g, (h.represents hle hr).numbered⟩

/-- Interning the parts of the canonical diagram of a function gives its node. -/
theorem internInternal_returns (hm : m.Inv) (hk : k + 1 ≤ m.level) {numExits : ℕ}
    (hn : numExits = (visited g).length) (h : Parts m g aConn bConns) :
    Returns (internInternal (k + 1) numExits aConn bConns) m
      fun n m' => Represents m' (k + 1) g n := by
  subst hn
  have hexits : decide (1 ≤ (visited g).length) = true :=
    decide_eq_true (length_visited_pos g (.allFalse _))
  have hconns : (!bConns.isEmpty) = true := by
    have hlen := h.bConns.length_eq
    have hpos := length_visited_pos (row g) (.allFalse k)
    cases bConns with
    | nil =>
      rw [hlen] at hpos
      cases hpos
    | cons b bs => rfl
  have hok : ∀ t : Manager, internInternal (k + 1) (visited g).length aConn bConns t =
      .ok (t.nodes.internInternal (k + 1) (visited g).length aConn bConns).1
        (withInternal t (k + 1) (visited g).length aConn bConns) := by
    intro t
    unfold internInternal
    rw [debugAssert_of_true (decide_eq_true (Nat.le_add_left 1 k)), debugAssert_of_true hexits,
      debugAssert_of_true hconns]
    rfl
  refine ⟨_, _, hok m, withInternal_le _ _ _ _, withInternal_inv hm hk h,
    h.represents (withInternal_le _ _ _ _) (record?_withInternal _ _ _ _), ?_⟩
  intro t ht hle
  -- In a later state the node is found, and the store stays as it is.
  have hstored := Manager.record?_mono hle
    (record?_withInternal (m := m) (k + 1) (visited g).length aConn bConns)
  have hid : (t.nodes.internInternal (k + 1) (visited g).length aConn bConns).1 =
      (m.nodes.internInternal (k + 1) (visited g).length aConn bConns).1 :=
    NodeStore.record?_inj _ (record?_withInternal (m := t) _ _ _ _)
      (Manager.record?_mono (withInternal_le _ _ _ _) hstored)
  have hparts : Parts t g aConn bConns := h.mono ((withInternal_le _ _ _ _).trans hle)
  have hkt : k + 1 ≤ t.level := by
    rw [((withInternal_le _ _ _ _).trans hle).level]
    exact hk
  refine ⟨_, by rw [hok t, hid], withInternal_le _ _ _ _, ?_, withInternal_inv ht hkt hparts⟩
  have hle' := withInternal_le (m := t) (k + 1) (visited g).length aConn bConns
  exact { hle' with
    nodes := by
      rw [withInternal, (t.nodes.internInternal_spec _ _ _ _).2,
        see_of_mem (List.mem_of_getElem? hstored)] }

end Interning

end Cflobdd
