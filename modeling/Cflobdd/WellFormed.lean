import Cflobdd.Semantics

/-!
# The representation invariant of the store

Every internal record of a reachable manager has the canonical form: identity on the
A-connection, pairwise distinct B-connections without repetitions in their return maps,
exits in the order of their first occurrence, and one node for each constant function.
The diagrams returned have value maps that fit their roots.
-/

namespace Cflobdd

open FirstVisit Growing

/-- The exits of a node as its B-connections list them from left to right. -/
def Manager.exitList (m : Manager) (bConns : List Connection) : List ℕ :=
  bConns.flatMap fun b => (m.body? b.returnMap).getD []

/-- An A-connection of a node of level `level`: its return map is the identity, with an
entry for each exit of the target and for each B-connection. -/
def AConnWellFormed (m : Manager) (level : ℕ) (bConns : List Connection) (a : Connection) : Prop :=
  ∃ target, m.record? a.target = some target ∧ target.level + 1 = level ∧
    target.numExits = bConns.length ∧
    m.body? a.returnMap = some (List.range target.numExits)

/-- A B-connection of a node of level `level`: its return map has an entry for each exit of
the target, and none twice. -/
def BConnWellFormed (m : Manager) (level : ℕ) (b : Connection) : Prop :=
  ∃ target map, m.record? b.target = some target ∧ target.level + 1 = level ∧
    m.body? b.returnMap = some map ∧ map.length = target.numExits ∧ map.Nodup

/-- The canonical form of the record of an internal node. -/
structure RecordWellFormed (m : Manager) (id : NodeId) (level numExits : ℕ) (aConn : Connection)
    (bConns : List Connection) : Prop where
  aConn_wellFormed : AConnWellFormed m level bConns aConn
  bConns_wellFormed : ∀ b ∈ bConns, BConnWellFormed m level b
  /-- B-connections differ in their targets or in the contents of their return maps. -/
  nodup : (bConns.map fun b => (b.target, m.body? b.returnMap)).Nodup
  /-- Exits first appear in the order `0, 1, 2, ...`, and all of them appear. -/
  exits : firstSeen (m.exitList bConns) = List.range numExits
  /-- The node with one exit is the constant node of its level. -/
  constant : numExits = 1 → ∃ m', noDistinction level m = .ok id m'

/-- Every internal record is in canonical form. -/
def Manager.WellFormed (m : Manager) : Prop :=
  ∀ id level numExits aConn bConns, m.record? id = some (.internal level numExits aConn bConns) →
    RecordWellFormed m id level numExits aConn bConns

/-- A diagram of a manager of level `L`: its value map has an entry zero or one for each
exit of the root, and none twice. -/
def BddWellFormed (m : Manager) (L : ℕ) (f : Bdd) : Prop :=
  ∃ root values, m.record? f.root = some root ∧ root.level = L ∧
    m.body? f.values = some values ∧ values.length = root.numExits ∧
    (∀ v ∈ values, v = 0 ∨ v = 1) ∧ values.Nodup

section Parts

variable {m : Manager} {k : ℕ} {α : Type} [DecidableEq α] {g : Asg (k + 1) → α}
  {aConn : Connection} {bConns : List Connection}

/-- The A-connection of a canonical node. -/
theorem Parts.aConn_wellFormed (h : Parts m g aConn bConns) :
    AConnWellFormed m (k + 1) bConns aConn := by
  obtain ⟨target, htarget, rfl, hexits⟩ := h.aTarget.record
  refine ⟨target, htarget, rfl, ?_, ?_⟩
  · rw [hexits, h.bConns.length_eq]
  · rw [hexits, h.aMap]

/-- The row of a B-connection. -/
theorem Parts.exists_row (h : Parts m g aConn bConns) {b : Connection} (hb : b ∈ bConns) :
    ∃ r ∈ visited (row g), RowConn m (visited g) r b := by
  obtain ⟨i, hi⟩ := List.getElem?_of_mem hb
  obtain ⟨r, hr, hrb⟩ := forall₂_getElem? h.bConns.flip hi
  have hmem := List.mem_of_getElem? hr
  exact ⟨r, hmem, mem_visited_of_row hmem, hrb.1, hrb.2⟩

/-- The B-connections of a canonical node. -/
theorem Parts.bConn_wellFormed (h : Parts m g aConn bConns) {b : Connection} (hb : b ∈ bConns) :
    BConnWellFormed m (k + 1) b := by
  obtain ⟨r, hr, hrow⟩ := h.exists_row hb
  obtain ⟨target, htarget, rfl, hexits⟩ := hrow.target.record
  exact ⟨target, _, htarget, rfl, hrow.returnMap, by rw [hexits, List.length_map], nodup_row_map hr⟩

/-- Different rows have different connections. -/
theorem Parts.nodup_bConns (h : Parts m g aConn bConns) :
    (bConns.map fun b => (b.target, m.body? b.returnMap)).Nodup := by
  have hrows : List.Forall₂ (RowConn m (visited g)) (visited (row g)) bConns :=
    forall₂_imp_of_mem h.bConns fun r b hr hb => ⟨mem_visited_of_row hr, hb.1, hb.2⟩
  have hunique : Relator.BiUnique (RowConn m (visited g) (k := k)) :=
    ⟨fun _ _ _ hr hr' => (hr.eq_iff hr').mpr rfl, fun _ _ _ hb hb' => (hb.eq_iff hb').mp rfl⟩
  have hnodup : bConns.Nodup := (List.rel_nodup hunique hrows).mp (nodup_visited (row g))
  refine hnodup.map_on ?_
  intro b hb b' hb' heq
  obtain ⟨htarget, hbody⟩ := Prod.mk.injEq _ _ _ _ ▸ heq
  obtain ⟨r, -, hrow⟩ := h.exists_row hb
  have hbody' := hrow.returnMap
  rw [hbody] at hbody'
  exact Connection.ext htarget (m.returnMaps.body?_inj hrow.returnMap hbody')

/-- Read from left to right, the return maps are the exits of the values of the rows. -/
theorem Parts.exitList_eq (h : Parts m g aConn bConns) :
    m.exitList bConns = ((visited (row g)).flatMap visited).map (rank (visited g)) := by
  have hbodies : List.Forall₂ (fun r b => (m.body? b.returnMap).getD [] =
      (visited r).map (rank (visited g))) (visited (row g)) bConns :=
    h.bConns.imp fun r b hb => by rw [hb.2, Option.getD_some]
  rw [Manager.exitList, List.map_flatMap]
  clear h
  generalize visited (row g) = rows at hbodies
  induction hbodies with
  | nil => rfl
  | cons hb _ ih => rw [List.flatMap_cons, List.flatMap_cons, hb, ih]

/-- The exits of a canonical node are numbered as the B-connections list them. -/
theorem Parts.firstSeen_exitList (h : Parts m g aConn bConns) :
    firstSeen (m.exitList bConns) = List.range (visited g).length := by
  rw [h.exitList_eq, visited_rows g]
  exact firstSeen_map_rank _

end Parts

/-- The node of a function with one value is the constant node. -/
theorem noDistinction_of_one_exit {m : Manager} (hm : m.Inv) {k : ℕ} (hk : k ≤ m.level)
    {α : Type} [DecidableEq α] {g : Asg k → α} {n : NodeId} (hn : Represents m k g n)
    (hone : (visited g).length = 1) : ∃ m', noDistinction k m = .ok n m' := by
  obtain ⟨n', m', hok, hle, -, hn', -⟩ := noDistinction_returns hm hk
  have hconst : Represents m k (fun _ => ()) n :=
    hn.congr fun a b => ⟨fun _ => rfl, fun _ => const_of_length_visited hone a b⟩
  obtain rfl : n' = n := hn'.unique (hconst.mono hle)
  exact ⟨m', hok⟩

/-- The invariant of the manager gives the canonical form of its records. -/
theorem Manager.Inv.wellFormed {m : Manager} (hm : m.Inv) : m.WellFormed := by
  intro id level numExits aConn bConns hrecord
  obtain ⟨k, e, rfl, hlevel, rfl, -, he, hparts⟩ := hm.exists_parts hrecord
  exact ⟨hparts.aConn_wellFormed, fun b hb => hparts.bConn_wellFormed hb, hparts.nodup_bConns,
    hparts.firstSeen_exitList, noDistinction_of_one_exit hm hlevel he⟩

/-- A diagram that denotes a function has a value map that fits its root. -/
theorem Denotes.wellFormed {m : Manager} {L : ℕ} {f : Bdd} {F : Asg L → Bool}
    (h : Denotes m L f F) : BddWellFormed m L f := by
  obtain ⟨root, hroot, hlevel, hexits⟩ := h.root.record
  have hinj : Function.Injective Bool.toNat := fun b b' h => by cases b <;> cases b' <;> simp_all
  refine ⟨root, _, hroot, hlevel, h.values, by rw [hexits, List.length_map], ?_, ?_⟩
  · intro v hv
    obtain ⟨b, -, rfl⟩ := List.mem_map.mp hv
    cases b
    · exact .inl rfl
    · exact .inr rfl
  · exact (nodup_visited F).map hinj

/-- **The representation invariant:** in every reachable session, every internal record is
in canonical form, and every returned diagram has a root at the level of the manager and
a value map that fits it. -/
theorem store_wellFormed {L : ℕ} {s : Session} (hs : Reachable L s) :
    s.manager.WellFormed ∧ ∀ f ∈ s.returned, BddWellFormed s.manager L f.bdd :=
  ⟨hs.valid.inv.wellFormed, fun f hf => (hs.valid.returned f hf).wellFormed⟩

theorem store_wellFormed_sample :
    sampleSession.manager.WellFormed ∧
      ∀ f ∈ sampleSession.returned, BddWellFormed sampleSession.manager 1 f.bdd :=
  store_wellFormed sampleSession_reachable

end Cflobdd
