import Cflobdd.Aliasing
import Cflobdd.Engine.Store

/-!
# The word stores refine the numbered stores

The engine works on stores whose indices are natural numbers. As long as the ids of the word
stores do not alias, every id that a word store returns is the one that the store with numbers
returns for the same content, and both hold the same records.
-/

namespace Cflobdd

open FirstVisit Hashing

/-- The node store with numbers as a store that hands out ids. -/
def NodeStore.interner : Interner (ℕ × ℕ × Connection × List Connection) NodeId NodeRecord where
  State := NodeStore
  new := .new
  intern s c := s.internInternal c.1 c.2.1 c.2.2.1 c.2.2.2
  resolve := NodeStore.record?
  record c := .internal c.1 c.2.1 c.2.2.1 c.2.2.2

/-- With numbers for indices nothing is ever cut off. -/
theorem NodeStore.numbers (calls : List (ℕ × ℕ × Connection × List Connection)) :
    (interner.after calls).records = interner.contents [.dontCare, .fork] calls ∧
      interner.Numbers NodeId.raw [.dontCare, .fork] calls := by
  refine Interner.numbers_of_step (I := interner) (fun s seen => NodeStore.records s = seen) rfl ?_
    ?_ (le_refl _)
  · rintro s seen rfl id
    rfl
  · rintro s seen c rfl -
    obtain ⟨hid, hrecords⟩ := NodeStore.internInternal_spec s c.1 c.2.1 c.2.2.1 c.2.2.2
    exact ⟨hrecords, hid⟩

/-- The return-map store with numbers as a store that hands out ids. -/
def ReturnMapStore.interner : Interner (List ℕ) ReturnMapId (List ℕ) where
  State := ReturnMapStore
  new := .new
  intern := ReturnMapStore.intern
  resolve := ReturnMapStore.body?
  record body := body

/-- Nor for return maps. -/
theorem ReturnMapStore.numbers (calls : List (List ℕ)) :
    (interner.after calls).bodies = interner.contents [] calls ∧
      interner.Numbers ReturnMapId.raw [] calls := by
  refine Interner.numbers_of_step (I := interner) (fun s seen => ReturnMapStore.bodies s = seen)
    rfl ?_ ?_ (le_refl _)
  · rintro s seen rfl id
    rfl
  · rintro s seen body rfl -
    exact ⟨ReturnMapStore.bodies_intern s body, ReturnMapStore.intern_raw s body⟩

namespace Words

/-- The number of an index. -/
def NodeId.widen (id : NodeId) : Cflobdd.NodeId := ⟨id.position⟩

/-- The number of an index. -/
def ReturnMapId.widen (id : ReturnMapId) : Cflobdd.ReturnMapId := ⟨id.raw.toNat⟩

/-- An edge with numbers. -/
def Connection.widen (c : Connection) : Cflobdd.Connection := ⟨c.target.widen, c.returnMap.widen⟩

/-- A record with numbers. -/
def NodeRecord.widen : NodeRecord → Cflobdd.NodeRecord
  | dontCare => .dontCare
  | fork => .fork
  | internal level numExits aConn bConns =>
    .internal level.toNat numExits.toNat aConn.widen (bConns.map Connection.widen)

/-- The contents of a node with numbers. -/
def Contents.widen (c : Contents) :
    ℕ × ℕ × Cflobdd.Connection × List Cflobdd.Connection :=
  (c.level.toNat, c.numExits.toNat, c.aConn.widen, c.bConns.map Connection.widen)

/-- Edges with the same numbers are equal. -/
theorem Connection.widen_injective : Function.Injective Connection.widen := by
  rintro ⟨target, returnMap⟩ ⟨target', returnMap'⟩ h
  obtain ⟨htarget, hreturnMap⟩ := Cflobdd.Connection.mk.inj h
  have htarget : target = target' :=
    NodeId.position_injective (congrArg Cflobdd.NodeId.raw htarget)
  have hreturnMap : returnMap = returnMap' :=
    ReturnMapId.toNat_injective (congrArg Cflobdd.ReturnMapId.raw hreturnMap)
  rw [htarget, hreturnMap]

/-- Records with the same numbers are equal. -/
theorem NodeRecord.widen_injective : Function.Injective NodeRecord.widen := by
  rintro (- | - | ⟨level, numExits, aConn, bConns⟩) (- | - | ⟨level', numExits', aConn', bConns'⟩) h
  all_goals try cases h
  · rfl
  · rfl
  · obtain ⟨hlevel, hnumExits, haConn, hbConns⟩ := Cflobdd.NodeRecord.internal.inj h
    rw [UInt8.toNat.inj hlevel, UInt32.toNat.inj hnumExits, Connection.widen_injective haConn,
      Connection.widen_injective.list_map hbConns]

/-- As long as there are enough ids, the node store is the one with numbers: it holds the same
records, and every call returns the same id. -/
theorem NodeStore.refines (H : Hasher) {T : HashTable NodeId} (hT : T.Lawful)
    {calls : List Contents} (hcard : calls.toFinset.card ≤ 2 ^ 32 - 2) :
    (Cflobdd.NodeStore.interner.after (calls.map Contents.widen)).records =
        ((interner H T).after calls).records.map NodeRecord.widen ∧
      ∀ {before c}, before ++ [c] <+: calls →
        Cflobdd.NodeStore.interner.idAfter (before.map Contents.widen) c.widen =
          ((interner H T).idAfter before c).widen := by
  obtain ⟨hfollows, hnumbers⟩ := numbers H hT (length_contents_le_of_card_le H T hcard)
  obtain ⟨hrecords, hnumbers'⟩ := Cflobdd.NodeStore.numbers (calls.map Contents.widen)
  constructor
  · rw [hrecords, hfollows.records_eq]
    exact Interner.contents_map (I := interner H T) (J := Cflobdd.NodeStore.interner)
      NodeRecord.widen_injective (fun _ => rfl) leaves calls
  · intro before c hcall
    have hposition := hnumbers.agree NodeRecord.widen_injective (fun _ => rfl) hnumbers' hcall
    exact congrArg Cflobdd.NodeId.mk hposition

/-- From stores with the same bodies, a call returns the same id and leaves the same bodies. -/
theorem ReturnMapStore.Follows.intern_refines {s : ReturnMapStore} {seen : List (List UInt32)}
    (h : s.Follows seen) {r : Cflobdd.ReturnMapStore}
    (hr : r.bodies = s.bodies.map (List.map UInt32.toNat)) {body : List UInt32}
    (hfits : (s.intern body).2.bodies.length ≤ 2 ^ 32) :
    (r.intern (body.map UInt32.toNat)).1 = (s.intern body).1.widen ∧
      (r.intern (body.map UInt32.toNat)).2.bodies =
        (s.intern body).2.bodies.map (List.map UInt32.toNat) := by
  have hinjective : Function.Injective (List.map UInt32.toNat) := toNat_injective.list_map
  obtain ⟨hfollows, -⟩ := h.intern body
  have hsee : see r.bodies (body.map UInt32.toNat) =
      (see seen body).map (List.map UInt32.toNat) := by
    rw [hr, h.bodies_eq, see_map_of_injective hinjective]
  rw [hfollows.bodies_eq] at hfits
  constructor
  · have hraw : (r.intern (body.map UInt32.toNat)).1.raw = (s.intern body).1.raw.toNat := by
      rw [Cflobdd.ReturnMapStore.intern_raw, hsee, h.toNat_intern hfits,
        rank_map_of_injOn hinjective.injOn (nodup_see h.nodup) (mem_see.mpr (.inr rfl))]
    exact congrArg Cflobdd.ReturnMapId.mk hraw
  · rw [Cflobdd.ReturnMapStore.bodies_intern, hsee, hfollows.bodies_eq]

/-- As long as there are enough ids, the return-map store is the one with numbers. -/
theorem ReturnMapStore.refines {calls : List (List UInt32)}
    (hcard : calls.toFinset.card ≤ 2 ^ 32) :
    (Cflobdd.ReturnMapStore.interner.after (calls.map (List.map UInt32.toNat))).bodies =
        (interner.after calls).bodies.map (List.map UInt32.toNat) ∧
      ∀ {before body}, before ++ [body] <+: calls →
        Cflobdd.ReturnMapStore.interner.idAfter (before.map (List.map UInt32.toNat))
            (body.map UInt32.toNat) =
          (interner.idAfter before body).widen := by
  rw [← length_contents] at hcard
  obtain ⟨hfollows, hnumbers⟩ := numbers hcard
  obtain ⟨hbodies, hnumbers'⟩ :=
    Cflobdd.ReturnMapStore.numbers (calls.map (List.map UInt32.toNat))
  have hinjective : Function.Injective (List.map UInt32.toNat) := toNat_injective.list_map
  constructor
  · rw [hbodies, hfollows.bodies_eq]
    exact Interner.contents_map (I := interner) (J := Cflobdd.ReturnMapStore.interner)
      hinjective (fun _ => rfl) [] calls
  · intro before body hcall
    have hposition := hnumbers.agree hinjective (fun _ => rfl) hnumbers' hcall
    exact congrArg Cflobdd.ReturnMapId.mk hposition

end Words

end Cflobdd
