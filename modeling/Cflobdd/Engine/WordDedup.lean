import Cflobdd.Engine.WordStore
import Mathlib.Algebra.Group.Nat.Even

/-!
# First-seen numbering with machine words

`compose_and_reduce` and `dedupe_first_seen` once more, now with the words of the code. Both
free a list of repetitions and number its entries by their first occurrence. The one keeps a
slot for each value, a signed word that is `-1` until the value is seen, and the other scans
the values seen. A panic is `none`.
-/

namespace Cflobdd.Words

open FirstVisit

/-- `is_identity`: every entry is its own position. -/
def isIdentity (red : List UInt32) : Bool := red.zipIdx.all fun (v, i) => v == UInt32.ofNat i

/-- `output` and `slot` of `compose_and_reduce`. -/
structure SlotTable where
  /-- The values seen, in order. -/
  output : List UInt32
  /-- The slots, indexed by the values. -/
  slot : List Int32
  deriving DecidableEq

namespace SlotTable

/-- All slots unset. -/
def new (size : UInt32) : SlotTable := ⟨[], List.replicate size.toNat (-1)⟩

/-- The number of a value: the one in its slot, or the next free one, which is put there. -/
def position (t : SlotTable) (v : UInt32) : Option (UInt32 × SlotTable) := do
  let s ← t.slot[v.toNat]?
  if s < 0 then
    let pos := UInt32.ofNat t.output.length
    return (pos, ⟨t.output ++ [v], t.slot.set v.toNat pos.toInt32⟩)
  else return (s.toUInt32, t)

end SlotTable

/-- One entry of a return map in `compose_and_reduce`. -/
def composeStep (red : List UInt32) (state : SlotTable × List UInt32) (childExit : UInt32) :
    Option (SlotTable × List UInt32) := do
  let parentNew ← red[childExit.toNat]?
  let (pos, slots) ← state.1.position parentNew
  return (slots, state.2 ++ [pos])

/-- `w + 1`, checked for overflow. -/
def addOne (w : UInt32) : Option UInt32 := if w.toNat + 1 < 2 ^ 32 then some (w + 1) else none

/-- `compose_and_reduce`: a return map composed with a reduction map and freed of
repetitions, with the reduction map this induces on the child and its exit count. -/
def composeAndReduce (s : ReturnMapStore) (map red : List UInt32) :
    Option ((List UInt32 × ReturnMapId × UInt32) × ReturnMapStore) :=
  if isIdentity red then
    let (id, s) := s.intern map
    let inducedRed := (List.range (UInt32.ofNat map.length).toNat).map UInt32.ofNat
    some ((inducedRed, id, UInt32.ofNat map.length), s)
  else do
    let redMax := red.foldl max 0
    let size ← addOne redMax
    let (slots, inducedRed) ← map.foldlM (composeStep red) (.new size, [])
    let (id, s) := s.intern slots.output
    return ((inducedRed, id, UInt32.ofNat slots.output.length), s)

/-- One value in `dedupe_first_seen`. -/
def dedupeStep (state : List UInt32 × List UInt32) (v : UInt32) : List UInt32 × List UInt32 :=
  let (body, reduction) := state
  match scan body v with
  | some p => (body, reduction ++ [UInt32.ofNat p])
  | none => (body ++ [v], reduction ++ [UInt32.ofNat body.length])

/-- `dedupe_first_seen`: the distinct values in order, and the position of each entry. -/
def dedupeFirstSeen (seq : List UInt32) : List UInt32 × List UInt32 := seq.foldl dedupeStep ([], [])

end Cflobdd.Words
