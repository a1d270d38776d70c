import Cflobdd.Engine.PairProduct

/-!
# Restriction, composition and quantifiers

`restrict_node` fixes a variable of a node. Besides the new node it produces a map
from its exits to the exits of the old node. When the variable belongs to the
A-connection, B-connections are selected; when it belongs to the B-connections, they
are rewritten and merged. `compose` and the quantifiers are built from `restrict` and
`apply`.
-/

namespace Cflobdd

open FirstVisit Growing

/-- One value in `dedupe_first_seen`. -/
def dedupeStep (state : List ℕ × List ℕ) (v : ℕ) : List ℕ × List ℕ :=
  let (body, reduction) := state
  match scan body v with
  | some p => (body, reduction ++ [p])
  | none => (body ++ [v], reduction ++ [body.length])

/-- `dedupe_first_seen`: the distinct values in order, and the position of each entry. -/
def dedupeFirstSeen (seq : List ℕ) : List ℕ × List ℕ := seq.foldl dedupeStep ([], [])

/-- The output parameter of `restrict_node` with the exit counter kept beside it. -/
structure MapHandle where
  /-- `map_handle`: the old exit that each new exit stands for. -/
  exits : List ℕ
  /-- `cur_exit`: the number of exits pushed. -/
  curExit : ℕ
  deriving Repr

/-- The new exit of an old exit `c`: its position in `map_handle`, where it is pushed
if it is not there. -/
def MapHandle.position (handle : MapHandle) (c : ℕ) : ℕ × MapHandle :=
  match scan handle.exits c with
  | some p => (p, handle)
  | none => (handle.curExit, ⟨handle.exits ++ [c], handle.curExit + 1⟩)

/-- One entry of a rewritten return map. -/
def renumberStep (state : MapHandle × List ℕ) (c : ℕ) : MapHandle × List ℕ :=
  let (pos, handle) := state.1.position c
  (handle, state.2 ++ [pos])

/-- One entry of the old return map read through the exits kept. -/
def translateStep (map : List ℕ) (translated : List ℕ) (exit : ℕ) : ManagerM (List ℕ) := do
  return translated ++ [← index map exit]

/-- One selected B-connection in `restrict_a_case`: the same target under a rewritten
return map. -/
def restrictAStep (bConns : List Connection) (state : List Connection × MapHandle) (b : ℕ) :
    ManagerM (List Connection × MapHandle) := do
  let orig ← index bConns b
  let origRm ← body orig.returnMap
  let (handle, newRm) := origRm.foldl renumberStep (state.2, [])
  let newRmId ← internMap newRm
  return (state.1 ++ [⟨orig.target, newRmId⟩], handle)

/-- `restrict_a_case`: the variable belongs to the A-connection. -/
def restrictACase (restrictNode : NodeId → ℕ → Bool → List ℕ → ManagerM (NodeId × List ℕ))
    (level : ℕ) (aConn : Connection) (bConns : List Connection) (varIndex : ℕ) (value : Bool)
    (mapHandle : List ℕ) : ManagerM (NodeId × List ℕ) := do
  let (newATarget, aMap) ← restrictNode aConn.target varIndex value []
  let aConnMap ← body aConn.returnMap
  let bIndices ← aMap.foldlM (translateStep aConnMap) []
  let (newBConns, handle) ← bIndices.foldlM (restrictAStep bConns) ([], ⟨mapHandle, 0⟩)
  let newAReturnMap ← identity aMap.length
  let node ← internInternal level handle.curExit ⟨newATarget, newAReturnMap⟩ newBConns
  return (node, handle.exits)

/-- The loop variables of `restrict_b_case`: the B-connections kept, the exits pushed,
and the position of each old B-connection among those kept. -/
structure RestrictBState where
  /-- `new_b_conns` and `b_dedup` -/
  newBConns : Dedup Connection
  /-- `map_handle` and `cur_exit` -/
  handle : MapHandle
  /-- `a_reduction` -/
  aReduction : List ℕ

/-- One B-connection in `restrict_b_case`. -/
def restrictBStep (restrictNode : NodeId → ℕ → Bool → List ℕ → ManagerM (NodeId × List ℕ))
    (adjIndex : ℕ) (value : Bool) (state : RestrictBState) (origB : Connection) :
    ManagerM RestrictBState := do
  let (m, bMap) ← restrictNode origB.target adjIndex value []
  let origRm ← body origB.returnMap
  let translated ← bMap.foldlM (translateStep origRm) []
  let (handle, induced) := translated.foldl renumberStep (state.handle, [])
  let inducedId ← internMap induced
  let (position, newBConns) := state.newBConns.position ⟨m, inducedId⟩
  return ⟨newBConns, handle, state.aReduction ++ [position]⟩

/-- `restrict_b_case`: the variable belongs to the B-connections. -/
def restrictBCase (restrictNode : NodeId → ℕ → Bool → List ℕ → ManagerM (NodeId × List ℕ))
    (fuel level : ℕ) (aConn : Connection) (bConns : List Connection) (adjIndex : ℕ)
    (value : Bool) (mapHandle : List ℕ) : ManagerM (NodeId × List ℕ) := do
  let state ← bConns.foldlM (restrictBStep restrictNode adjIndex value) ⟨.empty, ⟨mapHandle, 0⟩, []⟩
  let aConnRm ← body aConn.returnMap
  let composedARm ← aConnRm.foldlM (translateStep state.aReduction) []
  let (inducedARmBody, inducedAReduction) := dedupeFirstSeen composedARm
  let inducedARmId ← internMap inducedARmBody
  let newANumExits := (← body inducedARmId).length
  let reducedATarget ← reduce fuel aConn.target inducedAReduction newANumExits
  let node ← internInternal level state.handle.curExit ⟨reducedATarget, inducedARmId⟩
    state.newBConns.seen
  return (node, state.handle.exits)

/-- `restrict_node`: fix variable `varIndex` of a node; the old exits that the new
exits stand for are appended to `mapHandle`. -/
def restrictNode : ℕ → NodeId → ℕ → Bool → List ℕ → ManagerM (NodeId × List ℕ)
  | 0, _, _, _, _ => throw .fuelExhausted
  | fuel + 1, node, varIndex, value, mapHandle => do
    match ← record node with
    | .dontCare => return (.dontCare, mapHandle ++ [0])
    | .fork => return (.dontCare, mapHandle ++ [if value then 1 else 0])
    | .internal level _ aConn bConns =>
      let half := 2 ^ (level - 1)
      let restrictInternal : ManagerM (NodeId × List ℕ) :=
        if varIndex < half then
          restrictACase (restrictNode fuel) level aConn bConns varIndex value mapHandle
        else
          restrictBCase (restrictNode fuel) fuel level aConn bConns (varIndex - half) value
            mapHandle
      if ← reads shortcutsOn then
        -- The constant node does not depend on any variable.
        let nd ← noDistinction level
        if node = nd then return (node, mapHandle ++ [0]) else restrictInternal
      else restrictInternal

/-- `restrict`: substitute a constant for a variable. -/
def restrict (f : Bdd) (varIndex : ℕ) (value : Bool) : ManagerM Bdd := do
  let total ← reads Manager.totalVars
  assert (decide (varIndex < total)) (.varIndexOutOfRange varIndex total)
  let depth ← reads Manager.depth
  let (newRoot, mapHandle) ← restrictNode depth f.root varIndex value []
  let fValues ← body f.values
  let composed ← mapHandle.foldlM (translateStep fValues) []
  let (newValuesBody, reduction) := dedupeFirstSeen composed
  let newValuesId ← internMap newValuesBody
  let reducedRoot ← reduce depth newRoot reduction newValuesBody.length
  return ⟨reducedRoot, newValuesId⟩

/-- `compose`: substitute a diagram for a variable. -/
def compose (f : Bdd) (varIndex : ℕ) (g : Bdd) : ManagerM Bdd := do
  let fTrue ← restrict f varIndex true
  let fFalse ← restrict f varIndex false
  let notG ← not g
  let left ← and g fTrue
  let right ← and notG fFalse
  or left right

/-- `exists`: some value of the variable makes the diagram true. -/
def existsVar (f : Bdd) (varIndex : ℕ) : ManagerM Bdd := do
  let t ← restrict f varIndex true
  let fa ← restrict f varIndex false
  or t fa

/-- `forall`: both values of the variable make the diagram true. -/
def forallVar (f : Bdd) (varIndex : ℕ) : ManagerM Bdd := do
  let t ← restrict f varIndex true
  let fa ← restrict f varIndex false
  and t fa

end Cflobdd
