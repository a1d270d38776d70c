import Cflobdd.Engine.Manager

/-!
# Reduction

`reduce` merges the exits of a node. A reduction map gives the new exit of each old
one. Return maps are composed with it, B-connections that become equal are merged,
and the merging is passed on to the A-target.
-/

namespace Cflobdd

open FirstVisit Growing

/-- `is_identity` and `is_identity_return_map`: every entry is its own position. -/
def isIdentity (red : List ℕ) : Bool := red.zipIdx.all fun (v, i) => v == i

/-- Note a call in the trace. -/
def observe (call : ReduceCall) : ManagerM Unit := fun m =>
  .ok () { m with probe := { m.probe with trace := call :: m.probe.trace } }

/-- The lookup of a reduction. -/
def lookupReduce (node : NodeId) (redId : ReturnMapId) (m : Manager) : Option NodeId :=
  m.reduceCache.get? (node, redId)

/-- Memoize a reduction. -/
def recordReduce (node : NodeId) (redId : ReturnMapId) (result : NodeId) (m : Manager) :
    Manager :=
  { m with reduceCache := m.reduceCache.insert (node, redId) result }

/-- One entry of a return map in `compose_and_reduce`: its new exit, numbered among
those met. -/
def composeStep (red : List ℕ) (state : Slots × List ℕ) (childExit : ℕ) :
    ManagerM (Slots × List ℕ) := do
  let parentNew ← index red childExit
  match state.1.position parentNew with
  | some (pos, output) => return (output, state.2 ++ [pos])
  | none => throw .indexOutOfBounds

/-- `compose_and_reduce`: a return map composed with a reduction map and freed of
repetitions, with the reduction map this induces on the child and its exit count. -/
def composeAndReduce (map red : List ℕ) : ManagerM (List ℕ × ReturnMapId × ℕ) := do
  if (← reads shortcutsOn) && isIdentity red then
    let id ← internMap map
    return (List.range map.length, id, map.length)
  else
    let redMax := red.foldl max 0
    let (slots, inducedRed) ← map.foldlM (composeStep red) (.new (redMax + 1), [])
    let id ← internMap slots.output
    return (inducedRed, id, slots.output.length)

/-- One B-connection in `reduce_inner`: reduce its target, and find the connection
among those kept. -/
def reduceStep (reduce : NodeId → List ℕ → ℕ → ManagerM NodeId) (red : List ℕ)
    (state : Dedup Connection × List ℕ) (b : Connection) :
    ManagerM (Dedup Connection × List ℕ) := do
  let childMap ← body b.returnMap
  let (inducedRed, inducedReturnMapId, inducedNumExits) ← composeAndReduce childMap red
  let newTarget ← reduce b.target inducedRed inducedNumExits
  let (position, newBConns) := state.1.position ⟨newTarget, inducedReturnMapId⟩
  return (newBConns, state.2 ++ [position])

/-- `reduce_inner`, with the recursive calls as a parameter. -/
def reduceInner (reduce : NodeId → List ℕ → ℕ → ManagerM NodeId) (node : NodeId)
    (red : List ℕ) (newNumExits : ℕ) : ManagerM NodeId := do
  observe (.reduceInner node red newNumExits)
  match ← record node with
  | .dontCare =>
    debugAssert (red == [0] && newNumExits == 1) .reduceDontCare
    return .dontCare
  | .fork =>
    debugAssert (red.length == 2) .reduceFork
    let r0 ← index red 0
    let r1 ← index red 1
    if r0 = r1 then return .dontCare else return .fork
  | .internal level _ aConn bConns =>
    let (newBConns, aRed) ← bConns.foldlM (reduceStep reduce red) (.empty, [])
    let newANumExits := newBConns.seen.length
    let aChildMap ← body aConn.returnMap
    let (inducedARed, newAReturnMapId, newANumExitsAfterCompose) ← composeAndReduce aChildMap aRed
    let newATarget ← reduce aConn.target inducedARed newANumExitsAfterCompose
    debugAssert (newANumExitsAfterCompose == newANumExits) .reduceAExits
    internInternal level newNumExits ⟨newATarget, newAReturnMapId⟩ newBConns.seen

/-- `reduce`: the node with its exits merged by a reduction map onto `[0, newNumExits)`. -/
def reduce : ℕ → NodeId → List ℕ → ℕ → ManagerM NodeId
  | 0, _, _, _ => throw .fuelExhausted
  | fuel + 1, node, red, newNumExits => do
    observe (.reduce node red newNumExits)
    let shortcuts ← reads shortcutsOn
    if shortcuts && newNumExits == 1 then
      -- A single exit: the constant node.
      let r ← record node
      noDistinction r.level
    else if shortcuts && isIdentity red then
      return node
    else
      let redId ← internMap red
      memoized memoOn (lookupReduce node redId) (recordReduce node redId)
        (reduceInner (reduce fuel) node red newNumExits)

end Cflobdd
