import Cflobdd.Engine.Reduce

/-!
# Path counting

`compute_paths` gives, for each exit of a node, the number of assignments that take
it. The counts of the A-target and of the B-targets are multiplied and summed in
128-bit integers, and every product and sum is checked. Counts are not negative, so
they are natural numbers here, with the bound of the signed type.
-/

namespace Cflobdd

open FirstVisit Growing

/-- The values of `i128` are below this bound. -/
def i128Bound : ℕ := 2 ^ 127

/-- `checked_mul` on counts. -/
def checkedMul (a b : ℕ) : Option ℕ := if a * b < i128Bound then some (a * b) else none

/-- `checked_add` on counts. -/
def checkedAdd (a b : ℕ) : Option ℕ := if a + b < i128Bound then some (a + b) else none

/-- `expect`: the value, or a panic. -/
def expect {α : Type} (value : Option α) (panic : Panic) : ManagerM α :=
  match value with
  | some a => pure a
  | none => throw panic

/-- The lookup of path counts. -/
def lookupPaths (id : NodeId) (m : Manager) : Option (List ℕ) := m.pathCounts.get? id

/-- Memoize path counts. -/
def recordPaths (id : NodeId) (paths : List ℕ) (m : Manager) : Manager :=
  { m with pathCounts := m.pathCounts.insert id paths }

/-- One exit of a B-target: its paths, after those of the A-exit, lead to exit `k`. -/
def pathExit (aPathsI : ℕ) (bPaths : List ℕ) (out : List ℕ) (entry : ℕ × ℕ) :
    ManagerM (List ℕ) := do
  let (k, j) := entry
  let bPathsJ ← index bPaths j
  let term ← expect (checkedMul aPathsI bPathsJ) .pathMulOverflow
  let slot ← index out k
  let sum ← expect (checkedAdd slot term) .pathAddOverflow
  return out.set k sum

/-- One B-connection: add its paths to the counts. -/
def pathStep (computePaths : NodeId → ManagerM (List ℕ)) (aPaths : List ℕ) (out : List ℕ)
    (entry : Connection × ℕ) : ManagerM (List ℕ) := do
  let (bConn, i) := entry
  let bPaths ← computePaths bConn.target
  let bRm ← body bConn.returnMap
  debugAssert (bPaths.length == bRm.length) .pathBExits
  let aPathsI ← index aPaths i
  bRm.zipIdx.foldlM (pathExit aPathsI bPaths) out

/-- The path counts of a node, with the recursive calls as a parameter. -/
def computePathsUncached (computePaths : NodeId → ManagerM (List ℕ)) (id : NodeId) :
    ManagerM (List ℕ) :=
  if id = .dontCare then return [2]
  else if id = .fork then return [1, 1]
  else do
    match ← record id with
    | .internal _ numExits aConn bConns =>
      let aPaths ← computePaths aConn.target
      let aMap ← body aConn.returnMap
      debugAssert (isIdentity aMap) .pathAMap
      debugAssert (aPaths.length == bConns.length) .pathAExits
      bConns.zipIdx.foldlM (pathStep computePaths aPaths) (List.replicate numExits 0)
    | .dontCare | .fork => throw .leafNotSentinel

/-- `compute_paths`: the memoized path counts of a node. -/
def computePaths : ℕ → NodeId → ManagerM (List ℕ)
  | 0, _ => throw .fuelExhausted
  | fuel + 1, id =>
    memoized memoOn (lookupPaths id) (recordPaths id) (computePathsUncached (computePaths fuel) id)

/-- One exit of the root in `path_count`: its paths count if its value is one. -/
def sumStep (rootPaths : List ℕ) (acc : ℕ) (entry : ℕ × ℕ) : ManagerM ℕ := do
  let (v, exitIdx) := entry
  if v = 1 then
    let paths ← index rootPaths exitIdx
    expect (checkedAdd acc paths) .pathSumOverflow
  else return acc

/-- `path_count`: the number of satisfying assignments. -/
def pathCount (bdd : Bdd) : ManagerM ℕ := do
  let level ← reads (·.level)
  assert (decide (level ≤ 6)) (.pathCountLevel level)
  let rootPaths ← computePaths (level + 1) bdd.root
  let values ← body bdd.values
  debugAssert (values.length == rootPaths.length) .valueMapLength
  values.zipIdx.foldlM (sumStep rootPaths) 0

end Cflobdd
