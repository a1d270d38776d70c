import Cflobdd.Engine.Store
import Cflobdd.Growing.Runs

/-!
# The manager

`Manager` owns the two stores, the memo tables and the table of constant nodes.
Every public operation is a program over it that returns a result or panics. This
file has the manager, the constants and projections, evaluation and the structural
counts; the other operations have their own files.
-/

namespace Cflobdd

open FirstVisit Growing

/-- The debug assertions of the code, by the condition that failed. -/
inductive DebugAssert where
  /-- "internal nodes must be level ≥ 1" -/
  | internalLevel
  /-- "internal nodes must have ≥ 1 exit" -/
  | internalExits
  /-- "internal nodes must have ≥ 1 B-connection" -/
  | internalBConns
  /-- "level-0 distinction requires i = 0" -/
  | distinctionIndex
  /-- `evaluate_node`: the assignment has the length of the node's level. -/
  | evaluateLength
  /-- "PairProduct: levels must match" -/
  | pairProductLevels
  /-- "A-conn return map of n1 (or n2) must be identity" -/
  | pairProductAMap
  /-- "boolean op operands must be 0/1" -/
  | boolOperands
  /-- `reduce_inner`: the reduction map of `DontCare` is `[0]`, onto one exit. -/
  | reduceDontCare
  /-- `reduce_inner`: the reduction map of `Fork` has length two. -/
  | reduceFork
  /-- `reduce_inner`: the composed A-exit count is the number of B-connections kept. -/
  | reduceAExits
  /-- "value-map length must equal the root node's exit count" -/
  | valueMapLength
  /-- "A-connection return map must be identity in canonical form" -/
  | pathAMap
  /-- "A-target exit count must equal B-connection count" -/
  | pathAExits
  /-- "B-target exit count must equal its return-map length" -/
  | pathBExits
  deriving DecidableEq, Repr

/-- The ways in which a call can end without a result. -/
inductive Panic where
  /-- "level must be ≥ 1; level 0 is degenerate" -/
  | levelTooSmall
  /-- "level > 30 implies > 1B variables; not supported" -/
  | levelTooLarge
  /-- "var_index {} out of range (total_vars = {})" -/
  | varIndexOutOfRange (varIndex totalVars : ℕ)
  /-- "assignment length must equal total_vars" -/
  | assignmentLength
  /-- "PairProduct received nodes at mismatched levels: {} and {}" -/
  | mismatchedLevels (level1 level2 : ℕ)
  /-- "path_count: level {} exceeds the i128 fast path" -/
  | pathCountLevel (level : ℕ)
  /-- "path_count: i128 overflow multiplying A-path × B-path" -/
  | pathMulOverflow
  /-- "path_count: i128 overflow accumulating into exit bucket" -/
  | pathAddOverflow
  /-- "path_count: i128 overflow summing exit contributions" -/
  | pathSumOverflow
  /-- "leaf nodes have fixed sentinel NodeIds" -/
  | leafNotSentinel
  /-- A slice or vector was indexed out of range. -/
  | indexOutOfBounds
  /-- `1 - v` on unsigned words with `v > 1`. -/
  | subtractOverflow
  /-- A debug assertion failed. -/
  | debugAssert (failed : DebugAssert)
  /-- The recursion went deeper than the bound it was given. The code has no such
  bound; it is shown that the one used here is never reached. -/
  | fuelExhausted
  deriving DecidableEq, Repr

/-- A user-facing diagram: the root node and the value map of its exits. -/
structure Bdd where
  /-- The node. -/
  root : NodeId
  /-- The values of its exits. -/
  values : ReturnMapId
  deriving DecidableEq, Repr

/-- Pairs of exits of two operands: entry `k` is what exit `k` of their product stands for. -/
abbrev PairProductMap := List (ℕ × ℕ)

/-- A memoized product. -/
structure PairProductMemo where
  /-- The product node. -/
  node : NodeId
  /-- What its exits stand for. -/
  pairMap : PairProductMap
  deriving DecidableEq, Repr

/-- A call of `reduce` or of `reduce_inner` with its arguments. -/
inductive ReduceCall where
  /-- `reduce` was entered. -/
  | reduce (node : NodeId) (red : List ℕ) (newNumExits : ℕ)
  /-- `reduce_inner` was entered. -/
  | reduceInner (node : NodeId) (red : List ℕ) (newNumExits : ℕ)
  deriving DecidableEq, Repr

/-- What is observed of an execution or varied in it. The code has no such data: it
runs with both switches on, and nothing reads the trace. -/
structure Probe where
  /-- Memo tables are consulted and filled. -/
  memo : Bool := true
  /-- Shortcuts past a recursion are taken. -/
  shortcuts : Bool := true
  /-- The calls of `reduce` and `reduce_inner` so far, newest first. -/
  trace : List ReduceCall := []
  deriving DecidableEq, Repr

/-- The aggregate of the stores and tables. -/
structure Manager where
  /-- The nodes. -/
  nodes : NodeStore
  /-- The return maps. -/
  returnMaps : ReturnMapStore
  /-- The level of every root. -/
  level : ℕ
  /-- The constant node of each level up to `level`, once it exists. -/
  noDistinctionTable : List (Option NodeId)
  /-- Memo of `pair_product`, looked up under both orders of the key. -/
  pairProductCache : Table (NodeId × NodeId) PairProductMemo
  /-- Memo of `reduce`. -/
  reduceCache : Table (NodeId × ReturnMapId) NodeId
  /-- Memo of `compute_paths`. -/
  pathCounts : Table NodeId (List ℕ)
  /-- The return map `[0]`. -/
  rmSingleton0 : ReturnMapId
  /-- The return map `[1]`. -/
  rmSingleton1 : ReturnMapId
  /-- The return map `[0, 1]`. -/
  rmIdentity2 : ReturnMapId
  /-- Observation of the execution. -/
  probe : Probe

/-- Programs over a manager. -/
abbrev ManagerM := EStateM Panic Manager

section Checks

variable {m : Type → Type} [Monad m] [MonadExceptOf Panic m]

/-- Checked indexing `xs[i]`. -/
def index {α : Type} (xs : List α) (i : ℕ) : m α :=
  match xs[i]? with
  | some x => pure x
  | none => throw .indexOutOfBounds

/-- `assert!` with the panic it ends in. -/
def assert (condition : Bool) (panic : Panic) : m Unit :=
  if condition then pure () else throw panic

/-- `debug_assert!`. -/
def debugAssert (condition : Bool) (failed : DebugAssert) : m Unit :=
  assert condition (.debugAssert failed)

/-- Indexing in range does not panic. -/
theorem index_of_some {α : Type} {xs : List α} {i : ℕ} {x : α} (h : xs[i]? = some x) :
    (index xs i : m α) = pure x := by
  simp only [index, h]

/-- An assertion that holds does nothing. -/
theorem assert_of_true {condition : Bool} {panic : Panic} (h : condition = true) :
    (assert condition panic : m Unit) = pure () := if_pos h

/-- An assertion that fails panics. -/
theorem assert_of_false {condition : Bool} {panic : Panic} (h : condition = false) :
    (assert condition panic : m Unit) = throw panic := by rw [assert, h]; rfl

/-- A debug assertion that holds does nothing. -/
theorem debugAssert_of_true {condition : Bool} {failed : DebugAssert} (h : condition = true) :
    (debugAssert condition failed : m Unit) = pure () := if_pos h

end Checks

/-- Read something of the manager. -/
def reads {α : Type} (f : Manager → α) : ManagerM α := fun m => .ok (f m) m

/-- What is read is handed on. -/
theorem reads_bind_apply {α β : Type} (f : Manager → α) (g : α → ManagerM β) (m : Manager) :
    (reads f >>= g) m = g (f m) m := rfl

/-- The record of a node. -/
def record (id : NodeId) : ManagerM NodeRecord := do
  index (← reads (·.nodes.records)) id.raw

/-- The body of a return map. -/
def body (id : ReturnMapId) : ManagerM (List ℕ) := do
  index (← reads (·.returnMaps.bodies)) id.raw

/-- Hash-cons a return-map body. -/
def internMap (body : List ℕ) : ManagerM ReturnMapId := fun m =>
  .ok (m.returnMaps.intern body).1 { m with returnMaps := (m.returnMaps.intern body).2 }

/-- The identity return map `[0, 1, ..., n - 1]`. -/
def identity (n : ℕ) : ManagerM ReturnMapId := internMap (List.range n)

/-- Hash-cons an internal node. -/
def internInternal (level numExits : ℕ) (aConn : Connection) (bConns : List Connection) :
    ManagerM NodeId := do
  debugAssert (decide (1 ≤ level)) .internalLevel
  debugAssert (decide (1 ≤ numExits)) .internalExits
  debugAssert (!bConns.isEmpty) .internalBConns
  fun m =>
    .ok (m.nodes.internInternal level numExits aConn bConns).1
      { m with nodes := (m.nodes.internInternal level numExits aConn bConns).2 }

namespace Manager

/-- The return maps every manager starts with: `[0]`, `[1]` and `[0, 1]`. -/
def newReturnMaps : ReturnMapStore :=
  (((ReturnMapStore.new.intern [0]).2.intern [1]).2.intern (List.range 2)).2

/-- The manager that `new` returns. -/
def fresh (level : ℕ) : Manager where
  nodes := .new
  returnMaps := newReturnMaps
  level := level
  noDistinctionTable := List.replicate (level + 1) none
  pairProductCache := .empty
  reduceCache := .empty
  pathCounts := .empty
  rmSingleton0 := (ReturnMapStore.new.intern [0]).1
  rmSingleton1 := ((ReturnMapStore.new.intern [0]).2.intern [1]).1
  rmIdentity2 := (((ReturnMapStore.new.intern [0]).2.intern [1]).2.intern (List.range 2)).1
  probe := {}

/-- `Manager::new`: a manager for functions of `2 ^ level` variables. -/
def new (level : ℕ) : Except Panic Manager := do
  assert (decide (1 ≤ level)) .levelTooSmall
  assert (decide (level ≤ 30)) .levelTooLarge
  return fresh level

/-- Total addressable variables. -/
def totalVars (m : Manager) : ℕ := 2 ^ m.level

/-- Number of nodes in the store. -/
def nodeCount (m : Manager) : ℕ := m.nodes.count

/-- Number of return maps in the store. -/
def returnMapCount (m : Manager) : ℕ := m.returnMaps.count

/-- The bound on the depth of a recursion over nodes: one call for each level. -/
def depth (m : Manager) : ℕ := m.level + 1

/-- The bound on the depth exceeds every level. -/
theorem lt_depth {m : Manager} {k : ℕ} (hk : k ≤ m.level) : k < m.depth := Nat.lt_succ_of_le hk

end Manager

/-- The entry of the table of constant nodes. -/
def lookupNoDistinction (k : ℕ) (m : Manager) : Option NodeId := m.noDistinctionTable[k]?.join

/-- Fill an entry of the table of constant nodes. -/
def recordNoDistinction (k : ℕ) (id : NodeId) (m : Manager) : Manager :=
  { m with noDistinctionTable := m.noDistinctionTable.set k (some id) }

/-- Whether the memo tables are in use. -/
def memoOn (m : Manager) : Bool := m.probe.memo

/-- Whether shortcuts are taken. -/
def shortcutsOn (m : Manager) : Bool := m.probe.shortcuts

/-- `no_distinction`: the level-`k` node of the constant functions. -/
def noDistinction : ℕ → ManagerM NodeId
  | 0 => return .dontCare
  | k + 1 => do
    assert (decide (k + 1 < (← reads (·.noDistinctionTable.length)))) .indexOutOfBounds
    memoized memoOn (lookupNoDistinction (k + 1)) (recordNoDistinction (k + 1)) do
      let child ← noDistinction k
      let map ← reads (·.rmSingleton0)
      internInternal (k + 1) 1 ⟨child, map⟩ [⟨child, map⟩]

/-- `mk_true`: the constant true. -/
def mkTrue : ManagerM Bdd := do
  let root ← noDistinction (← reads (·.level))
  let values ← reads (·.rmSingleton1)
  return ⟨root, values⟩

/-- `mk_false`: the constant false. -/
def mkFalse : ManagerM Bdd := do
  let root ← noDistinction (← reads (·.level))
  let values ← reads (·.rmSingleton0)
  return ⟨root, values⟩

/-- `mk_distinction`: the level-`k` node of the function `x_i`. -/
def mkDistinction : ℕ → ℕ → ManagerM NodeId
  | 0, i => do
    debugAssert (i == 0) .distinctionIndex
    return .fork
  | level + 1, i => do
    let half := 2 ^ level
    if i < half then
      -- `i` falls in the range of the A-connection.
      let aTarget ← mkDistinction level i
      let idMap ← reads (·.rmIdentity2)
      let nd ← noDistinction level
      let map0 ← reads (·.rmSingleton0)
      let map1 ← reads (·.rmSingleton1)
      internInternal (level + 1) 2 ⟨aTarget, idMap⟩ [⟨nd, map0⟩, ⟨nd, map1⟩]
    else
      -- `i` falls in the range of the B-connection; the high bit is masked off.
      let nd ← noDistinction level
      let id1 ← reads (·.rmSingleton0)
      let bTarget ← mkDistinction level (i ^^^ half)
      let id2 ← reads (·.rmIdentity2)
      internInternal (level + 1) 2 ⟨nd, id1⟩ [⟨bTarget, id2⟩]

/-- `mk_proj`: the variable `x_i`. -/
def mkProj (varIndex : ℕ) : ManagerM Bdd := do
  let total ← reads Manager.totalVars
  assert (decide (varIndex < total)) (.varIndexOutOfRange varIndex total)
  let root ← mkDistinction (← reads (·.level)) varIndex
  let values ← reads (·.rmIdentity2)
  return ⟨root, values⟩

namespace Manager

/-- `eq`: equality of diagrams is equality of their indices. -/
def eq (_ : Manager) (f g : Bdd) : Bool := decide (f = g)

/-- `evaluate_node`: the exit a node takes on an assignment. -/
def evaluateNode (m : Manager) : ℕ → NodeId → List Bool → Except Panic ℕ
  | 0, _, _ => throw .fuelExhausted
  | fuel + 1, node, assignment => do
    match ← index m.nodes.records node.raw with
    | .dontCare =>
      debugAssert (assignment.length == 1) .evaluateLength
      return 0
    | .fork =>
      debugAssert (assignment.length == 1) .evaluateLength
      if ← index assignment 0 then return 1 else return 0
    | .internal level _ aConn bConns =>
      let n := 2 ^ level
      debugAssert (assignment.length == n) .evaluateLength
      let half := n / 2
      let left := assignment.take half
      let right := assignment.drop half
      let aExit ← m.evaluateNode fuel aConn.target left
      -- The return map of the A-connection picks a B-connection.
      let aMap ← index m.returnMaps.bodies aConn.returnMap.raw
      let bIdx ← index aMap aExit
      let b ← index bConns bIdx
      let bExit ← m.evaluateNode fuel b.target right
      let bMap ← index m.returnMaps.bodies b.returnMap.raw
      index bMap bExit

/-- `evaluate`: the value of a diagram on an assignment. -/
def evaluate (m : Manager) (bdd : Bdd) (assignment : List Bool) : Except Panic Bool := do
  assert (assignment.length % 2 ^ 32 == m.totalVars) .assignmentLength
  let exit ← m.evaluateNode m.depth bdd.root assignment
  let values ← index m.returnMaps.bodies bdd.values.raw
  let v ← index values exit
  return v != 0

/-- `walk`: add the nodes reachable from `id` to those seen. -/
def walk (m : Manager) : ℕ → NodeId → List NodeId → Except Panic (List NodeId)
  | 0, _, _ => throw .fuelExhausted
  | fuel + 1, id, seen =>
    if id ∈ seen then return seen
    else do
      match ← index m.nodes.records id.raw with
      | .internal _ _ aConn bConns =>
        let seen ← m.walk fuel aConn.target (id :: seen)
        bConns.foldlM (fun seen b => m.walk fuel b.target seen) seen
      | _ => return id :: seen

/-- `reachable_node_count`: the number of nodes reachable from the root. -/
def reachableNodeCount (m : Manager) (bdd : Bdd) : Except Panic ℕ := do
  let seen ← m.walk m.depth bdd.root []
  return seen.length

/-- The edges that leave a node: its A-connection and its B-connections. -/
def edges (m : Manager) (id : NodeId) : Except Panic ℕ := do
  match ← index m.nodes.records id.raw with
  | .internal _ _ _ bConns => return 1 + bConns.length
  | _ => return 0

/-- `reachable_edge_count`: the number of edges among the nodes reachable from the root. -/
def reachableEdgeCount (m : Manager) (bdd : Bdd) : Except Panic ℕ := do
  let seen ← m.walk m.depth bdd.root []
  return (← seen.mapM m.edges).sum

end Manager

end Cflobdd
