import Cflobdd.Engine.Manager
import Cflobdd.Engine.Reduce

/-!
# Products and pointwise operations

`pair_product` builds the node whose exits are the pairs of exits that two nodes
take together. `apply` maps these pairs through a truth table and reduces the
product to the distinct results. `not` only flips the value map.
-/

namespace Cflobdd

open FirstVisit Growing

/-- A binary operation as a table of words: entry `op[a][b]` is its value. -/
abbrev BoolOp := Vector (Vector ℕ 2) 2

namespace BoolOp

/-- `AND_OP` -/
def and : BoolOp := #v[#v[0, 0], #v[0, 1]]

/-- `OR_OP` -/
def or : BoolOp := #v[#v[0, 1], #v[1, 1]]

/-- `XOR_OP` -/
def xor : BoolOp := #v[#v[0, 1], #v[1, 0]]

/-- `IFF_OP` -/
def iff : BoolOp := #v[#v[1, 0], #v[0, 1]]

/-- `IMPLIES_OP` -/
def implies : BoolOp := #v[#v[1, 1], #v[0, 1]]

/-- `NAND_OP` -/
def nand : BoolOp := #v[#v[1, 1], #v[1, 0]]

/-- `NOR_OP` -/
def nor : BoolOp := #v[#v[1, 0], #v[0, 0]]

end BoolOp

/-- The lookup of a product: under its key, or under the flipped key with the pairs flipped. -/
def lookupPairProduct (n1 n2 : NodeId) (m : Manager) : Option (NodeId × PairProductMap) :=
  match m.pairProductCache.get? (n1, n2) with
  | some memo => some (memo.node, memo.pairMap)
  | none =>
    match m.pairProductCache.get? (n2, n1) with
    | some memo => some (memo.node, memo.pairMap.map Prod.swap)
    | none => none

/-- Memoize a product under its key. -/
def recordPairProduct (n1 n2 : NodeId) (result : NodeId × PairProductMap) (m : Manager) :
    Manager :=
  { m with pairProductCache := m.pairProductCache.insert (n1, n2) ⟨result.1, result.2⟩ }

/-- The loop variables of the cross product of the B-connections: the connections
made, and the pairs of parent exits met, with the table that finds them again. -/
structure CrossState where
  /-- `new_b_conns` -/
  newBConns : List Connection
  /-- `pair_map` and `exit_dedup` -/
  exits : Dedup (ℕ × ℕ)

/-- The exit of the parent for one exit of the product of two B-targets: translate
the pair through the two return maps and look it up among the pairs met. -/
def crossExit (b1Map b2Map : List ℕ) (state : Dedup (ℕ × ℕ) × List ℕ) (c : ℕ × ℕ) :
    ManagerM (Dedup (ℕ × ℕ) × List ℕ) := do
  let parentExit1 ← index b1Map c.1
  let parentExit2 ← index b2Map c.2
  let (pos, exits) := state.1.position (parentExit1, parentExit2)
  return (exits, state.2 ++ [pos])

/-- One pair of B-connections: the B-connection of the product. -/
def crossStep (pairProduct : NodeId → NodeId → ManagerM (NodeId × PairProductMap))
    (b1 b2 : List Connection) (state : CrossState) (bIdx : ℕ × ℕ) : ManagerM CrossState := do
  let b1c ← index b1 bIdx.1
  let b2c ← index b2 bIdx.2
  let (bNode, bPairMap) ← pairProduct b1c.target b2c.target
  let b1Map ← body b1c.returnMap
  let b2Map ← body b2c.returnMap
  let (exits, bReturnMap) ← bPairMap.foldlM (crossExit b1Map b2Map) (state.exits, [])
  let bReturnId ← internMap bReturnMap
  return ⟨state.newBConns ++ [⟨bNode, bReturnId⟩], exits⟩

/-- The cross product of two internal nodes of the same level. -/
def crossProduct (pairProduct : NodeId → NodeId → ManagerM (NodeId × PairProductMap))
    (level : ℕ) (a1 : Connection) (b1 : List Connection) (a2 : Connection)
    (b2 : List Connection) : ManagerM (NodeId × PairProductMap) := do
  let (aNode, aPairMap) ← pairProduct a1.target a2.target
  let aReturnMap ← identity aPairMap.length
  let a1Map ← body a1.returnMap
  let a2Map ← body a2.returnMap
  debugAssert (isIdentity a1Map) .pairProductAMap
  debugAssert (isIdentity a2Map) .pairProductAMap
  let state ← aPairMap.foldlM (crossStep pairProduct b1 b2) ⟨[], .empty⟩
  let result ← internInternal level state.exits.seen.length ⟨aNode, aReturnMap⟩ state.newBConns
  return (result, state.exits.seen)

/-- `pair_product_uncached`, with the recursive calls as a parameter. -/
def pairProductUncached (pairProduct : NodeId → NodeId → ManagerM (NodeId × PairProductMap))
    (n1 n2 : NodeId) : ManagerM (NodeId × PairProductMap) := do
  let r1 ← record n1
  let r2 ← record n2
  match r1, r2 with
  | .dontCare, .dontCare => return (.dontCare, [(0, 0)])
  | .fork, .fork => return (.fork, [(0, 0), (1, 1)])
  | .fork, .dontCare => return (.fork, [(0, 0), (1, 0)])
  | .dontCare, .fork => return (.fork, [(0, 0), (0, 1)])
  | .internal l1 ne1 a1 b1, .internal l2 ne2 a2 b2 =>
    debugAssert (l1 == l2) .pairProductLevels
    if ← reads shortcutsOn then
      -- The product with the constant node is the other node.
      let nd ← noDistinction l1
      if n1 = nd ∧ n2 = nd then return (n1, [(0, 0)])
      else if n1 = nd then return (n2, (List.range ne2).map fun k => (0, k))
      else if n2 = nd then return (n1, (List.range ne1).map fun k => (k, 0))
      else crossProduct pairProduct l1 a1 b1 a2 b2
    else crossProduct pairProduct l1 a1 b1 a2 b2
  | r1, r2 => throw (.mismatchedLevels r1.level r2.level)

/-- `pair_product`: the memoized product of two nodes. -/
def pairProduct : ℕ → NodeId → NodeId → ManagerM (NodeId × PairProductMap)
  | 0, _, _ => throw .fuelExhausted
  | fuel + 1, n1, n2 =>
    memoized memoOn (lookupPairProduct n1 n2) (recordPairProduct n1 n2)
      (pairProductUncached (pairProduct fuel) n1 n2)

/-- One pair of exits in `apply`: the position of its value among the values met. -/
def applyStep (op : BoolOp) (fVals gVals : List ℕ) (state : Slots × List ℕ) (pair : ℕ × ℕ) :
    ManagerM (Slots × List ℕ) := do
  let v1 ← index fVals pair.1
  let v2 ← index gVals pair.2
  debugAssert (decide (v1 < 2 ∧ v2 < 2)) .boolOperands
  let row ← index op.toList v1
  let val ← index row.toList v2
  match state.1.position val with
  | some (pos, newVals) => return (newVals, state.2 ++ [pos])
  | none => throw .indexOutOfBounds

/-- `apply`: a binary operation on the values of two diagrams. -/
def apply (f g : Bdd) (op : BoolOp) : ManagerM Bdd := do
  let depth ← reads Manager.depth
  let (combined, pairMap) ← pairProduct depth f.root g.root
  let fVals ← body f.values
  let gVals ← body g.values
  let (newVals, reduction) ← pairMap.foldlM (applyStep op fVals gVals) (.new 2, [])
  let newValuesId ← internMap newVals.output
  let reduced ← reduce depth combined reduction newVals.output.length
  return ⟨reduced, newValuesId⟩

/-- `and` -/
def and (f g : Bdd) : ManagerM Bdd := apply f g .and

/-- `or` -/
def or (f g : Bdd) : ManagerM Bdd := apply f g .or

/-- `xor` -/
def xor (f g : Bdd) : ManagerM Bdd := apply f g .xor

/-- `iff` -/
def iff (f g : Bdd) : ManagerM Bdd := apply f g .iff

/-- `implies` -/
def implies (f g : Bdd) : ManagerM Bdd := apply f g .implies

/-- `nand` -/
def nand (f g : Bdd) : ManagerM Bdd := apply f g .nand

/-- `nor` -/
def nor (f g : Bdd) : ManagerM Bdd := apply f g .nor

/-- The flipped value `1 - v` of an unsigned word. -/
def flipValue (flipped : List ℕ) (v : ℕ) : ManagerM (List ℕ) :=
  if v ≤ 1 then return flipped ++ [1 - v] else throw .subtractOverflow

/-- `not`: the same node with the flipped value map. -/
def not (f : Bdd) : ManagerM Bdd := do
  let values ← body f.values
  let flipped ← values.foldlM flipValue []
  let newId ← internMap flipped
  return ⟨f.root, newId⟩

end Cflobdd
