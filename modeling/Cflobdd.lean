import Cflobdd.FirstVisit.FirstSeen
import Cflobdd.FirstVisit.Dedup
import Cflobdd.FirstVisit.Enumerated
import Cflobdd.FirstVisit.Counts
import Cflobdd.FirstVisit.Order
import Cflobdd.Growing.Runs
import Cflobdd.Growing.Outcomes
import Cflobdd.Growing.Additions
import Cflobdd.Growing.Costs
import Cflobdd.Cylinder.Quantifiers
import Cflobdd.Cylinder.Volume
import Cflobdd.Cylinder.Weight
import Cflobdd.Hashing.HashTable
import Cflobdd.Hashing.Index
import Cflobdd.Hashing.Interner
import Cflobdd.Traversal.DepthFirst
import Cflobdd.Traversal.Bisimulation
import Cflobdd.Assignments
import Cflobdd.Engine.Store
import Cflobdd.Engine.Manager
import Cflobdd.Engine.Reduce
import Cflobdd.Engine.PairProduct
import Cflobdd.Engine.Restrict
import Cflobdd.Engine.PathCount
import Cflobdd.Engine.WordStore
import Cflobdd.Engine.WordDedup
import Cflobdd.Represents
import Cflobdd.Evaluation
import Cflobdd.Invariant
import Cflobdd.Primitives
import Cflobdd.Constants
import Cflobdd.Reduction
import Cflobdd.Product
import Cflobdd.Restriction
import Cflobdd.Counting
import Cflobdd.Session
import Cflobdd.Semantics
import Cflobdd.Algebra
import Cflobdd.WellFormed
import Cflobdd.ExitOrder
import Cflobdd.Memo
import Cflobdd.CountExact
import Cflobdd.Isomorphism
import Cflobdd.NoPanic
import Cflobdd.NodeSpecs
import Cflobdd.Shortcuts
import Cflobdd.Scripts
import Cflobdd.Recovery
import Cflobdd.Computes
import Cflobdd.RestrictLaws
import Cflobdd.Repetition
import Cflobdd.HashConsing
import Cflobdd.Aliasing
import Cflobdd.StoreRefinement
import Cflobdd.DedupAgreement
import Cflobdd.Partitions
import Cflobdd.NodeAlgebra
import Cflobdd.Corpus
import Cflobdd.Shapes
import Cflobdd.Families
import Cflobdd.VariableOrder
import Cflobdd.ProductSize
import Cflobdd.Observers
import Cflobdd.Foreign
import Cflobdd.Overflow
import Cflobdd.Measure
import Cflobdd.Footprint
import Cflobdd.Work
import Cflobdd.Attribution
import Cflobdd.Garbage
import Cflobdd.Reductions
import Cflobdd.Literals
import Cflobdd.Growth
import Cflobdd.Majority
