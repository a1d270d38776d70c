import Cflobdd.Partitions

/-!
# An algebra of nodes

Products and restrictions of nodes can be nested. What a nest of them computes is a
partition, by the operations of the lattice of partitions, and two nests give one node
exactly if their partitions are equal. So the laws of a semilattice hold for nodes as
equalities of indices, and restriction distributes over them.
-/

namespace Cflobdd

open FirstVisit Growing

/-- Nested products and restrictions of nodes of one level. -/
inductive NodeExpr where
  /-- A stored node. -/
  | node (n : NodeId)
  /-- The node of the constant functions. -/
  | noDistinction
  | product (e e' : NodeExpr)
  | restrict (e : NodeExpr) (i : ℕ) (v : Bool)

namespace NodeExpr

/-- The program that computes a node of level `k`, from the inside out. -/
def compute (depth k : ℕ) : NodeExpr → ManagerM NodeId
  | node n => return n
  | noDistinction => Cflobdd.noDistinction k
  | product e e' => do
    let n1 ← e.compute depth k
    let n2 ← e'.compute depth k
    productNode depth n1 n2
  | restrict e i v => do
    let n ← e.compute depth k
    let (n', _) ← restrictNode depth n i v []
    return n'

/-- The partition that is computed. -/
def kernel (m : Manager) (k : ℕ) : NodeExpr → Setoid (Asg k)
  | node n => m.kernel k n
  | noDistinction => ⊤
  | product e e' => e.kernel m k ⊓ e'.kernel m k
  | restrict e i v => (e.kernel m k).comap fun a => a.set i v

/-- The nodes are stored nodes of level `k`. -/
def Over (m : Manager) (k : ℕ) : NodeExpr → Prop
  | node n => n ∈ m.nodesAt k
  | noDistinction => True
  | product e e' => e.Over m k ∧ e'.Over m k
  | restrict e _ _ => e.Over m k

end NodeExpr

section Compute

variable {m : Manager} {k fuel : ℕ} {n : NodeId} {K K' : Setoid (Asg k)} {p : ManagerM NodeId}

/-- A stored node is made by doing nothing. -/
theorem makes_pure (h : Splits m k n K) : Makes m k (pure n) K :=
  fun _ hle ht => Runs.pure ht (h.mono hle)

/-- The constant node has the coarsest partition. -/
theorem makes_noDistinction (hk : k ≤ m.level) : Makes m k (noDistinction k) ⊤ := by
  intro t hle ht
  refine (noDistinction_returns ht (by rwa [hle.level])).mono fun n t' _ _ hn => ?_
  have hker : Setoid.ker (fun _ : Asg k => ()) = ⊤ := by
    ext a b
    exact iff_of_true rfl trivial
  rw [← hker]
  exact hn.splits

/-- The node that one program returns is passed to the next. -/
theorem Makes.bind {q : NodeId → ManagerM NodeId} (hp : Makes m k p K)
    (hq : ∀ t n, m ≤ t → Splits t k n K → Makes t k (q n) K') : Makes m k (p >>= q) K' := by
  intro t hle ht
  refine Runs.bind (hp t hle ht) ?_
  intro n t' hle' ht' hn
  exact hq t' n (hle.trans hle') hn t' le_rfl ht'

/-- `restrict_node` pulls a partition back along the assignment of the variable. -/
theorem makes_restrictNode (hfuel : k < fuel) (h : Splits m k n K) (i : ℕ) (v : Bool) :
    Makes m k (restrictNode fuel n i v [] >>= fun result => pure result.1)
      (K.comap fun a => a.set i v) := by
  intro t hle ht
  obtain ⟨g, hg, rfl⟩ := h
  refine Runs.bind (restrictNode_returns hfuel i v ht (hg.mono hle)) ?_
  intro result t' _ ht' hrestriction
  exact Runs.pure ht' hrestriction.node.splits

/-- An expression computes the node of its partition. -/
theorem makes_compute (hm : m.Inv) (hk : k ≤ m.level) {e : NodeExpr} (he : e.Over m k) :
    Makes m k (e.compute m.depth k) (e.kernel m k) := by
  have hdepth := Manager.lt_depth hk
  induction e with
  | node n => exact makes_pure (hm.splits he).2
  | noDistinction => exact makes_noDistinction hk
  | product e e' ih ih' =>
    refine (ih he.1).bind fun t n hle hn => ?_
    refine Makes.bind (fun u hu => ih' he.2 u (hle.trans hu)) fun u n' hle' hn' => ?_
    exact makes_productNode hdepth (hn.mono hle') hn'
  | restrict e i v ih => exact (ih he).bind fun t n _ hn => makes_restrictNode hdepth hn i v

end Compute

section Laws

/-- The laws of products and restrictions, as pairs of expressions over `x`, `y` and `z`. -/
inductive NodeLaw (k : ℕ) (x y z : NodeExpr) : NodeExpr → NodeExpr → Prop
  | product_self : NodeLaw k x y z (.product x x) x
  | product_comm : NodeLaw k x y z (.product x y) (.product y x)
  | product_assoc :
    NodeLaw k x y z (.product (.product x y) z) (.product x (.product y z))
  | product_noDistinction : NodeLaw k x y z (.product x .noDistinction) x
  | restrict_product (i : ℕ) (v : Bool) : NodeLaw k x y z (.restrict (.product x y) i v)
      (.product (.restrict x i v) (.restrict y i v))
  | restrict_noDistinction (i : ℕ) (v : Bool) :
    NodeLaw k x y z (.restrict .noDistinction i v) .noDistinction
  | restrict_restrict (i : ℕ) (v w : Bool) (hi : i < 2 ^ k) :
    NodeLaw k x y z (.restrict (.restrict x i v) i w) (.restrict x i v)
  | restrict_comm (i j : ℕ) (v w : Bool) (hi : i < 2 ^ k) (hj : j < 2 ^ k) (hij : i ≠ j) :
    NodeLaw k x y z (.restrict (.restrict x i v) j w) (.restrict (.restrict x j w) i v)

variable {m : Manager} {k : ℕ} {x y z e e' : NodeExpr}

/-- Both sides of a law are expressions over the same nodes. -/
theorem NodeLaw.sides_over (h : NodeLaw k x y z e e') (hx : x.Over m k) (hy : y.Over m k)
    (hz : z.Over m k) : e.Over m k ∧ e'.Over m k := by
  cases h <;> simp [NodeExpr.Over, hx, hy, hz]

/-- Both sides of a law have the same partition. -/
theorem NodeLaw.kernel_eq (h : NodeLaw k x y z e e') : e.kernel m k = e'.kernel m k := by
  cases h with
  | product_self => exact inf_idem _
  | product_comm => exact inf_comm _ _
  | product_assoc => exact inf_assoc _ _ _
  | product_noDistinction => exact inf_top_eq _
  | restrict_product i v => rfl
  | restrict_noDistinction i v => rfl
  | restrict_restrict i v w hi =>
    ext a b
    change x.kernel m k ((a.set i w).set i v) ((b.set i w).set i v) ↔
      x.kernel m k (a.set i v) (b.set i v)
    rw [Asg.set_set a hi, Asg.set_set b hi]
  | restrict_comm i j v w hi hj hij =>
    ext a b
    change x.kernel m k ((a.set j w).set i v) ((b.set j w).set i v) ↔
      x.kernel m k ((a.set i v).set j w) ((b.set i v).set j w)
    rw [Asg.set_comm a hi hj hij, Asg.set_comm b hi hj hij]

end Laws

section Sessions

variable {L : ℕ} {s : Session}

/-- **Nodes are equal exactly if their partitions are:** two nests of products and
restrictions over stored nodes of one level give one node, run one after the other, exactly
if the lattice of partitions makes them equal. -/
theorem nodeExpr_eq_iff (hs : AfterScript L s) {k : ℕ} (hk : k ≤ L) {e e' : NodeExpr}
    (he : e.Over s.manager k) (he' : e'.Over s.manager k) :
    ∃ n n' m₁ m₂, e.compute s.manager.depth k s.manager = .ok n m₁ ∧
      e'.compute s.manager.depth k m₁ = .ok n' m₂ ∧
      (n = n' ↔ e.kernel s.manager k = e'.kernel s.manager k) := by
  have hm := hs.valid.inv
  have hk' : k ≤ s.manager.level := by rwa [hs.valid.level]
  obtain ⟨n, m₁, hok, hle, hm₁, hn, -⟩ := makes_compute hm hk' he _ le_rfl hm
  obtain ⟨n', m₂, hok', hle', -, hn', -⟩ := makes_compute hm hk' he' m₁ hle hm₁
  refine ⟨n, n', m₁, m₂, hok, hok', ?_, ?_⟩
  · rintro rfl
    exact (hn.mono hle').partition_unique hn'
  · intro heq
    rw [← heq] at hn'
    exact (hn.mono hle').unique hn'

theorem nodeExpr_eq_iff_sample :
    ∃ n n' m₁ m₂, (NodeExpr.product (.node ⟨2⟩) (.node ⟨3⟩)).compute sampleSession.manager.depth 1
        sampleSession.manager = .ok n m₁ ∧
      (NodeExpr.node ⟨2⟩).compute sampleSession.manager.depth 1 m₁ = .ok n' m₂ ∧
      (n = n' ↔ (NodeExpr.product (.node ⟨2⟩) (.node ⟨3⟩)).kernel sampleSession.manager 1 =
        (NodeExpr.node ⟨2⟩).kernel sampleSession.manager 1) := by
  have hvar : (⟨2⟩ : NodeId) ∈ sampleSession.manager.nodesAt 1 :=
    ⟨_, sampleSession_records.1, rfl⟩
  have hconst : (⟨3⟩ : NodeId) ∈ sampleSession.manager.nodesAt 1 :=
    ⟨_, sampleSession_records.2, rfl⟩
  exact nodeExpr_eq_iff sampleSession_reachable.afterScript le_rfl ⟨hvar, hconst⟩ hvar

/-- **A semilattice of nodes:** both sides of every law over stored nodes of one level give
one node, whichever side is computed first. -/
theorem node_algebra (hs : AfterScript L s) {k : ℕ} (hk : k ≤ L) {x y z e e' : NodeExpr}
    (hx : x.Over s.manager k) (hy : y.Over s.manager k) (hz : z.Over s.manager k)
    (hlaw : NodeLaw k x y z e e') :
    SameResult (e.compute s.manager.depth k) (e'.compute s.manager.depth k) s.manager ∧
      SameResult (e'.compute s.manager.depth k) (e.compute s.manager.depth k) s.manager := by
  have hm := hs.valid.inv
  have hk' : k ≤ s.manager.level := by rwa [hs.valid.level]
  obtain ⟨he, he'⟩ := hlaw.sides_over hx hy hz
  have hmakes := makes_compute hm hk' he
  have hmakes' := makes_compute hm hk' he'
  rw [← hlaw.kernel_eq] at hmakes'
  exact ⟨(hmakes _ le_rfl hm).agree (fun t hle ht => hmakes' t hle ht)
      (fun _ _ _ hle hn => hn.mono hle) fun _ _ _ hn hn' => hn.unique hn',
    (hmakes' _ le_rfl hm).agree (fun t hle ht => hmakes t hle ht)
      (fun _ _ _ hle hn => hn.mono hle) fun _ _ _ hn hn' => hn.unique hn'⟩

theorem node_algebra_sample :
    SameResult
        ((NodeExpr.restrict (.product (.node ⟨2⟩) (.node ⟨3⟩)) 0 true).compute
          sampleSession.manager.depth 1)
        ((NodeExpr.product (.restrict (.node ⟨2⟩) 0 true) (.restrict (.node ⟨3⟩) 0 true)).compute
          sampleSession.manager.depth 1) sampleSession.manager ∧
      SameResult
        ((NodeExpr.product (.restrict (.node ⟨2⟩) 0 true) (.restrict (.node ⟨3⟩) 0 true)).compute
          sampleSession.manager.depth 1)
        ((NodeExpr.restrict (.product (.node ⟨2⟩) (.node ⟨3⟩)) 0 true).compute
          sampleSession.manager.depth 1) sampleSession.manager := by
  have hvar : (⟨2⟩ : NodeId) ∈ sampleSession.manager.nodesAt 1 :=
    ⟨_, sampleSession_records.1, rfl⟩
  have hconst : (⟨3⟩ : NodeId) ∈ sampleSession.manager.nodesAt 1 :=
    ⟨_, sampleSession_records.2, rfl⟩
  exact node_algebra (x := .node ⟨2⟩) (y := .node ⟨3⟩) (z := .node ⟨2⟩)
    sampleSession_reachable.afterScript le_rfl hvar hconst hvar (.restrict_product 0 true)

end Sessions

end Cflobdd
