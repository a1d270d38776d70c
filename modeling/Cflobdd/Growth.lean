import Cflobdd.Growing.Costs
import Cflobdd.Literals
import Cflobdd.Work

/-!
# How far a script lets the store grow

Each call has a cost that is read off the graphs of the functions: a product costs the pairs
of vertices of its operands and the vertices of its result. Whether a call returns or panics,
it adds no more nodes than its cost, whatever the stores and the memo tables hold. So the
nodes that a script leaves behind are bounded by a sum that is computed without a manager.
-/

namespace Cflobdd

open FirstVisit Enumerated Growing Traversal

section Definitions

variable {L : ℕ}

/-- The number of vertices of the graph of a function. -/
def graphSize (F : Asg L → Bool) : ℕ := (shapes F).length

/-- The number of pairs of vertices of one level in the graphs of two functions. -/
def graphPairs (F G : Asg L → Bool) : ℕ :=
  (((shapes F).product (shapes G)).filter fun p => p.1.1 = p.2.1).length

/-- The product of two functions is made and reduced to the diagram of `H`. -/
def applyCost (F G H : Asg L → Bool) : ℕ := graphPairs F G + graphSize H + L

def connectiveCost (c : Connective) (F G : Asg L → Bool) : ℕ :=
  applyCost F G fun a => c.eval (F a) (G a)

def restrictCost (F : Asg L → Bool) (i : ℕ) (v : Bool) : ℕ :=
  graphSize (fun a => F (a.set i v)) + L

/-- Two restrictions are joined. -/
def quantifyCost (c : Connective) (F : Asg L → Bool) (i : ℕ) : ℕ :=
  restrictCost F i true + (restrictCost F i false +
    connectiveCost c (fun a => F (a.set i true)) fun a => F (a.set i false))

/-- Two restrictions are selected from and joined. The negation is free. -/
def composeCost (F : Asg L → Bool) (i : ℕ) (G : Asg L → Bool) : ℕ :=
  restrictCost F i true + (restrictCost F i false +
    (connectiveCost .and G (fun a => F (a.set i true)) +
      (connectiveCost .and (fun a => !G a) (fun a => F (a.set i false)) +
        connectiveCost .or (fun a => G a && F (a.set i true)) fun a =>
          !G a && F (a.set i false))))

/-- The function of the assignments of level `L` that a list of values determines. -/
def atLevel (L : ℕ) (f : List Bool → Bool) (a : Asg L) : Bool := f a.toList

/-- The number of nodes that a call may add. -/
def Call.cost (L : ℕ) : Call (List Bool → Bool) → ℕ
  | mkTrue => graphSize fun _ : Asg L => true
  | mkFalse => graphSize fun _ : Asg L => false
  | mkProj i => graphSize fun a : Asg L => a.get i
  | apply f g op => applyCost (atLevel L f) (atLevel L g) fun a => op.eval (f a.toList) (g a.toList)
  | connective c f g => connectiveCost c (atLevel L f) (atLevel L g)
  | not _ => 0
  | restrict f i v => restrictCost (atLevel L f) i v
  | compose f i g => composeCost (atLevel L f) i (atLevel L g)
  | existsVar f i => quantifyCost .or (atLevel L f) i
  | forallVar f i => quantifyCost .and (atLevel L f) i

/-- The number of nodes that a command may add. Queries add none. -/
def Command.cost (L : ℕ) (fs : List (List Bool → Bool)) : Command → ℕ
  | call c => ((c.resolve fs).map (Call.cost L)).getD 0
  | pathCount _ | evaluate _ _ | eq _ _ => 0

/-- The number of nodes that a script may add. -/
def Command.totalCost (L : ℕ) (fs : List (List Bool → Bool)) : List Command → ℕ
  | [] => 0
  | command :: script =>
    command.cost L fs + totalCost L (command.answer L fs).2 script

end Definitions

section Calls

variable {m m' : Manager} {L i : ℕ} {f g h : Bdd} {F G : Asg L → Bool}

/-- A node and its vertex are of one level. -/
theorem HasShape.levelOf_eq {n : NodeId} {s : Shape} (hn : HasShape m n s) : m.levelOf n = s.1 :=
  hn.1.levelOf_eq

/-- The pairs of nodes below two diagrams are the pairs of vertices of their graphs. -/
theorem Denotes.length_reachablePairs (hf : Denotes m L f F) (hg : Denotes m L g G)
    (hm : m.Inv) : (m.reachablePairs f.root g.root).length = graphPairs F G := by
  obtain ⟨φ, hφperm, hφ⟩ := hf.root.shapes_perm hm
  obtain ⟨ψ, hψperm, hψ⟩ := hg.root.shapes_perm hm
  have hproduct : ((m.reachable f.root).map φ).product ((m.reachable g.root).map ψ) =
      ((m.reachable f.root).product (m.reachable g.root)).map (Prod.map φ ψ) := by
    simp [List.product, List.flatMap_map, List.map_flatMap, Function.comp_def]
  rw [graphPairs, ← ((hφperm.product hψperm).filter _).length_eq, hproduct, List.filter_map,
    List.length_map, Manager.reachablePairs]
  congr 1
  refine List.filter_congr fun v hv => ?_
  obtain ⟨h1, h2⟩ := List.pair_mem_product.mp hv
  rw [(hφ v.1 h1).levelOf_eq, (hψ v.2 h2).levelOf_eq]
  rfl

/-- A diagram has as many nodes as its function has vertices. -/
theorem Denotes.length_reachable (hf : Denotes m L f F) (hm : m.Inv) :
    (m.reachable f.root).length = graphSize F :=
  (hf.root.counts_eq hm).1

/-- A program that makes no nodes on the way costs the graph of its result. -/
theorem costs_of_below {p : ManagerM Bdd} (hp : Returns p m fun h m' => Denotes m' L h F)
    (hbelow : MakesBelow (fun _ => False) Bdd.root p m m) :
    Costs Manager.nodeCount (graphSize F) p m := by
  obtain ⟨h, m', hok, -, hm', hh, -⟩ := hp
  obtain ⟨r, hr, -⟩ := hh.root.record
  have hcount := (hbelow.of_ok hok).nodeCount_le_of (m'.reachable h.root) ([] : List Unit)
    (R := fun _ _ => False) (hm'.reachable_of_root hr) (fun _ _ _ _ hG => hG.elim)
    fun _ _ _ hR => hR.elim
  rw [Costs, Within, Ends, hok]
  rwa [hh.length_reachable hm'] at hcount

/-- `apply` costs the pairs of vertices, the vertices of the result and the constant nodes. -/
theorem apply_costs (hm : m.Inv) (hL : m.level = L) (hf : Denotes m L f F)
    (hg : Denotes m L g G) (op : BoolOp) :
    Costs Manager.nodeCount (applyCost F G fun a => op.eval (F a) (G a)) (apply f g op) m := by
  have hends := apply_nodeCount_le hm hL hf hg op
  rw [hf.length_reachablePairs hg hm] at hends
  unfold applyCost
  by_cases hop : ∀ a, op.entry (F a) (G a) < 2
  · obtain ⟨h, m', hok, -, hm', ⟨hh, -⟩, -⟩ := apply_found hm hL hf hg hop
    have hcount := hends.of_ok hok
    rw [hh.length_reachable hm'] at hcount
    rw [Costs, Within, Ends, hok]
    omega
  · push Not at hop
    obtain ⟨m', herror, -⟩ := apply_panics hm hL hf hg hop
    have hcount := hends.of_error herror
    rw [Costs, Within, Ends, herror]
    omega

/-- A named operation costs what `apply` does with its table. -/
theorem connective_costs (c : Connective) (hm : m.Inv) (hL : m.level = L)
    (hf : Denotes m L f F) (hg : Denotes m L g G) :
    Costs Manager.nodeCount (connectiveCost c F G) (c.exec f g) m := by
  have h := apply_costs hm hL hf hg c.op
  simp only [Connective.eval_op] at h
  rwa [c.exec_eq]

/-- The number of nodes depends on the nodes only. -/
theorem nodeCount_of_same (h : SameNodes m m') : m'.nodeCount = m.nodeCount := by
  rw [Manager.nodeCount, h]
  rfl

/-- A negation costs nothing. -/
theorem not_costs (f : Bdd) (m : Manager) : Costs Manager.nodeCount 0 (not f) m :=
  .free (not_within internMap_same f m) fun _ => nodeCount_of_same

/-- `restrict` costs at most the vertices of its result and the constant nodes. -/
theorem restrict_costs (hm : m.Inv) (hL : m.level = L) (hf : Denotes m L f F) (i : ℕ)
    (v : Bool) : Costs Manager.nodeCount (restrictCost F i v) (restrict f i v) m := by
  by_cases hi : i < 2 ^ L
  · obtain ⟨h, m', hok, -, hm', hh, -⟩ := restrict_returns hm hL hf hi v
    have hcount := (restrict_nodeCount_le hm hL hf i v).of_ok hok
    rw [hh.length_reachable hm'] at hcount
    rw [Costs, Within, Ends, hok, restrictCost]
    omega
  · exact .of_unchanged (restrict_outOfRange (by rwa [Manager.totalVars, hL]) v)

/-- A quantifier costs two restrictions and the operation that joins them. -/
theorem quantify_costs (c : Connective) (hm : m.Inv) (hL : m.level = L)
    (hf : Denotes m L f F) (i : ℕ) :
    Costs Manager.nodeCount (quantifyCost c F i) (do
      let t ← restrict f i true
      let fa ← restrict f i false
      c.exec t fa) m := by
  refine (restrict_costs hm hL hf i true).bind fun t m₁ hok₁ => ?_
  obtain ⟨hle₁, hm₁, hL₁, ht⟩ := restrict_of_ok hm hL hf hok₁
  refine (restrict_costs hm₁ hL₁ (hf.mono hle₁) i false).bind fun fa m₂ hok₂ => ?_
  obtain ⟨hle₂, hm₂, hL₂, hfa⟩ := restrict_of_ok hm₁ hL₁ (hf.mono hle₁) hok₂
  exact connective_costs c hm₂ hL₂ (ht.mono hle₂) hfa

/-- A substitution costs its two restrictions and the three operations that join them. -/
theorem compose_costs (hm : m.Inv) (hL : m.level = L) (hf : Denotes m L f F)
    (hg : Denotes m L g G) (i : ℕ) :
    Costs Manager.nodeCount (composeCost F i G) (compose f i g) m := by
  refine (restrict_costs hm hL hf i true).bind fun fTrue m₁ hok₁ => ?_
  obtain ⟨hle₁, hm₁, hL₁, ht⟩ := restrict_of_ok hm hL hf hok₁
  refine (restrict_costs hm₁ hL₁ (hf.mono hle₁) i false).bind fun fFalse m₂ hok₂ => ?_
  obtain ⟨hle₂, hm₂, hL₂, hfa⟩ := restrict_of_ok hm₁ hL₁ (hf.mono hle₁) hok₂
  have hg₂ := (hg.mono hle₁).mono hle₂
  refine (not_costs g m₂).free_bind fun notG m₃ hok₃ => ?_
  obtain ⟨hle₃, hm₃, hnot⟩ := (not_returns hm₂ hg₂).of_ok hok₃
  have hL₃ := hle₃.level.trans hL₂
  have ht₃ := (ht.mono hle₂).mono hle₃
  refine (connective_costs .and hm₃ hL₃ (hg₂.mono hle₃) ht₃).bind fun left m₄ hok₄ => ?_
  obtain ⟨hle₄, hm₄, hleft⟩ :=
    (Connective.and.returns hm₃ hL₃ (hg₂.mono hle₃) ht₃).of_ok hok₄
  have hL₄ := hle₄.level.trans hL₃
  have hfa₄ := (hfa.mono hle₃).mono hle₄
  refine (connective_costs .and hm₄ hL₄ (hnot.mono hle₄) hfa₄).bind fun right m₅ hok₅ => ?_
  obtain ⟨hle₅, hm₅, hright⟩ :=
    (Connective.and.returns hm₄ hL₄ (hnot.mono hle₄) hfa₄).of_ok hok₅
  exact connective_costs .or hm₅ (hle₅.level.trans hL₄) (hleft.mono hle₅) hright

end Calls

section Sessions

variable {L : ℕ} {s : Session}

/-- Every call costs at most what is computed for it from the functions. -/
theorem Session.Valid.call_costs (hs : s.Valid L) (call : Call Returned)
    (hargs : ∀ x ∈ call.args, x ∈ s.returned) :
    Costs Manager.nodeCount ((call.map Returned.function).cost L)
      (call.map Returned.bdd).exec s.manager := by
  obtain ⟨hm, hL, -, -, hreturned⟩ := hs
  have hdenotes : ∀ x ∈ call.args, Denotes s.manager L x.bdd (atLevel L x.function) :=
    fun x hx => hreturned x (hargs x hx)
  cases call with
  | mkTrue => exact costs_of_below (hL ▸ mkTrue_returns hm) (mkTrue_below _)
  | mkFalse => exact costs_of_below (hL ▸ mkFalse_returns hm) (mkFalse_below _)
  | mkProj i =>
    by_cases hi : i < s.manager.totalVars
    · subst hL
      exact costs_of_below (mkProj_returns hm hi) (mkProj_below i _)
    · exact .of_unchanged (mkProj_outOfRange hi)
  | apply f g op =>
    exact apply_costs hm hL (hdenotes f (.head _)) (hdenotes g (.tail _ (.head _))) op
  | connective c f g =>
    exact connective_costs c hm hL (hdenotes f (.head _)) (hdenotes g (.tail _ (.head _)))
  | not f => exact not_costs f.bdd s.manager
  | restrict f i v => exact restrict_costs hm hL (hdenotes f (.head _)) i v
  | compose f i g =>
    exact compose_costs hm hL (hdenotes f (.head _)) (hdenotes g (.tail _ (.head _))) i
  | existsVar f i => exact quantify_costs .or hm hL (hdenotes f (.head _)) i
  | forallVar f i => exact quantify_costs .and hm hL (hdenotes f (.head _)) i

/-- One command. -/
theorem Session.Valid.step_nodeCount_le (hs : s.Valid L) (command : Command) :
    (s.step command).2.manager.nodeCount ≤
      s.manager.nodeCount + command.cost L (s.returned.map Returned.function) := by
  unfold Session.step
  cases command with
  | call call =>
    unfold Command.cost
    dsimp only
    rw [Call.resolve_map]
    cases hcall : call.resolve s.returned with
    | none => exact Nat.le_add_right _ _
    | some call' =>
      have hcosts := hs.call_costs call' (Call.mem_of_resolve hcall)
      simp only [Option.map_some, Option.getD_some]
      cases hresult : (call'.map Returned.bdd).exec s.manager with
      | ok f m' => exact hcosts.le_of_ok hresult
      | error e m' => exact hcosts.le_of_error hresult
  | pathCount f =>
    dsimp only
    cases hf : s.returned[f]? with
    | none => exact Nat.le_add_right _ _
    | some f =>
      obtain ⟨r, hr, -⟩ := (hs.returned f (List.mem_of_getElem? hf)).root.record
      have hcosts := Costs.free (c := 0) (pathCount_same hs.inv hr) fun _ => nodeCount_of_same
      dsimp only
      cases hresult : pathCount f.bdd s.manager with
      | ok paths m' => exact hcosts.le_of_ok hresult
      | error e m' => exact hcosts.le_of_error hresult
  | evaluate f a =>
    dsimp only
    cases s.returned[f]? with
    | none => exact Nat.le_add_right _ _
    | some f =>
      dsimp only
      cases s.manager.evaluate f.bdd a <;> exact Nat.le_add_right _ _
  | eq f g =>
    dsimp only
    split <;> exact Nat.le_add_right _ _

/-- A script. -/
theorem Session.Valid.run_nodeCount_le (hs : s.Valid L) (script : List Command) :
    (s.run script).2.manager.nodeCount ≤
      s.manager.nodeCount + Command.totalCost L (s.returned.map Returned.function) script := by
  induction script generalizing s with
  | nil => exact Nat.le_add_right _ _
  | cons command script ih =>
    obtain ⟨-, hfunctions, hvalid⟩ := hs.step_simulates command
    have hstep := hs.step_nodeCount_le command
    have hrest := ih hvalid
    rw [hfunctions] at hrest
    rw [Session.run, Command.totalCost]
    dsimp only
    omega

/-- **A bound on the store over whole runs:** after every script, calls that panic included,
the store has no more nodes than the two leaves and the costs of the calls, which are
computed from the functions alone. -/
theorem script_growth {m : Manager} (hnew : Manager.new L = .ok m) (script : List Command) :
    (Session.run ⟨m, []⟩ script).2.manager.nodeCount ≤ 2 + Command.totalCost L [] script := by
  have hle := (Session.Valid.new hnew).run_nodeCount_le script
  obtain ⟨-, rfl⟩ := Manager.new_eq hnew
  exact hle

/-- Two variables, their conjunction, a table with an entry above one, and a quantifier. -/
def sampleGrowthScript : List Command :=
  [.call (.mkProj 0), .call (.mkProj 1), .call (.connective .and 0 1),
    .call (.apply 0 1 #v[#v[0, 5], #v[1, 9]]), .call (.existsVar 2 1), .pathCount 2]

/-- The bound at a script with a call that panics. -/
theorem script_growth_sample :
    (Session.run ⟨Manager.fresh 1, []⟩ sampleGrowthScript).2.manager.nodeCount ≤
      2 + Command.totalCost 1 [] sampleGrowthScript :=
  script_growth rfl sampleGrowthScript

end Sessions

end Cflobdd
