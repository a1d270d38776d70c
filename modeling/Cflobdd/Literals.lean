import Cflobdd.Garbage
import Cflobdd.VariableOrder

/-!
# What constants and variables store

The recursions that make constants and variables make no nodes on the way: each node they add
is below the root they return. A manager on which only constants, variables and negations are
made stores the vertices of their graphs, and variables share a node at level `k` when their
indices agree modulo `2 ^ k`.
-/

namespace Cflobdd

open FirstVisit Enumerated Growing Traversal

/-- Each node that the store of `m'` has and that of `m` lacks is below one of the roots. -/
abbrev OnlyBelow : List NodeId → Manager → Manager → Prop := AddsBelow fun _ => False

section Programs

variable {G : NodeRecord → Prop} {m : Manager}

/-- The nodes of a variable are below its root: each level is made of the one before and a
constant. -/
theorem mkDistinction_below (level i : ℕ) (m : Manager) :
    MakesBelow G id (mkDistinction level i) m m := by
  induction level generalizing i m with
  | zero =>
    exact Ends.bind_unchanged (within_assert _ _ m) fun _ => Ends.pure (.of_same rfl)
  | succ level ih =>
    unfold mkDistinction
    dsimp only
    split
    · refine Ends.bind (ih i m) fun aTarget m₁ ha => ?_
      refine Ends.bind_unchanged (within_reads _ m₁) fun idMap => ?_
      refine Ends.bind (noDistinction_below (G := G) level m₁) fun nd m₂ hnd => ?_
      refine Ends.bind_unchanged (within_reads _ m₂) fun map0 => ?_
      refine Ends.bind_unchanged (within_reads _ m₂) fun map1 => ?_
      exact internInternal_below (ha.trans hnd) _ _ (by simp)
    · refine Ends.bind (noDistinction_below (G := G) level m) fun nd m₁ hnd => ?_
      refine Ends.bind_unchanged (within_reads _ m₁) fun id1 => ?_
      refine Ends.bind (ih _ m₁) fun bTarget m₂ hb => ?_
      refine Ends.bind_unchanged (within_reads _ m₂) fun id2 => ?_
      exact internInternal_below (hnd.trans hb) _ _ (by simp)

/-- The constant true adds its nodes only. -/
theorem mkTrue_below (m : Manager) : MakesBelow G Bdd.root mkTrue m m := by
  unfold mkTrue
  refine Ends.bind_unchanged (within_reads _ m) fun level => ?_
  refine Ends.bind (noDistinction_below (G := G) level m) fun root m₁ hroot => ?_
  exact Ends.bind_unchanged (within_reads _ m₁) fun values => Ends.pure hroot

/-- The constant false adds its nodes only. -/
theorem mkFalse_below (m : Manager) : MakesBelow G Bdd.root mkFalse m m := by
  unfold mkFalse
  refine Ends.bind_unchanged (within_reads _ m) fun level => ?_
  refine Ends.bind (noDistinction_below (G := G) level m) fun root m₁ hroot => ?_
  exact Ends.bind_unchanged (within_reads _ m₁) fun values => Ends.pure hroot

/-- A variable adds its nodes only. -/
theorem mkProj_below (i : ℕ) (m : Manager) :
    MakesBelow G Bdd.root (mkProj i) m m := by
  unfold mkProj
  refine Ends.bind_unchanged (within_reads _ m) fun total => ?_
  refine Ends.bind_unchanged (within_assert _ _ m) fun _ => ?_
  refine Ends.bind_unchanged (within_reads _ m) fun level => ?_
  refine Ends.bind (mkDistinction_below (G := G) level i m) fun root m₁ hroot => ?_
  exact Ends.bind_unchanged (within_reads _ m₁) fun values => Ends.pure hroot

end Programs

section Unchanged

variable {m : Manager}

/-- Counting interns nothing. -/
theorem computePaths_same {m₀ : Manager} (hm₀ : m₀.Inv) {fuel : ℕ} {n : NodeId}
    {r : NodeRecord} (hr : m₀.record? n = some r) (hle : m₀.nodes.records <+: m.nodes.records) :
    Within SameNodes (computePaths fuel n) m := by
  induction fuel generalizing n r m with
  | zero => exact Within.throw _ m
  | succ fuel ih =>
    unfold computePaths
    refine Within.memoized (W := SameNodes) ?_ (fun _ h => h) fun _ _ _ _ => rfl
    refine computePathsUncached_within (fun h => by rw [h]) hr (fun c hc t ht => ?_) hle
    obtain ⟨r', hr'⟩ := (hm₀.child hc).1
    exact ih hr' ht

/-- `path_count` adds no nodes, whether it returns or panics. -/
theorem pathCount_same (hm : m.Inv) {f : Bdd} {r : NodeRecord}
    (hr : m.record? f.root = some r) : Within SameNodes (pathCount f) m := by
  unfold pathCount
  refine within_reads_bind (within_assert_bind fun _ => ?_)
  refine Within.bind (computePaths_same hm hr List.prefix_rfl) fun paths m₁ _ _ => ?_
  refine within_body_bind fun values => within_assert_bind fun _ => ?_
  exact sumLoop_within _ _ _ m₁

end Unchanged

/-- The command makes a constant, a variable or a negation, or no diagram. -/
def Command.MakesLiterals : Command → Prop
  | .call .mkTrue | .call .mkFalse | .call (.mkProj _) | .call (.not _) => True
  | .call _ => False
  | .pathCount _ | .evaluate _ _ | .eq _ _ => True

/-- The roots of the diagrams that the session has returned. -/
def Session.roots (s : Session) : List NodeId := s.returned.map (·.bdd.root)

section Sessions

variable {L : ℕ} {s : Session}

/-- A program that returns does so in one way. -/
theorem ends_of_returns {α : Type} {p : ManagerM α} {m : Manager} {Q R : α → Manager → Prop}
    {E : Panic → Manager → Prop} (hp : Returns p m R) (h : Ends p m Q fun _ _ => True) :
    Ends p m Q E := by
  obtain ⟨a, m', hok, -⟩ := hp
  rw [Ends, hok] at h ⊢
  exact h

/-- Literals are made without garbage, and a call that panics adds no nodes. -/
theorem Session.Valid.literal_adds (hs : s.Valid L) {call : Call ℕ}
    (h : (Command.call call).MakesLiterals) {call' : Call Returned}
    (hcall : call.resolve s.returned = some call') :
    Ends (call'.map Returned.bdd).exec s.manager (fun f m' => OnlyBelow [f.root] s.manager m')
      fun _ m' => SameNodes s.manager m' := by
  cases call with
  | mkTrue =>
    obtain rfl := Option.some.inj hcall
    exact ends_of_returns (mkTrue_returns hs.inv) (mkTrue_below _)
  | mkFalse =>
    obtain rfl := Option.some.inj hcall
    exact ends_of_returns (mkFalse_returns hs.inv) (mkFalse_below _)
  | mkProj i =>
    obtain rfl := Option.some.inj hcall
    by_cases hi : i < s.manager.totalVars
    · exact ends_of_returns (mkProj_returns hs.inv hi) (mkProj_below i _)
    · change Ends (mkProj i) _ _ _
      rw [Ends, mkProj_outOfRange hi]
      rfl
  | not f =>
    obtain ⟨f', -, hf'⟩ := Option.bind_eq_some_iff.mp hcall
    obtain rfl := Option.some.inj hf'
    have hnot := not_within internMap_same f'.bdd s.manager
    exact Ends.mono hnot (fun _ _ h => .of_same h) fun _ _ h => h
  | apply _ _ _ | connective _ _ _ | restrict _ _ _ | compose _ _ _ | existsVar _ _
  | forallVar _ _ => exact h.elim

/-- One command. -/
theorem Session.Valid.step_adds (hs : s.Valid L) {command : Command}
    (h : command.MakesLiterals) : s.roots ⊆ (s.step command).2.roots ∧
      OnlyBelow (s.step command).2.roots s.manager (s.step command).2.manager := by
  have hsame : ∀ {m'}, SameNodes s.manager m' →
      s.roots ⊆ Session.roots ⟨m', s.returned⟩ ∧
        OnlyBelow (Session.roots ⟨m', s.returned⟩) s.manager m' :=
    fun h => ⟨List.Subset.refl _, .of_same h⟩
  unfold Session.step
  cases command with
  | call call =>
    dsimp only
    cases hcall : call.resolve s.returned with
    | none => exact hsame rfl
    | some call' =>
      have hends := hs.literal_adds h hcall
      dsimp only
      cases hresult : (call'.map Returned.bdd).exec s.manager with
      | ok f m' =>
        have hadds := hends.of_ok hresult
        have hroots : ∀ g, Session.roots ⟨m', s.returned ++ [⟨f, g⟩]⟩ = s.roots ++ [f.root] :=
          fun g => List.map_append
        dsimp only
        rw [hroots]
        exact ⟨List.subset_append_left _ _, hadds.mono (List.subset_append_right _ _)⟩
      | error e m' => exact hsame (hends.of_error hresult)
  | pathCount f =>
    dsimp only
    cases hf : s.returned[f]? with
    | none => exact hsame rfl
    | some f =>
      obtain ⟨r, hr, -⟩ := (hs.returned f (List.mem_of_getElem? hf)).root.record
      have hends := pathCount_same hs.inv hr
      dsimp only
      cases hresult : pathCount f.bdd s.manager with
      | ok paths m' => exact hsame (hends.of_ok hresult)
      | error e m' => exact hsame (hends.of_error hresult)
  | evaluate f a =>
    dsimp only
    cases s.returned[f]? with
    | none => exact hsame rfl
    | some f =>
      dsimp only
      cases s.manager.evaluate f.bdd a <;> exact hsame rfl
  | eq f g =>
    dsimp only
    split <;> exact hsame rfl

/-- A script. -/
theorem Session.Valid.run_adds (hs : s.Valid L) {script : List Command}
    (h : ∀ command ∈ script, command.MakesLiterals) : s.roots ⊆ (s.run script).2.roots ∧
      OnlyBelow (s.run script).2.roots s.manager (s.run script).2.manager := by
  induction script generalizing s with
  | nil => exact ⟨List.Subset.refl _, .of_same rfl⟩
  | cons command script ih =>
    obtain ⟨hroots, hadds⟩ := hs.step_adds (h command (.head _))
    obtain ⟨hroots', hadds'⟩ := ih (hs.step_simulates command).valid fun c hc => h c (.tail _ hc)
    refine ⟨List.Subset.trans hroots hroots', (hadds.trans hadds').mono ?_⟩
    exact List.append_subset.mpr ⟨hroots', List.Subset.refl _⟩

/-- Each stored node is a leaf or below a diagram that was returned. -/
def Session.Tidy (s : Session) : Prop :=
  ∀ v r, s.manager.record? v = some r →
    v = .dontCare ∨ v = .fork ∨ ∃ f ∈ s.returned, Reach s.manager.children f.bdd.root v

/-- A script of constants, variables and negations leaves a tidy session. -/
theorem Session.tidy_of_literals {m : Manager} (hnew : Manager.new L = .ok m)
    {script : List Command} (h : ∀ command ∈ script, command.MakesLiterals) :
    (Session.run ⟨m, []⟩ script).2.Tidy := by
  obtain ⟨-, hadds⟩ := (Session.Valid.new hnew).run_adds h
  obtain ⟨-, rfl⟩ := Manager.new_eq hnew
  intro v r hr
  obtain hfresh | hfalse | ⟨n, hn, hreach⟩ := hadds.below v r hr
  · have hlt : v.raw < 2 := Manager.lt_nodeCount hfresh
    obtain ⟨i⟩ := v
    match i, hlt with
    | 0, _ => exact .inl rfl
    | 1, _ => exact .inr (.inl rfl)
  · exact hfalse.elim
  · obtain ⟨f, hf, rfl⟩ := List.mem_map.mp hn
    exact .inr (.inr ⟨f, hf, hreach⟩)

/-- The vertices of the graphs of the functions, and the two leaves. -/
def Session.vertices (L : ℕ) (s : Session) : List Shape :=
  ([constShape 0, discreteShape 0] ++
    s.returned.flatMap fun f => shapes fun a : Asg L => f.function a.toList).dedup

/-- `DontCare` is the node of the constants of one variable. -/
theorem hasShape_dontCare (m : Manager) : HasShape m .dontCare (constShape 0) :=
  Represents.hasShape (g := fun _ : Asg 0 => ()) (if_pos rfl).symm

/-- `Fork` is the node of the variable. -/
theorem hasShape_fork (m : Manager) : HasShape m .fork (discreteShape 0) :=
  Represents.hasShape (g := fun a : Asg 0 => a.toList) (if_neg (by decide)).symm

/-- The nodes below a diagram are those of the vertices of its graph. -/
theorem Session.Valid.mem_shapes_iff (hs : s.Valid L) {f : Returned} (hf : f ∈ s.returned)
    {x : Shape} : (x ∈ shapes fun a : Asg L => f.function a.toList) ↔
      ∃ v, Reach s.manager.children f.bdd.root v ∧ HasShape s.manager v x := by
  have hroot := (hs.returned f hf).root
  obtain ⟨r, hr, -⟩ := hroot.record
  obtain ⟨φ, hperm, hφ⟩ := hroot.shapes_perm hs.inv
  rw [← hperm.mem_iff, List.mem_map]
  constructor
  · rintro ⟨v, hv, rfl⟩
    exact ⟨v, (Manager.mem_reachable hs.inv hr).mp hv, hφ v hv⟩
  · rintro ⟨v, hv, hx⟩
    have hv' := (Manager.mem_reachable hs.inv hr).mpr hv
    exact ⟨v, hv', (hasShape_matching _).right_unique v _ _ (hφ v hv') hx⟩

/-- In a tidy session the stored nodes are those of the vertices. -/
theorem Session.Valid.mem_vertices_iff (hs : s.Valid L) (htidy : s.Tidy) {x : Shape} :
    x ∈ s.vertices L ↔ ∃ v r, s.manager.record? v = some r ∧ HasShape s.manager v x := by
  simp only [Session.vertices, List.mem_dedup, List.mem_append, List.mem_cons,
    List.not_mem_nil, or_false, List.mem_flatMap]
  constructor
  · rintro ((rfl | rfl) | ⟨f, hf, hx⟩)
    · exact ⟨_, _, s.manager.record?_dontCare, hasShape_dontCare _⟩
    · exact ⟨_, _, s.manager.record?_fork, hasShape_fork _⟩
    · obtain ⟨v, hv, hshape⟩ := (hs.mem_shapes_iff hf).mp hx
      obtain ⟨r, hr, -⟩ := (hs.returned f hf).root.record
      obtain ⟨r', hr'⟩ := Manager.exists_record_of_reach hs.inv hr hv
      exact ⟨v, r', hr', hshape⟩
  · rintro ⟨v, r, hr, hx⟩
    obtain rfl | rfl | ⟨f, hf, hv⟩ := htidy v r hr
    · exact .inl (.inl ((hasShape_matching _).right_unique _ _ _ hx (hasShape_dontCare _)))
    · exact .inl (.inr ((hasShape_matching _).right_unique _ _ _ hx (hasShape_fork _)))
    · exact .inr ⟨f, hf, (hs.mem_shapes_iff hf).mpr ⟨v, hv, hx⟩⟩

/-- The stored nodes of a tidy session are the vertices of its functions, one for one. -/
theorem Session.Valid.nodes_perm (hs : s.Valid L) (htidy : s.Tidy) :
    ∃ φ : Fin s.manager.nodeCount → Shape,
      ((List.finRange s.manager.nodeCount).map φ).Perm (s.vertices L) ∧
        ∀ i : Fin s.manager.nodeCount, HasShape s.manager ⟨i⟩ (φ i) := by
  have hstored : ∀ i : Fin s.manager.nodeCount, ∃ r, s.manager.record? ⟨i⟩ = some r :=
    fun i => ⟨_, List.getElem?_eq_getElem i.isLt⟩
  have hnode : ∀ i : Fin s.manager.nodeCount, ∃ x, HasShape s.manager ⟨i⟩ x := by
    intro i
    obtain ⟨r, hr⟩ := hstored i
    obtain ⟨-, e, he, hnumber⟩ := hs.inv.exists_represents hr
    exact ⟨⟨_, e⟩, he, hnumber⟩
  choose φ hφ using hnode
  have hinj : Function.Injective φ := by
    intro i j h
    have hij := hφ i
    rw [h] at hij
    exact Fin.ext (NodeId.mk.inj ((hasShape_matching _).left_unique _ _ _ hij (hφ j)))
  have hnodup : (s.vertices L).Nodup := List.nodup_dedup _
  refine ⟨φ, (List.perm_ext_iff_of_nodup ((List.nodup_finRange _).map hinj) hnodup).mpr ?_, hφ⟩
  intro x
  rw [hs.mem_vertices_iff htidy, List.mem_map]
  constructor
  · rintro ⟨i, -, rfl⟩
    obtain ⟨r, hr⟩ := hstored i
    exact ⟨_, r, hr, hφ i⟩
  · rintro ⟨⟨i⟩, r, hr, hx⟩
    have hi : i < s.manager.nodeCount := Manager.lt_nodeCount hr
    exact ⟨⟨i, hi⟩, List.mem_finRange _, (hasShape_matching _).right_unique _ _ _ (hφ _) hx⟩

/-- A tidy session stores as many nodes as there are vertices. -/
theorem Session.Valid.nodeCount_eq (hs : s.Valid L) (htidy : s.Tidy) :
    s.manager.nodeCount = (s.vertices L).length := by
  obtain ⟨φ, hperm, -⟩ := hs.nodes_perm htidy
  rw [← hperm.length_eq, List.length_map, List.length_finRange]

/-- The number of stored nodes of level `k` with `exits` exits. -/
def Manager.countAt (m : Manager) (k exits : ℕ) : ℕ :=
  m.nodes.records.countP fun r => r.level == k && r.numExits == exits

/-- The number of vertices of level `k` that take `exits` values. -/
def countShapes (k exits : ℕ) (xs : List Shape) : ℕ :=
  xs.countP fun x => x.1 == k && (visited x.2).length == exits

/-- In a tidy session the nodes of each level and number of exits are counted by the vertices. -/
theorem Session.Valid.countAt_eq (hs : s.Valid L) (htidy : s.Tidy) (k exits : ℕ) :
    s.manager.countAt k exits = countShapes k exits (s.vertices L) := by
  obtain ⟨φ, hperm, hφ⟩ := hs.nodes_perm htidy
  have hrecords : s.manager.nodes.records =
      (List.finRange s.manager.nodeCount).map fun i => s.manager.nodes.records[i] :=
    (List.map_getElem_finRange _).symm
  rw [countShapes, ← hperm.countP_eq, List.countP_map, Manager.countAt, hrecords, List.countP_map]
  refine List.countP_congr fun i _ => ?_
  have hr : s.manager.record? ⟨i⟩ = some s.manager.nodes.records[i] :=
    List.getElem?_eq_getElem i.isLt
  simp only [Function.comp_apply, (hφ i).1.level_eq hr, (hφ i).1.numExits_eq hr]

end Sessions

section Variables

variable {L k : ℕ} {s : Session} {indices : List ℕ}

/-- Two variables share their node of level `k` exactly if their indices agree modulo
`2 ^ k`. -/
theorem projShape_eq_iff {i j : ℕ} : projShape i k = projShape j k ↔ i % 2 ^ k = j % 2 ^ k := by
  refine ⟨fun h => ?_, fun h => by rw [projShape, h, projShape]⟩
  have hlt : ∀ i, i % 2 ^ k < 2 ^ k := fun i => Nat.mod_lt _ (Nat.two_pow_pos k)
  by_contra hne
  have hiff := shapeOf_eq_iff.mp h (.allFalse k) ((Asg.allFalse k).set (i % 2 ^ k) true)
  rw [Asg.get_set_self _ (hlt i), Asg.get_set_of_ne _ (hlt i) (hlt j) hne] at hiff
  simp at hiff

/-- The residues of the indices modulo `2 ^ k`. -/
def residues (indices : List ℕ) (k : ℕ) : List ℕ := (indices.map (· % 2 ^ k)).dedup

/-- The vertices of some variables. -/
def variableNodes (L : ℕ) (indices : List ℕ) : List Shape :=
  chain constShape L ++
    (List.range (L + 1)).flatMap fun k => (residues indices k).map (projShape · k)

/-- Their number: a constant for each level below the top, and the residues of each level. -/
theorem length_variableNodes : (variableNodes L indices).length =
    L + ((List.range (L + 1)).map fun k => (residues indices k).length).sum := by
  simp [variableNodes, chain, List.length_flatMap]

/-- The vertices of some variables are those of each of them and the constants. -/
theorem mem_variableNodes {x : Shape} : x ∈ variableNodes L indices ↔
    (∃ k < L, constShape k = x) ∨ ∃ k < L + 1, ∃ i ∈ indices, projShape i k = x := by
  have hresidues : ∀ k, (∃ j ∈ residues indices k, projShape j k = x) ↔
      ∃ i ∈ indices, projShape i k = x := by
    intro k
    simp only [residues, List.mem_dedup, List.mem_map]
    constructor
    · rintro ⟨_, ⟨i, hi, rfl⟩, rfl⟩
      exact ⟨i, hi, projShape_eq_iff.mpr (Nat.mod_mod _ _).symm⟩
    · rintro ⟨i, hi, rfl⟩
      exact ⟨_, ⟨i, hi, rfl⟩, projShape_eq_iff.mpr (Nat.mod_mod _ _)⟩
  simp only [variableNodes, List.mem_append, mem_chain, List.mem_flatMap, List.mem_range,
    List.mem_map, hresidues]

/-- None is listed twice. -/
theorem nodup_variableNodes : (variableNodes L indices).Nodup := by
  refine (nodup_chain fun _ => rfl).append (List.nodup_flatMap.mpr ⟨fun k _ => ?_, ?_⟩) ?_
  · refine (List.nodup_dedup _).map_on fun i hi j hj h => ?_
    obtain ⟨i, -, rfl⟩ := List.mem_map.mp (List.mem_dedup.mp hi)
    obtain ⟨j, -, rfl⟩ := List.mem_map.mp (List.mem_dedup.mp hj)
    rw [projShape_eq_iff, Nat.mod_mod, Nat.mod_mod] at h
    exact h
  · refine List.nodup_range.imp fun hne x hx hx' => ?_
    obtain ⟨i, -, rfl⟩ := List.mem_map.mp hx
    obtain ⟨j, -, heq⟩ := List.mem_map.mp hx'
    exact hne (congrArg Sigma.fst heq).symm
  · intro x hx hx'
    obtain ⟨k, -, rfl⟩ := mem_chain.mp hx
    obtain ⟨j, -, hx'⟩ := List.mem_flatMap.mp hx'
    obtain ⟨i, -, heq⟩ := List.mem_map.mp hx'
    obtain rfl : j = k := congrArg Sigma.fst heq
    exact shapeOf_ne_const (visited_get (Nat.mod_lt _ (Nat.two_pow_pos j))) heq

/-- The graph of a variable in range. -/
theorem mem_shapes_get {i : ℕ} (hi : i < 2 ^ L) {x : Shape} :
    (x ∈ shapes fun a : Asg L => a.toList.getD i false) ↔
      (∃ k < L, constShape k = x) ∨ ∃ k < L + 1, projShape i k = x := by
  have hget : (fun a : Asg L => a.toList.getD i false) = fun a => a.get i := by
    funext a
    rw [List.getD_eq_getElem?_getD, Asg.getElem?_toList a hi, Option.getD_some]
  rw [hget, (shapes_get_perm hi).mem_iff, List.mem_append, mem_chain, mem_chain, or_comm]

/-- The script that makes the variables. -/
def projections (indices : List ℕ) : List Command := indices.map fun i => .call (.mkProj i)

/-- The machine of functions adds a variable if it is in range. -/
theorem Command.answer_mkProj (L i : ℕ) (fs : List (List Bool → Bool)) :
    ((Command.call (.mkProj i)).answer L fs).2 =
      if i < 2 ^ L then fs ++ [fun a => a.getD i false] else fs := by
  unfold Command.answer
  by_cases hi : i < 2 ^ L
  · simp only [Call.resolve, Call.panic?, if_pos hi]
    rfl
  · simp only [Call.resolve, Call.panic?, if_neg hi]

/-- The variables out of range are refused, the others are returned. -/
theorem Session.Valid.run_projections (hs : s.Valid L) (indices : List ℕ) :
    (s.run (projections indices)).2.returned.map Returned.function =
      s.returned.map Returned.function ++
        (indices.filter (· < 2 ^ L)).map fun i a => a.getD i false := by
  induction indices generalizing s with
  | nil => simp [projections, Session.run]
  | cons i indices ih =>
    obtain ⟨-, hfunctions, hvalid⟩ := hs.step_simulates (.call (.mkProj i))
    rw [Command.answer_mkProj] at hfunctions
    have hrest := ih hvalid
    rw [hfunctions] at hrest
    refine hrest.trans ?_
    by_cases hi : i < 2 ^ L
    · rw [if_pos hi, List.filter_cons_of_pos (by simpa using hi), List.map_cons, List.append_assoc]
      rfl
    · rw [if_neg hi, List.filter_cons_of_neg (by simpa using hi)]

/-- Variables at the lowest level. -/
theorem projShape_zero (i : ℕ) : projShape i 0 = discreteShape 0 := by
  refine shapeOf_injective ?_
  rintro (x | _) (y | _) h
  exact congrArg Asg.leaf h

/-- The vertices of a session that has returned variables only, and one at least. -/
theorem Session.vertices_perm {indices : List ℕ} (hL : 0 < L) (hne : indices ≠ [])
    (hlt : ∀ i ∈ indices, i < 2 ^ L)
    (hs : s.returned.map Returned.function = indices.map fun i a => a.getD i false) :
    (s.vertices L).Perm (variableNodes L indices) := by
  have hnodup : (s.vertices L).Nodup := List.nodup_dedup _
  have hreturned : ∀ x, (∃ f ∈ s.returned, x ∈ shapes fun a : Asg L => f.function a.toList) ↔
      ∃ i ∈ indices, (∃ k < L, constShape k = x) ∨ ∃ k < L + 1, projShape i k = x := by
    intro x
    have hmap : (∃ F ∈ s.returned.map Returned.function, x ∈ shapes fun a : Asg L => F a.toList) ↔
        ∃ F ∈ indices.map fun i (a : List Bool) => a.getD i false,
          x ∈ shapes fun a : Asg L => F a.toList := by
      rw [hs]
    simp only [List.mem_map, exists_exists_and_eq_and] at hmap
    rw [hmap]
    exact exists_congr fun i => and_congr_right fun hi => mem_shapes_get (hlt i hi)
  obtain ⟨i₀, hi₀⟩ := List.exists_mem_of_ne_nil indices hne
  refine (List.perm_ext_iff_of_nodup hnodup nodup_variableNodes).mpr fun x => ?_
  simp only [Session.vertices, List.mem_dedup, List.mem_append, List.mem_cons,
    List.not_mem_nil, or_false, List.mem_flatMap, hreturned, mem_variableNodes]
  constructor
  · rintro ((rfl | rfl) | ⟨i, hi, hconst | ⟨k, hk, hproj⟩⟩)
    · exact .inl ⟨0, hL, rfl⟩
    · exact .inr ⟨0, by omega, i₀, hi₀, projShape_zero i₀⟩
    · exact .inl hconst
    · exact .inr ⟨k, hk, i, hi, hproj⟩
  · rintro (hconst | ⟨k, hk, i, hi, hproj⟩)
    · exact .inr ⟨i₀, hi₀, .inl hconst⟩
    · exact .inr ⟨i, hi, .inr ⟨k, hk, hproj⟩⟩

/-- All residues occur among all indices. -/
theorem length_residues (h : ∀ i < 2 ^ L, i ∈ indices) (hk : k ≤ L) :
    (residues indices k).length = 2 ^ k := by
  have hperm : (residues indices k).Perm (List.range (2 ^ k)) := by
    refine (List.perm_ext_iff_of_nodup (List.nodup_dedup _) List.nodup_range).mpr fun j => ?_
    rw [List.mem_dedup, List.mem_map, List.mem_range]
    constructor
    · rintro ⟨i, -, rfl⟩
      exact Nat.mod_lt _ (Nat.two_pow_pos k)
    · intro hj
      exact ⟨j, h j (hj.trans_le (Nat.pow_le_pow_right two_pos hk)), Nat.mod_eq_of_lt hj⟩
  rw [hperm.length_eq, List.length_range]

/-- The sum of the first powers of two, which are the numbers of all residues. -/
theorem sum_two_pow (n : ℕ) : ((List.range n).map fun k => 2 ^ k).sum + 1 = 2 ^ n := by
  induction n with
  | zero => rfl
  | succ n ih =>
    rw [List.range_succ, List.map_append, List.sum_append, List.map_singleton,
      List.sum_singleton, pow_succ]
    omega

/-- **Constants, variables and negations leave no garbage:** after every script that makes no
other diagrams, calls that panic included, each stored node is a leaf or below a diagram that
was returned, and there are as many nodes as the functions have vertices. -/
theorem literals_no_garbage {m : Manager} (hnew : Manager.new L = .ok m) {script : List Command}
    (h : ∀ command ∈ script, command.MakesLiterals) :
    (Session.run ⟨m, []⟩ script).2.Tidy ∧ (Session.run ⟨m, []⟩ script).2.manager.nodeCount =
      ((Session.run ⟨m, []⟩ script).2.vertices L).length := by
  have htidy := Session.tidy_of_literals hnew h
  exact ⟨htidy, ((Session.Valid.new hnew).run_answers script).2.nodeCount_eq htidy⟩

/-- A constant, a variable, its negation and a variable out of range. -/
def sampleLiteralScript : List Command :=
  [.call .mkTrue, .call (.mkProj 1), .call (.not 1), .call (.mkProj 2), .pathCount 2, .eq 1 2]

theorem literals_no_garbage_sample :
    (Session.run ⟨Manager.fresh 1, []⟩ sampleLiteralScript).2.Tidy ∧
      (Session.run ⟨Manager.fresh 1, []⟩ sampleLiteralScript).2.manager.nodeCount =
        ((Session.run ⟨Manager.fresh 1, []⟩ sampleLiteralScript).2.vertices 1).length :=
  literals_no_garbage rfl (by simp [sampleLiteralScript, Command.MakesLiterals])

/-- A constant takes one value. -/
theorem length_visited_constShape (k : ℕ) : (visited (constShape k).2).length = 1 := by
  change (visited (number fun _ : Asg k => ())).length = 1
  rw [visited_number, visited_of_const (.allFalse k) fun _ => rfl]
  rfl

/-- A variable takes two values. -/
theorem length_visited_projShape (i k : ℕ) : (visited (projShape i k).2).length = 2 := by
  change (visited (number fun a : Asg k => a.get (i % 2 ^ k))).length = 2
  rw [visited_number, visited_get (Nat.mod_lt _ (Nat.two_pow_pos k))]
  rfl

/-- Among the vertices of some variables there is one constant at each level below the top. -/
theorem countShapes_one (L : ℕ) (indices : List ℕ) (k : ℕ) :
    countShapes k 1 (variableNodes L indices) = if k < L then 1 else 0 := by
  have hchain : countShapes k 1 (chain constShape L) = (List.range L).count k := by
    rw [countShapes, chain, List.countP_map, List.count]
    refine List.countP_congr fun j _ => ?_
    have hlevel : (constShape j).1 = j := rfl
    simp [length_visited_constShape, hlevel]
  have hrest : countShapes k 1 ((List.range (L + 1)).flatMap fun j =>
      (residues indices j).map (projShape · j)) = 0 := by
    refine List.countP_eq_zero.mpr fun x hx => ?_
    obtain ⟨j, -, hx⟩ := List.mem_flatMap.mp hx
    obtain ⟨i, -, rfl⟩ := List.mem_map.mp hx
    simp [length_visited_projShape]
  rw [variableNodes, countShapes, List.countP_append]
  change countShapes k 1 _ + countShapes k 1 _ = _
  rw [hchain, hrest, List.nodup_range.count]
  simp only [List.mem_range, Nat.add_zero]

/-- The other vertices of level `k` are those of the residues. -/
theorem countShapes_two (L : ℕ) (indices : List ℕ) (k : ℕ) :
    countShapes k 2 (variableNodes L indices) =
      if k ≤ L then (residues indices k).length else 0 := by
  have hchain : countShapes k 2 (chain constShape L) = 0 := by
    refine List.countP_eq_zero.mpr fun x hx => ?_
    obtain ⟨j, -, rfl⟩ := mem_chain.mp hx
    simp [length_visited_constShape]
  have hlevel : ∀ j, countShapes k 2 ((residues indices j).map (projShape · j)) =
      if k = j then (residues indices k).length else 0 := by
    intro j
    rw [countShapes, List.countP_map]
    split
    next heq =>
      subst heq
      refine List.countP_eq_length.mpr fun i _ => ?_
      have hlevel : (projShape i k).1 = k := rfl
      simp [length_visited_projShape, hlevel]
    next hne =>
      refine List.countP_eq_zero.mpr fun i _ => ?_
      have hlevel : (projShape i j).1 = j := rfl
      simp [hlevel, Ne.symm hne]
  rw [variableNodes, countShapes, List.countP_append, List.countP_flatMap]
  change countShapes k 2 _ + ((List.range (L + 1)).map fun j => countShapes k 2 _).sum = _
  rw [hchain, Nat.zero_add, List.map_congr_left fun j _ => hlevel j]
  change ∑ j ∈ Finset.range (L + 1), (if k = j then (residues indices k).length else 0) = _
  rw [Finset.sum_ite_eq]
  simp only [Finset.mem_range, Nat.lt_succ_iff]

/-- The manager stores what variables with the given indices need, in numbers. Indices out of
range cost nothing. -/
structure StoresVariables (L : ℕ) (indices : List ℕ) (m : Manager) : Prop where
  /-- One constant node at each level below the top. -/
  constants : ∀ k, m.countAt k 1 = if k < L then 1 else 0
  /-- At level `k` a node for each residue of the indices modulo `2 ^ k`. -/
  others : ∀ k, m.countAt k 2 =
    if k ≤ L then (residues (indices.filter (· < 2 ^ L)) k).length else 0
  /-- There are no other nodes. -/
  total : m.nodeCount = L + ((List.range (L + 1)).map fun k =>
    (residues (indices.filter (· < 2 ^ L)) k).length).sum
  /-- All variables. -/
  all : (∀ i < 2 ^ L, i ∈ indices) → m.nodeCount + 1 = 2 ^ (L + 1) + L

/-- **The variables of a manager in numbers:** a manager that has made some variables stores
one constant node at each level below the top, at level `k` as many nodes with two exits as the
indices have residues modulo `2 ^ k`, and no other nodes. -/
theorem variables_count {m : Manager} (hnew : Manager.new L = .ok m)
    (hne : ∃ i ∈ indices, i < 2 ^ L) :
    StoresVariables L indices (Session.run ⟨m, []⟩ (projections indices)).2.manager := by
  have hvalid := Session.Valid.new hnew
  have hL : 0 < L := hvalid.level_le.1
  have hliterals : ∀ command ∈ projections indices, command.MakesLiterals := by
    intro command hcommand
    obtain ⟨i, -, rfl⟩ := List.mem_map.mp hcommand
    trivial
  have hfiltered : ∀ i ∈ indices.filter (· < 2 ^ L), i < 2 ^ L :=
    fun i hi => by simpa using (List.mem_filter.mp hi).2
  have hnonempty : indices.filter (· < 2 ^ L) ≠ [] := by
    obtain ⟨i, hi, hlt⟩ := hne
    exact List.ne_nil_of_mem (List.mem_filter.mpr ⟨hi, by simpa using hlt⟩)
  have hvalid' := (hvalid.run_answers (projections indices)).2
  have htidy := Session.tidy_of_literals hnew hliterals
  have hperm := Session.vertices_perm hL hnonempty hfiltered (hvalid.run_projections indices)
  have hcount : (Session.run ⟨m, []⟩ (projections indices)).2.manager.nodeCount =
      L + ((List.range (L + 1)).map fun k =>
        (residues (indices.filter (· < 2 ^ L)) k).length).sum := by
    rw [hvalid'.nodeCount_eq htidy, hperm.length_eq, length_variableNodes]
  refine ⟨fun k => ?_, fun k => ?_, hcount, fun hall => ?_⟩
  · rw [hvalid'.countAt_eq htidy, countShapes, hperm.countP_eq]
    exact countShapes_one L _ k
  · rw [hvalid'.countAt_eq htidy, countShapes, hperm.countP_eq]
    exact countShapes_two L _ k
  · have hresidues : ∀ k ∈ List.range (L + 1),
        (residues (indices.filter (· < 2 ^ L)) k).length = 2 ^ k := by
      intro k hk
      refine length_residues (fun i hi => ?_) (Nat.le_of_lt_succ (List.mem_range.mp hk))
      exact List.mem_filter.mpr ⟨hall i hi, by simpa using hi⟩
    have hsum := sum_two_pow (L + 1)
    rw [hcount, List.map_congr_left (g := fun k => 2 ^ k) hresidues]
    omega

/-- The variables `x₀` and `x₂` of four share their node for two variables. -/
theorem variables_count_sample :
    (Session.run ⟨Manager.fresh 2, []⟩ (projections [0, 2, 9])).2.manager.countAt 1 2 = 1 ∧
      (Session.run ⟨Manager.fresh 2, []⟩ (projections [0, 2, 9])).2.manager.nodeCount = 6 := by
  have h : StoresVariables 2 [0, 2, 9]
      (Session.run ⟨Manager.fresh 2, []⟩ (projections [0, 2, 9])).2.manager :=
    variables_count rfl ⟨0, by decide⟩
  exact ⟨(h.others 1).trans (by decide), h.total.trans (by decide)⟩

example : (Session.run ⟨Manager.fresh 2, []⟩ (projections [0, 2, 9])).2.manager.nodeCount = 6 := by
  decide +kernel

end Variables

end Cflobdd
