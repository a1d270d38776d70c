import Cflobdd.Semantics

/-!
# Memo tables are transparent

Every entry of a memo table is what the recursion gives when it is run on the same stores
with all memo tables switched off, and so is a product found under the flipped key. A
reduction may be memoized without its exit count, which its map determines. So a call that
is repeated without memo tables gives the same result.
-/

namespace Cflobdd

open FirstVisit Growing

/-- The program returns `a`. -/
def Gives {α : Type} (f : ManagerM α) (m : Manager) (a : α) : Prop := ∃ m', f m = .ok a m'

/-- The manager with all memo tables switched off. -/
def Manager.withoutMemo (m : Manager) : Manager :=
  { m with probe := { m.probe with memo := false } }

section WithoutMemo

variable {m : Manager} {k : ℕ} {α β : Type} [DecidableEq α] [DecidableEq β] {g : Asg k → α}
  {n : NodeId}

/-- The switches do not matter for what a node represents. -/
theorem Represents.withProbe (h : Represents m k g n) (p : Probe) :
    Represents { m with probe := p } k g n := by
  refine h.transfer ?_ ?_
  · intro id r hr
    exact hr
  · intro id b hb
    exact hb

/-- Nodes represent their functions with the memo tables off. -/
theorem Represents.withoutMemo (h : Represents m k g n) : Represents m.withoutMemo k g n :=
  h.withProbe _

/-- The stores and tables keep the invariant under other switches, if the trace is good. -/
theorem Manager.Inv.withProbe (hm : m.Inv) (p : Probe)
    (htrace : ∀ call ∈ p.trace, GoodCall { m with probe := p } call) :
    Manager.Inv { m with probe := p } where
  level_mem := hm.level_mem
  canonical id r hr := by
    obtain ⟨hlevel, e, he⟩ := hm.canonical id r hr
    exact ⟨hlevel, e, he.withProbe p⟩
  rmSingleton0 := hm.rmSingleton0
  rmSingleton1 := hm.rmSingleton1
  rmIdentity2 := hm.rmIdentity2
  tableLength := hm.tableLength
  noDistinction k id h := (hm.noDistinction k id h).withProbe p
  pairProducts key memo h := by
    obtain ⟨k, e₁, e₂, h₁, h₂, hnode, hmap⟩ := hm.pairProducts key memo h
    exact ⟨k, e₁, e₂, h₁.withProbe p, h₂.withProbe p, hnode.withProbe p, hmap⟩
  reductions key id h := by
    obtain ⟨k, e, ρ, hnode, hred, hid⟩ := hm.reductions key id h
    exact ⟨k, e, ρ, hnode.withProbe p, hred, hid.withProbe p⟩
  pathCounts id paths h := by
    obtain ⟨k, e, hk, hnode, hpaths⟩ := hm.pathCounts id paths h
    exact ⟨k, e, hk, hnode.withProbe p, hpaths⟩
  trace := htrace

/-- The tables and stores keep the invariant when the tables are not used. -/
theorem Manager.Inv.withoutMemo (hm : m.Inv) : m.withoutMemo.Inv := by
  refine hm.withProbe _ fun call h => ?_
  have hgood := hm.trace call h
  cases call with
  | reduce node red newNumExits => exact hgood
  | reduceInner node red newNumExits => exact hgood

/-- Diagrams denote their functions with the memo tables off. -/
theorem Denotes.withoutMemo {L : ℕ} {f : Bdd} {F : Asg L → Bool} (h : Denotes m L f F) :
    Denotes m.withoutMemo L f F :=
  ⟨h.root.withoutMemo, h.values⟩

/-- A represented node is of a level that recursions reach. -/
theorem Represents.lt_depth (hm : m.Inv) (h : Represents m k g n) : k < m.depth := by
  obtain ⟨r, hr, rfl, -⟩ := h.record
  exact Manager.lt_depth (hm.exists_represents hr).1

/-- The product computed without memo tables. -/
theorem pairProduct_withoutMemo (hm : m.Inv) {g₁ : Asg k → α} {g₂ : Asg k → β} {n₁ n₂ : NodeId}
    (h₁ : Represents m k g₁ n₁) (h₂ : Represents m k g₂ n₂) {result : NodeId × PairProductMap}
    (h : IsProduct m g₁ g₂ result) :
    Gives (pairProduct m.depth n₁ n₂) m.withoutMemo result := by
  obtain ⟨result', m', hok, hle, -, hresult', -⟩ :=
    pairProduct_returns (h₁.lt_depth hm) hm.withoutMemo h₁.withoutMemo h₂.withoutMemo
  have hresult : IsProduct m.withoutMemo g₁ g₂ result := ⟨h.node.withoutMemo, h.pairMap⟩
  rw [(hresult.mono hle).unique hresult']
  exact ⟨m', hok⟩

/-- The reduction computed without memo tables. -/
theorem reduce_withoutMemo (hm : m.Inv) (hn : Represents m k g n) (ρ : α → β) {n' : NodeId}
    (h : Represents m k (fun a => ρ (g a)) n') :
    Gives (reduce m.depth n (reduction g ρ) (firstSeen (reduction g ρ)).length) m.withoutMemo
      n' := by
  rw [firstSeen_reduction, List.length_range]
  obtain ⟨n'', m', hok, hle, -, hn'', -⟩ :=
    reduce_returns hm.withoutMemo hn.withoutMemo (hn.lt_depth hm) ρ
  rw [(h.withoutMemo.mono hle).unique hn'']
  exact ⟨m', hok⟩

/-- The path counts computed without memo tables. -/
theorem computePaths_withoutMemo (hm : m.Inv) (hk : k ≤ 6) (hn : Represents m k g n) :
    Gives (computePaths m.depth n) m.withoutMemo (visitCounts g) := by
  obtain ⟨paths, m', hok, -, -, rfl, -⟩ :=
    computePaths_returns (hn.lt_depth hm) hk hm.withoutMemo hn.withoutMemo
  exact ⟨m', hok⟩

end WithoutMemo

/-- Every memo table entry is what the recursion gives without memo tables. -/
structure MemoTransparent (m : Manager) : Prop where
  pairProducts : ∀ n1 n2 memo, m.pairProductCache.get? (n1, n2) = some memo →
    Gives (pairProduct m.depth n1 n2) m.withoutMemo (memo.node, memo.pairMap)
  /-- A product found under the flipped key. -/
  flipped : ∀ n1 n2 memo, m.pairProductCache.get? (n2, n1) = some memo →
    Gives (pairProduct m.depth n1 n2) m.withoutMemo (memo.node, memo.pairMap.map Prod.swap)
  reductions : ∀ node redId result, m.reduceCache.get? (node, redId) = some result →
    ∃ red, m.body? redId = some red ∧
      Gives (reduce m.depth node red (firstSeen red).length) m.withoutMemo result
  /-- The exit count of every call of `reduce` so far was determined by its map. -/
  reduceCalls : ∀ node red newNumExits, .reduce node red newNumExits ∈ m.probe.trace →
    newNumExits = (firstSeen red).length
  pathCounts : ∀ id paths, m.pathCounts.get? id = some paths →
    Gives (computePaths m.depth id) m.withoutMemo paths

/-- By the invariant every entry is what the recursion without memo tables returns. -/
theorem Manager.Inv.memoTransparent {m : Manager} (hm : m.Inv) : MemoTransparent m where
  pairProducts n1 n2 memo h := by
    obtain ⟨k, e₁, e₂, h₁, h₂, hnode, hmap⟩ := hm.pairProducts _ _ h
    exact pairProduct_withoutMemo hm h₁ h₂ ⟨hnode, hmap⟩
  flipped n1 n2 memo h := by
    obtain ⟨k, e₂, e₁, h₂, h₁, hnode, hmap⟩ := hm.pairProducts _ _ h
    have hproduct : IsProduct m e₂ e₁ (memo.node, memo.pairMap) := ⟨hnode, hmap⟩
    exact pairProduct_withoutMemo hm h₁ h₂ hproduct.swap
  reductions node redId result h := by
    obtain ⟨k, e, ρ, hnode, hred, hresult⟩ := hm.reductions _ _ h
    exact ⟨_, hred, reduce_withoutMemo hm hnode ρ hresult⟩
  reduceCalls node red newNumExits h := by
    obtain ⟨_, _, _, hred⟩ := hm.trace _ h
    rw [hred, List.length_range]
  pathCounts id paths h := by
    obtain ⟨k, e, hk, hnode, rfl⟩ := hm.pathCounts _ _ h
    exact computePaths_withoutMemo hm hk hnode

section Calls

variable {L : ℕ} {s : Session}

/-- A call repeated without memo tables gives the same diagram. -/
theorem Session.Valid.exec_withoutMemo (hs : s.Valid L) (call : Call Returned)
    (hargs : ∀ x ∈ call.args, x ∈ s.returned) (hrange : call.InRange L) :
    ∃ f m', (call.map Returned.bdd).exec s.manager = .ok f m' ∧
      Gives (call.map Returned.bdd).exec m'.withoutMemo f := by
  obtain ⟨f, m', hok, hle, hm', hf, -⟩ := hs.exec_returns call hargs hrange
  obtain ⟨f', m'', hok', hle', -, hf', -⟩ :=
    Cflobdd.exec_returns hm'.withoutMemo (hle.level.trans hs.level) call hrange
      fun x hx => ((hs.returned x (hargs x hx)).mono hle).withoutMemo
  obtain rfl : f = f' := (hf.withoutMemo.mono hle').unique hf'
  exact ⟨f, m', hok, m'', hok'⟩

/-- `path_count` gives the same count with the memo tables off. -/
theorem Session.Valid.pathCount_withoutMemo (hs : s.Valid L) {f : Returned} (hf : f ∈ s.returned)
    (hL : L ≤ 6) :
    ∃ count m', pathCount f.bdd s.manager = .ok count m' ∧
      Gives (pathCount f.bdd) m'.withoutMemo count := by
  obtain ⟨count, m', hok, hle, hm', rfl, -⟩ := hs.pathCount_returns hf hL
  obtain ⟨count', m'', hok', -, -, rfl, -⟩ :=
    Cflobdd.pathCount_returns hm'.withoutMemo (hle.level.trans hs.level) hL
      ((hs.returned f hf).mono hle).withoutMemo
  exact ⟨_, m', hok, m'', hok'⟩

/-- **Memoization is transparent:** in every reachable session every memo table entry is
what its recursion gives without memo tables, and every public call, issued again on its
final store without memo tables, gives the same result. -/
theorem memo_transparent (hs : Reachable L s) :
    MemoTransparent s.manager ∧
    (∀ call : Call Returned, (∀ x ∈ call.args, x ∈ s.returned) → call.InRange L →
      ∃ f m', (call.map Returned.bdd).exec s.manager = .ok f m' ∧
        Gives (call.map Returned.bdd).exec m'.withoutMemo f) ∧
    (∀ f ∈ s.returned, L ≤ 6 →
      ∃ count m', pathCount f.bdd s.manager = .ok count m' ∧
        Gives (pathCount f.bdd) m'.withoutMemo count) :=
  ⟨hs.valid.inv.memoTransparent,
    fun call hargs hrange => hs.valid.exec_withoutMemo call hargs hrange,
    fun _ hf hL => hs.valid.pathCount_withoutMemo hf hL⟩

theorem memo_transparent_sample :
    MemoTransparent sampleSession.manager ∧
    (∀ call : Call Returned, (∀ x ∈ call.args, x ∈ sampleSession.returned) → call.InRange 1 →
      ∃ f m', (call.map Returned.bdd).exec sampleSession.manager = .ok f m' ∧
        Gives (call.map Returned.bdd).exec m'.withoutMemo f) ∧
    (∀ f ∈ sampleSession.returned, 1 ≤ 6 →
      ∃ count m', pathCount f.bdd sampleSession.manager = .ok count m' ∧
        Gives (pathCount f.bdd) m'.withoutMemo count) :=
  memo_transparent sampleSession_reachable

end Calls

end Cflobdd
