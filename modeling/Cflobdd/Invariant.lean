import Cflobdd.Evaluation
import Cflobdd.FirstVisit.Counts

/-!
# The invariant of the manager

Every node in the store is the canonical diagram of the function that numbers its
exits, and every memo table entry is what its computation would give. The invariant
is kept by adding to the stores and tables whatever satisfies it.
-/

namespace Cflobdd

open FirstVisit

/-- What the exits of a product stand for: the pairs of exits taken together, in the
order of their first visit. -/
def productMap {k : ℕ} {α β : Type} [DecidableEq α] [DecidableEq β] (g₁ : Asg k → α)
    (g₂ : Asg k → β) : PairProductMap :=
  visited fun a => (number g₁ a, number g₂ a)

/-- A memoized product is the product of its operands. -/
def ProductEntry (m : Manager) (key : NodeId × NodeId) (memo : PairProductMemo) : Prop :=
  ∃ (k : ℕ) (e₁ e₂ : Asg k → ℕ), Represents m k e₁ key.1 ∧ Represents m k e₂ key.2 ∧
    Represents m k (fun a => (e₁ a, e₂ a)) memo.node ∧ memo.pairMap = productMap e₁ e₂

/-- A memoized reduction is the reduction of its node. -/
def ReductionEntry (m : Manager) (key : NodeId × ReturnMapId) (id : NodeId) : Prop :=
  ∃ (k : ℕ) (e : Asg k → ℕ) (ρ : ℕ → ℕ), Represents m k e key.1 ∧
    m.body? key.2 = some (reduction e ρ) ∧ Represents m k (fun a => ρ (e a)) id

/-- Memoized path counts are the counts of their node, which is of level six at most. -/
def PathEntry (m : Manager) (id : NodeId) (paths : List ℕ) : Prop :=
  ∃ (k : ℕ) (e : Asg k → ℕ), k ≤ 6 ∧ Represents m k e id ∧ paths = visitCounts e

/-- The arguments of a call of `reduce` fit: the map has an entry for each exit of the
node, and its values are all numbers below `newNumExits`, in first-seen order. -/
def GoodReduction (m : Manager) (node : NodeId) (red : List ℕ) (newNumExits : ℕ) : Prop :=
  ∃ r, m.record? node = some r ∧ red.length = r.numExits ∧
    firstSeen red = List.range newNumExits

/-- A call in the trace has fitting arguments. With shortcuts, `reduce_inner` is only
called on internal nodes. -/
def GoodCall (m : Manager) : ReduceCall → Prop
  | .reduce node red newNumExits => GoodReduction m node red newNumExits
  | .reduceInner node red newNumExits =>
    GoodReduction m node red newNumExits ∧
      (m.probe.shortcuts = true → ∃ r, m.record? node = some r ∧ 1 ≤ r.level)

/-- The invariant of a manager. -/
structure Manager.Inv (m : Manager) : Prop where
  /-- The level is in range. -/
  level_mem : 1 ≤ m.level ∧ m.level ≤ 30
  /-- Every node is canonical. -/
  canonical : ∀ id r, m.record? id = some r →
    r.level ≤ m.level ∧ ∃ e : Asg r.level → ℕ, Represents m r.level e id
  rmSingleton0 : m.body? m.rmSingleton0 = some [0]
  rmSingleton1 : m.body? m.rmSingleton1 = some [1]
  rmIdentity2 : m.body? m.rmIdentity2 = some [0, 1]
  /-- The table of constant nodes has an entry for each level. -/
  tableLength : m.noDistinctionTable.length = m.level + 1
  /-- The table of constant nodes holds constant nodes. -/
  noDistinction : ∀ k id, lookupNoDistinction k m = some id →
    Represents m k (fun _ => ()) id
  pairProducts : ∀ key memo, m.pairProductCache.get? key = some memo → ProductEntry m key memo
  reductions : ∀ key id, m.reduceCache.get? key = some id → ReductionEntry m key id
  pathCounts : ∀ id paths, m.pathCounts.get? id = some paths → PathEntry m id paths
  trace : ∀ call ∈ m.probe.trace, GoodCall m call

section Mono

variable {m m' : Manager}

/-- A memoized product stays right when the manager grows. -/
theorem ProductEntry.mono (hle : m ≤ m') {key : NodeId × NodeId} {memo : PairProductMemo}
    (h : ProductEntry m key memo) : ProductEntry m' key memo := by
  obtain ⟨k, e₁, e₂, h₁, h₂, h, hmap⟩ := h
  exact ⟨k, e₁, e₂, h₁.mono hle, h₂.mono hle, h.mono hle, hmap⟩

/-- A memoized reduction stays right when the manager grows. -/
theorem ReductionEntry.mono (hle : m ≤ m') {key : NodeId × ReturnMapId} {id : NodeId}
    (h : ReductionEntry m key id) : ReductionEntry m' key id := by
  obtain ⟨k, e, ρ, hnode, hbody, h⟩ := h
  exact ⟨k, e, ρ, hnode.mono hle, Manager.body?_mono hle hbody, h.mono hle⟩

/-- Memoized counts stay right when the manager grows. -/
theorem PathEntry.mono (hle : m ≤ m') {id : NodeId} {paths : List ℕ}
    (h : PathEntry m id paths) : PathEntry m' id paths := by
  obtain ⟨k, e, hk, hnode, hpaths⟩ := h
  exact ⟨k, e, hk, hnode.mono hle, hpaths⟩

/-- A reduction stays good when the manager grows. -/
theorem GoodReduction.mono (hle : m ≤ m') {node : NodeId} {red : List ℕ} {newNumExits : ℕ}
    (h : GoodReduction m node red newNumExits) : GoodReduction m' node red newNumExits := by
  obtain ⟨r, hr, hrest⟩ := h
  exact ⟨r, Manager.record?_mono hle hr, hrest⟩

/-- A call in the trace stays good when the manager grows. -/
theorem GoodCall.mono (hle : m ≤ m') {call : ReduceCall} (h : GoodCall m call) :
    GoodCall m' call := by
  cases call with
  | reduce node red newNumExits => exact GoodReduction.mono hle h
  | reduceInner node red newNumExits =>
    refine ⟨h.1.mono hle, fun hshortcuts => ?_⟩
    obtain ⟨r, hr, hlevel⟩ := h.2 (by rw [← hle.shortcuts]; exact hshortcuts)
    exact ⟨r, Manager.record?_mono hle hr, hlevel⟩

end Mono

namespace Manager.Inv

variable {m m' : Manager}

/-- The invariant is kept by growth when whatever is new satisfies it. -/
theorem grow (hm : m.Inv) (hle : m ≤ m')
    (hrecords : ∀ id r, m'.record? id = some r → m.record? id = some r ∨
      r.level ≤ m.level ∧ ∃ e : Asg r.level → ℕ, Represents m' r.level e id)
    (hlength : m'.noDistinctionTable.length = m.noDistinctionTable.length)
    (hnoDistinction : ∀ k id, lookupNoDistinction k m' = some id →
      lookupNoDistinction k m = some id ∨ Represents m' k (fun _ => ()) id)
    (hpairProducts : ∀ key memo, m'.pairProductCache.get? key = some memo →
      m.pairProductCache.get? key = some memo ∨ ProductEntry m' key memo)
    (hreductions : ∀ key id, m'.reduceCache.get? key = some id →
      m.reduceCache.get? key = some id ∨ ReductionEntry m' key id)
    (hpathCounts : ∀ id paths, m'.pathCounts.get? id = some paths →
      m.pathCounts.get? id = some paths ∨ PathEntry m' id paths)
    (htrace : ∀ call ∈ m'.probe.trace, call ∈ m.probe.trace ∨ GoodCall m' call) :
    m'.Inv where
  level_mem := by
    rw [hle.level]
    exact hm.level_mem
  canonical id r hr := by
    rw [hle.level]
    rcases hrecords id r hr with hold | hnew
    · obtain ⟨hlevel, e, he⟩ := hm.canonical id r hold
      exact ⟨hlevel, e, he.mono hle⟩
    · exact hnew
  rmSingleton0 := by
    rw [hle.rmSingleton0]
    exact body?_mono hle hm.rmSingleton0
  rmSingleton1 := by
    rw [hle.rmSingleton1]
    exact body?_mono hle hm.rmSingleton1
  rmIdentity2 := by
    rw [hle.rmIdentity2]
    exact body?_mono hle hm.rmIdentity2
  tableLength := by rw [hlength, hm.tableLength, hle.level]
  noDistinction k id h :=
    (hnoDistinction k id h).elim (fun hold => (hm.noDistinction k id hold).mono hle)
      fun hnew => hnew
  pairProducts key memo h :=
    (hpairProducts key memo h).elim (fun hold => (hm.pairProducts key memo hold).mono hle)
      fun hnew => hnew
  reductions key id h :=
    (hreductions key id h).elim (fun hold => (hm.reductions key id hold).mono hle) fun hnew => hnew
  pathCounts id paths h :=
    (hpathCounts id paths h).elim (fun hold => (hm.pathCounts id paths hold).mono hle)
      fun hnew => hnew
  trace call h :=
    (htrace call h).elim (fun hold => (hm.trace call hold).mono hle) fun hnew => hnew

/-- Every node represents the function that numbers its exits. -/
theorem exists_represents (hm : m.Inv) {id : NodeId} {r : NodeRecord}
    (hr : m.record? id = some r) :
    r.level ≤ m.level ∧ ∃ e : Asg r.level → ℕ, Represents m r.level e id ∧ number e = e := by
  obtain ⟨hlevel, e, he⟩ := hm.canonical id r hr
  exact ⟨hlevel, number e, he.numbered, number_number e⟩

/-- The same for a node whose level is known under another name. -/
theorem exists_represents_at (hm : m.Inv) {id : NodeId} {r : NodeRecord}
    (hr : m.record? id = some r) {k : ℕ} (hlevel : r.level = k) :
    ∃ e : Asg k → ℕ, Represents m k e id := by
  subst hlevel
  obtain ⟨-, e, he, -⟩ := hm.exists_represents hr
  exact ⟨e, he⟩

end Manager.Inv

/-- A manager is made exactly for the levels in range. -/
theorem Manager.new_eq {L : ℕ} {m : Manager} (h : Manager.new L = .ok m) :
    (1 ≤ L ∧ L ≤ 30) ∧ m = Manager.fresh L := by
  unfold Manager.new at h
  by_cases hpos : 1 ≤ L
  · by_cases hle : L ≤ 30
    · rw [assert_of_true (decide_eq_true hpos), assert_of_true (decide_eq_true hle), pure_bind,
        pure_bind] at h
      exact ⟨⟨hpos, hle⟩, (Except.ok.inj h).symm⟩
    · rw [assert_of_true (decide_eq_true hpos), pure_bind,
        assert_of_false (decide_eq_false hle)] at h
      cases h
  · rw [assert_of_false (decide_eq_false hpos)] at h
    cases h

/-- A fresh manager satisfies the invariant. -/
theorem Manager.fresh_inv {L : ℕ} (hL : 1 ≤ L ∧ L ≤ 30) : (Manager.fresh L).Inv where
  level_mem := hL
  canonical := by
    rintro ⟨i⟩ r hr
    have hlt : i < 2 := (List.getElem?_eq_some_iff.mp hr).choose
    obtain rfl | rfl : i = 0 ∨ i = 1 := by omega
    · obtain rfl : NodeRecord.dontCare = r := Option.some.inj hr
      exact ⟨Nat.zero_le _, fun _ => 0, Represents.dontCare rfl⟩
    · obtain rfl : NodeRecord.fork = r := Option.some.inj hr
      exact ⟨Nat.zero_le _, fun a => (a.get 0).toNat, Represents.fork (by decide)⟩
  rmSingleton0 := rfl
  rmSingleton1 := rfl
  rmIdentity2 := rfl
  tableLength := List.length_replicate
  noDistinction k id hk := by
    simp [lookupNoDistinction, Manager.fresh, List.getElem?_replicate] at hk
    split at hk <;> simp at hk
  pairProducts _ _ hk := by cases hk
  reductions _ _ hk := by cases hk
  pathCounts _ _ hk := by cases hk
  trace _ hcall := by cases hcall

end Cflobdd
