import Cflobdd.Isomorphism

/-!
# No panic is reachable

Every public call of a reachable session returns, so none of its checks fails: no debug
assertion, no index out of range, no unreachable arm, no underflow and no overflow. The
trace of the calls of `reduce` and `reduce_inner` shows that their arguments always fit and
that the leaf arms of `reduce_inner` are not taken.
-/

namespace Cflobdd

open FirstVisit Growing

/-- The arguments of a call of `reduce` fit its node: the map has an entry for each exit, it
is onto the new exits, and these first appear in the order `0, 1, 2, ...`. -/
def ReduceFits (m : Manager) (node : NodeId) (red : List ℕ) (newNumExits : ℕ) : Prop :=
  ∃ r, m.record? node = some r ∧ red.length = r.numExits ∧
    (∀ exit, exit ∈ red ↔ exit < newNumExits) ∧ firstSeen red = List.range newNumExits

/-- Every call of `reduce` so far had fitting arguments, and every call of `reduce_inner` was
on an internal node. -/
structure ReduceCallsFit (m : Manager) : Prop where
  reduce : ∀ node red newNumExits, .reduce node red newNumExits ∈ m.probe.trace →
    ReduceFits m node red newNumExits
  reduceInner : ∀ node red newNumExits, .reduceInner node red newNumExits ∈ m.probe.trace →
    ReduceFits m node red newNumExits ∧
      ∃ level numExits aConn bConns,
        m.record? node = some (.internal level numExits aConn bConns)

/-- A good reduction satisfies what the assertions ask of it. -/
theorem GoodReduction.fits {m : Manager} {node : NodeId} {red : List ℕ} {newNumExits : ℕ}
    (h : GoodReduction m node red newNumExits) : ReduceFits m node red newNumExits := by
  obtain ⟨r, hr, hlen, hfirst⟩ := h
  refine ⟨r, hr, hlen, fun exit => ?_, hfirst⟩
  rw [← mem_firstSeen, hfirst, List.mem_range]

/-- By the invariant all calls in the trace fit. -/
theorem Manager.Inv.reduceCallsFit {m : Manager} (hm : m.Inv)
    (hshortcuts : m.probe.shortcuts = true) : ReduceCallsFit m where
  reduce node red newNumExits h := (hm.trace _ h).fits
  reduceInner node red newNumExits h := by
    obtain ⟨hgood, hinternal⟩ := hm.trace _ h
    obtain ⟨r, hr, hlevel⟩ := hinternal hshortcuts
    refine ⟨hgood.fits, ?_⟩
    cases r with
    | dontCare => exact absurd hlevel (by decide)
    | fork => exact absurd hlevel (by decide)
    | internal level numExits aConn bConns => exact ⟨level, numExits, aConn, bConns, hr⟩

/-- The structural counts of a returned diagram are computed. -/
theorem Session.Valid.counts {L : ℕ} {s : Session} (hs : s.Valid L) {f : Returned}
    (hf : f ∈ s.returned) :
    (∃ nodes, s.manager.reachableNodeCount f.bdd = .ok nodes) ∧
      ∃ edges, s.manager.reachableEdgeCount f.bdd = .ok edges := by
  obtain ⟨r, hr, -⟩ := (hs.returned f hf).root.record
  obtain ⟨hnodes, hedges⟩ := Manager.counts_eq hs.inv hr
  exact ⟨⟨_, hnodes⟩, _, hedges⟩

/-- **No panic is reachable:** in every reachable session every public call with variables
in range, tables of zeros and ones and returned diagrams returns a result, and every call
of `reduce` and `reduce_inner` made up to then had fitting arguments. -/
theorem no_panic {L : ℕ} {s : Session} (hs : Reachable L s) :
    (∀ call : Call Returned, (∀ x ∈ call.args, x ∈ s.returned) → call.InRange L →
      ∃ f m', (call.map Returned.bdd).exec s.manager = .ok f m' ∧ ReduceCallsFit m') ∧
    (∀ f ∈ s.returned, L ≤ 6 → ∃ count m', pathCount f.bdd s.manager = .ok count m') ∧
    (∀ f ∈ s.returned, ∀ a : List Bool, a.length = 2 ^ L →
      ∃ b, s.manager.evaluate f.bdd a = .ok b) ∧
    (∀ f ∈ s.returned, (∃ nodes, s.manager.reachableNodeCount f.bdd = .ok nodes) ∧
      ∃ edges, s.manager.reachableEdgeCount f.bdd = .ok edges) := by
  refine ⟨?_, ?_, ?_, fun f hf => hs.valid.counts hf⟩
  · intro call hargs hrange
    obtain ⟨f, m', hok, hle, hm', -⟩ := hs.valid.exec_returns call hargs hrange
    exact ⟨f, m', hok, hm'.reduceCallsFit (hle.shortcuts.trans hs.valid.shortcuts)⟩
  · intro f hf hL
    obtain ⟨count, m', hok, -⟩ := hs.valid.pathCount_returns hf hL
    exact ⟨count, m', hok⟩
  · intro f hf a ha
    exact ⟨_, hs.valid.evaluate hf ha⟩

theorem no_panic_sample :
    (∀ call : Call Returned, (∀ x ∈ call.args, x ∈ sampleSession.returned) → call.InRange 1 →
      ∃ f m', (call.map Returned.bdd).exec sampleSession.manager = .ok f m' ∧
        ReduceCallsFit m') ∧
    (∀ f ∈ sampleSession.returned, 1 ≤ 6 →
      ∃ count m', pathCount f.bdd sampleSession.manager = .ok count m') ∧
    (∀ f ∈ sampleSession.returned, ∀ a : List Bool, a.length = 2 ^ 1 →
      ∃ b, sampleSession.manager.evaluate f.bdd a = .ok b) ∧
    (∀ f ∈ sampleSession.returned,
      (∃ nodes, sampleSession.manager.reachableNodeCount f.bdd = .ok nodes) ∧
        ∃ edges, sampleSession.manager.reachableEdgeCount f.bdd = .ok edges) :=
  no_panic sampleSession_reachable

end Cflobdd
