import Cflobdd.Session

/-!
# Soundness and canonicity of sessions

Every returned diagram evaluates, at any later point, to the function that its call
describes, and two returned diagrams are equal exactly if they evaluate alike.
-/

namespace Cflobdd

open FirstVisit

variable {L : ℕ} {s s' : Session}

/-- Functions of flat lists agree when they agree on all assignments. -/
theorem forall_toList_iff {P : List Bool → Prop} :
    (∀ a : Asg L, P a.toList) ↔ ∀ a : List Bool, a.length = 2 ^ L → P a := by
  constructor
  · intro h a ha
    obtain ⟨b, rfl⟩ := Asg.exists_toList ha
    exact h b
  · intro h a
    exact h a.toList (Asg.length_toList a)

/-- A returned diagram evaluates as its function does. -/
theorem Session.Valid.evaluate (hs : s.Valid L) {f : Returned} (hf : f ∈ s.returned)
    {a : List Bool} (ha : a.length = 2 ^ L) :
    s.manager.evaluate f.bdd a = .ok (f.function a) := by
  obtain ⟨b, rfl⟩ := Asg.exists_toList ha
  exact (hs.returned f hf).evaluate hs.level hs.level_le.2 b

/-- **Soundness over a whole run:** a diagram returned at some point evaluates at every
later point to the function that its call describes. -/
theorem evaluate_returned (hs : Reachable L s) {f : Returned} (hf : f ∈ s.returned)
    (hlater : Steps L s s') {a : List Bool} (ha : a.length = 2 ^ L) :
    s'.manager.evaluate f.bdd a = .ok (f.function a) :=
  (Steps.valid hs.valid hlater).evaluate ((Steps.grows hs.valid hlater).2.subset hf) ha

theorem evaluate_returned_sample :
    sampleSession.manager.evaluate ⟨⟨2⟩, ⟨3⟩⟩ [true, false] = .ok false := by
  have hf : sampleNot ∈ sampleLiterals.returned := by
    rw [sampleLiterals_reachable.2]
    exact .tail _ (.head _)
  exact evaluate_returned sampleLiterals_reachable.1 hf sampleSession_steps.1
    (a := [true, false]) rfl

/-- Two returned diagrams of one function are equal. -/
theorem Session.Valid.eq_of_function_eq (hs : s.Valid L) {f g : Returned} (hf : f ∈ s.returned)
    (hg : g ∈ s.returned) (h : ∀ a : List Bool, a.length = 2 ^ L → f.function a = g.function a) :
    f.bdd = g.bdd := by
  have hfunction : (fun a : Asg L => f.function a.toList) = fun a => g.function a.toList :=
    funext (forall_toList_iff.mpr h)
  have hdenotes := hs.returned f hf
  rw [hfunction] at hdenotes
  exact hdenotes.unique (hs.returned g hg)

/-- **Canonicity:** two diagrams returned at any two points of a run are equal as handles
exactly if they evaluate alike on all assignments. -/
theorem eq_iff_evaluate_eq (hs : Reachable L s) {f g : Returned} (hf : f ∈ s.returned)
    (hg : g ∈ s.returned) :
    s.manager.eq f.bdd g.bdd = true ↔
      ∀ a : List Bool, a.length = 2 ^ L →
        s.manager.evaluate f.bdd a = s.manager.evaluate g.bdd a := by
  rw [Manager.eq, decide_eq_true_iff]
  constructor
  · intro heq a _
    rw [heq]
  · intro h
    refine hs.valid.eq_of_function_eq hf hg fun a ha => ?_
    have hevaluate := h a ha
    rw [hs.valid.evaluate hf ha, hs.valid.evaluate hg ha] at hevaluate
    exact Except.ok.inj hevaluate

theorem eq_iff_evaluate_eq_sample :
    sampleSession.manager.eq ⟨⟨2⟩, ⟨2⟩⟩ ⟨⟨2⟩, ⟨3⟩⟩ = true ↔
      ∀ a : List Bool, a.length = 2 ^ 1 → sampleSession.manager.evaluate ⟨⟨2⟩, ⟨2⟩⟩ a =
        sampleSession.manager.evaluate ⟨⟨2⟩, ⟨3⟩⟩ a := by
  have hreturned := sampleSession_steps.2
  refine eq_iff_evaluate_eq sampleSession_reachable (f := sampleVar) (g := sampleNot) ?_ ?_
  · rw [hreturned]
    exact .head _
  · rw [hreturned]
    exact .tail _ (.head _)

end Cflobdd
