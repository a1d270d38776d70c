import Cflobdd.Growing.Additions

/-!
# What a program costs

`Costs μ c` bounds how far a program lets a measure of its state grow, whether it returns or
fails. Costs add up along a sequence of programs, and what follows is charged on the state
and the result that the first program has left.
-/

namespace Growing

variable {ε σ α β : Type} {μ : σ → ℕ} {c d : ℕ} {f : EStateM ε σ α} {s : σ}

/-- The measure grows by at most `c`, whether the program returns or fails. -/
def Costs (μ : σ → ℕ) (c : ℕ) (f : EStateM ε σ α) (s : σ) : Prop :=
  Within (fun s s' => μ s' ≤ μ s + c) f s

namespace Costs

/-- What a result has cost. -/
theorem le_of_ok {a : α} {s' : σ} (h : Costs μ c f s) (hok : f s = .ok a s') :
    μ s' ≤ μ s + c := by
  rwa [Costs, Within, Ends, hok] at h

/-- What a failure has cost. -/
theorem le_of_error {e : ε} {s' : σ} (h : Costs μ c f s) (herror : f s = .error e s') :
    μ s' ≤ μ s + c := by
  rwa [Costs, Within, Ends, herror] at h

/-- A program that keeps the measure is free. -/
theorem free {R : σ → σ → Prop} (h : Within R f s) (hR : ∀ s', R s s' → μ s' = μ s) :
    Costs μ c f s :=
  Within.mono h fun s' hs' => show μ s' ≤ μ s + c by rw [hR s' hs']; omega

/-- A program that fails at once is free. -/
theorem of_unchanged {e : ε} (h : f s = .error e s) : Costs μ c f s := by
  rw [Costs, Within, Ends, h]
  exact Nat.le_add_right _ _

/-- Costs add up along a program. -/
theorem bind {g : α → EStateM ε σ β} (hf : Costs μ c f s)
    (hg : ∀ a s', f s = .ok a s' → Costs μ d (g a) s') : Costs μ (c + d) (f >>= g) s := by
  refine Ends.bind (Ends.mono (Ends.observed hf) (fun _ _ h => h) fun e s' hle => ?_) ?_
  · exact hle.trans (Nat.add_le_add_left (Nat.le_add_right c d) _)
  · rintro a s' ⟨hok, hle⟩
    have hrest : ∀ s'', μ s'' ≤ μ s' + d → μ s'' ≤ μ s + (c + d) := by
      intro s'' hle'
      omega
    exact Ends.mono (hg a s' hok) (fun _ => hrest) fun _ => hrest

/-- What comes before is free. -/
theorem free_bind {g : α → EStateM ε σ β} (hf : Costs μ 0 f s)
    (hg : ∀ a s', f s = .ok a s' → Costs μ d (g a) s') : Costs μ d (f >>= g) s := by
  have hbind := hf.bind hg
  rwa [Nat.zero_add] at hbind

end Costs

end Growing
