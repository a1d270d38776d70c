import Cflobdd.Growing.Runs

/-!
# Outcomes of programs that may fail

`Ends` says what holds after a program, whether it returns or fails. It is a triple for
partial correctness with a postcondition for each way to end. Where the two postconditions
exclude each other it decides which way the program ends.
-/

namespace Growing

variable {ε σ α β : Type}

/-- `Q` holds when the program returns from `s`, and `E` when it fails. -/
def Ends (f : EStateM ε σ α) (s : σ) (Q : α → σ → Prop) (E : ε → σ → Prop) : Prop :=
  match f s with
  | .ok a s' => Q a s'
  | .error e s' => E e s'

namespace Ends

variable {f : EStateM ε σ α} {s s' : σ} {a : α} {e : ε} {Q R : α → σ → Prop} {E E' : ε → σ → Prop}

/-- What is known of a result. -/
theorem of_ok (h : Ends f s Q E) (hok : f s = .ok a s') : Q a s' := by
  rw [Ends, hok] at h
  exact h

/-- What is known of a failure. -/
theorem of_error (h : Ends f s Q E) (herror : f s = .error e s') : E e s' := by
  rw [Ends, herror] at h
  exact h

/-- A program returns when its failure is excluded. -/
theorem returns (h : Ends f s Q E) (hE : ∀ e s', ¬E e s') : ∃ a s', f s = .ok a s' ∧ Q a s' := by
  cases hresult : f s with
  | ok a s' => exact ⟨a, s', rfl, h.of_ok hresult⟩
  | error e s' => exact absurd (h.of_error hresult) (hE e s')

/-- A program fails when its return is excluded. -/
theorem fails (h : Ends f s Q E) (hQ : ∀ a s', ¬Q a s') :
    ∃ e s', f s = .error e s' ∧ E e s' := by
  cases hresult : f s with
  | ok a s' => exact absurd (h.of_ok hresult) (hQ a s')
  | error e s' => exact ⟨e, s', rfl, h.of_error hresult⟩

/-- Less may be said of results and of failures. -/
theorem mono (h : Ends f s Q E) (hQ : ∀ a s', Q a s' → R a s') (hE : ∀ e s', E e s' → E' e s') :
    Ends f s R E' := by
  unfold Ends at h ⊢
  cases hresult : f s with
  | ok a s' =>
    rw [hresult] at h
    exact hQ a s' h
  | error e s' =>
    rw [hresult] at h
    exact hE e s' h

/-- The postcondition may speak of the run itself. -/
theorem observed (h : Ends f s Q E) : Ends f s (fun a s' => f s = .ok a s' ∧ Q a s') E := by
  unfold Ends at h ⊢
  cases hresult : f s with
  | ok a s' =>
    rw [hresult] at h
    exact ⟨rfl, h⟩
  | error e s' =>
    rw [hresult] at h
    exact h

/-- The rule for returning. -/
theorem pure (h : Q a s) : Ends (Pure.pure a : EStateM ε σ α) s Q E := h

/-- The rule for failing. -/
theorem throw (h : E e s) : Ends (MonadExcept.throw e : EStateM ε σ α) s Q E := h

/-- The rule for two programs, of which either may fail. -/
theorem bind {g : α → EStateM ε σ β} {R : β → σ → Prop} (hf : Ends f s Q E)
    (hg : ∀ a s', Q a s' → Ends (g a) s' R E) : Ends (f >>= g) s R E := by
  unfold Ends at hf
  cases hresult : f s with
  | ok a s' =>
    rw [hresult] at hf
    have hrest := hg a s' hf
    unfold Ends at hrest ⊢
    simp only [Bind.bind, EStateM.bind, hresult]
    exact hrest
  | error e s' =>
    rw [hresult] at hf
    unfold Ends
    simp only [Bind.bind, EStateM.bind, hresult]
    exact hf

/-- A program whose result is known passes it on. -/
theorem bind_ok {g : α → EStateM ε σ β} {R : β → σ → Prop} (hok : f s = .ok a s')
    (hg : Ends (g a) s' R E) : Ends (f >>= g) s R E := by
  unfold Ends at hg ⊢
  simp only [Bind.bind, EStateM.bind, hok]
  exact hg

/-- The invariant rule for a loop over a list, with a list of specification values beside
it. -/
theorem foldlM_forall₂ {γ : Type*} {step : β → α → EStateM ε σ β} {R : γ → α → Prop}
    {I : List γ → β → σ → Prop} {xs : List α} {ys : List γ} {b : β}
    (hR : List.Forall₂ R ys xs) (h₀ : I [] b s)
    (hstep : ∀ done y rest x b s', ys = done ++ y :: rest → R y x → I done b s' →
      Ends (step b x) s' (I (done ++ [y])) E) :
    Ends (xs.foldlM step b) s (I ys) E := by
  suffices hloop : ∀ rest xs done b s', List.Forall₂ R rest xs → ys = done ++ rest →
      I done b s' → Ends (xs.foldlM step b) s' (I ys) E from hloop ys xs [] b s hR rfl h₀
  intro rest
  induction rest with
  | nil =>
    rintro _ done b s' ⟨⟩ hys hI
    rw [List.append_nil] at hys
    subst hys
    exact pure hI
  | cons y rest ih =>
    rintro _ done b s' (_ | ⟨hyx, hrest⟩) hys hI
    rw [List.foldlM_cons]
    refine bind (hstep done y rest _ b s' hys hyx hI) ?_
    intro b' s'' hI'
    exact ih _ (done ++ [y]) b' s'' hrest (by simp [hys]) hI'

/-- The invariant rule for a loop over a list. -/
theorem foldlM {step : β → α → EStateM ε σ β} {I : β → σ → Prop} {xs : List α} {b : β}
    (h₀ : I b s) (hstep : ∀ x ∈ xs, ∀ b s', I b s' → Ends (step b x) s' I E) :
    Ends (xs.foldlM step b) s I E := by
  induction xs generalizing b s with
  | nil => exact pure h₀
  | cons x xs ih =>
    rw [List.foldlM_cons]
    refine bind (hstep x (.head _) b s h₀) fun b' s' hI => ?_
    exact ih hI fun y hy => hstep y (.tail _ hy)

/-- The rule for a memoized computation. -/
theorem memoized {enabled : σ → Bool} {lookup : σ → Option α} {record : α → σ → σ}
    {compute : EStateM ε σ α} (hoff : enabled s = false → Ends compute s Q E)
    (hhit : ∀ a, enabled s = true → lookup s = some a → Q a s)
    (hmiss : enabled s = true → lookup s = none →
      Ends compute s (fun a s' => Q a (record a s')) E) :
    Ends (memoized enabled lookup record compute) s Q E := by
  cases hon : enabled s with
  | false =>
    unfold Ends
    rw [memoized_off hon]
    exact hoff hon
  | true =>
    cases hlookup : lookup s with
    | some a =>
      unfold Ends
      rw [memoized_hit hon hlookup]
      exact hhit a hon hlookup
    | none =>
      unfold Ends
      rw [memoized_on hon, hlookup]
      change Ends (compute >>= fun a => modify (record a) >>= fun _ => Pure.pure a) s Q E
      exact (hmiss hon hlookup).bind fun a s' hQ => hQ

end Ends

end Growing
