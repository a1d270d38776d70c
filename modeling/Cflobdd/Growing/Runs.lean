import Mathlib.Data.List.Forall2
import Mathlib.Order.Basic

/-!
# Programs over a state that only grows

A program that hash-conses or memoizes changes its state, but only by adding to
it, and running it a second time on a state that contains the results of the first
run adds nothing. `Runs` is a total-correctness triple for such programs. Besides
the postcondition it carries the growth of the state, the invariant, and the
repetition of the run in every later state, so that all four are proved in one walk
through the program.
-/

namespace Growing

variable {ε σ α β : Type} [Preorder σ] {Inv : σ → Prop}

/-- The program `f` returns from `s`. The state grows and keeps the invariant, the
result satisfies `Q`, and from every later state `f` returns the same result and
leaves the state as large as it was. -/
def Runs (Inv : σ → Prop) (f : EStateM ε σ α) (s : σ) (Q : α → σ → Prop) : Prop :=
  ∃ a s', f s = .ok a s' ∧ s ≤ s' ∧ Inv s' ∧ Q a s' ∧
    ∀ t, Inv t → s' ≤ t → ∃ t', f t = .ok a t' ∧ t ≤ t' ∧ t' ≤ t ∧ Inv t'

namespace Runs

variable {f : EStateM ε σ α} {s s' : σ} {a : α} {Q : α → σ → Prop}

/-- What is known of a program that runs holds of the run that is observed. -/
theorem of_ok (h : Runs Inv f s Q) (hok : f s = .ok a s') : s ≤ s' ∧ Inv s' ∧ Q a s' := by
  obtain ⟨b, t, ht, hst, hInv, hQ, -⟩ := h
  rw [hok] at ht
  cases ht
  exact ⟨hst, hInv, hQ⟩

/-- A run that is observed can be repeated in every later state. -/
theorem repeats (h : Runs Inv f s Q) (hok : f s = .ok a s') {t : σ} (ht : Inv t) (hle : s' ≤ t) :
    ∃ t', f t = .ok a t' ∧ t ≤ t' ∧ t' ≤ t ∧ Inv t' := by
  obtain ⟨b, u, hu, -, -, -, hrepeat⟩ := h
  rw [hok] at hu
  cases hu
  exact hrepeat t ht hle

/-- Less may be said of the result. -/
theorem mono {R : α → σ → Prop} (h : Runs Inv f s Q)
    (hQR : ∀ a s', s ≤ s' → Inv s' → Q a s' → R a s') : Runs Inv f s R := by
  obtain ⟨a, s', hok, hle, hInv, hQ, hrepeat⟩ := h
  exact ⟨a, s', hok, hle, hInv, hQR a s' hle hInv hQ, hrepeat⟩

/-- A program that reads the same result from every later state and changes none. -/
theorem read (hs : Inv s) (h : ∀ t, s ≤ t → Inv t → f t = .ok a t) (hQ : Q a s) :
    Runs Inv f s Q :=
  ⟨a, s, h s le_rfl hs, le_rfl, hs, hQ, fun t ht hle => ⟨t, h t hle ht, le_rfl, le_rfl, ht⟩⟩

/-- The rule for returning. -/
theorem pure (hs : Inv s) (hQ : Q a s) : Runs Inv (Pure.pure a : EStateM ε σ α) s Q :=
  read hs (fun _ _ _ => rfl) hQ

/-- The rule for two programs. -/
theorem bind {g : α → EStateM ε σ β} {R : β → σ → Prop} (hf : Runs Inv f s Q)
    (hg : ∀ a s', s ≤ s' → Inv s' → Q a s' → Runs Inv (g a) s' R) :
    Runs Inv (f >>= g) s R := by
  obtain ⟨a, s₁, hf₁, hle₁, hInv₁, hQ, hrepeat₁⟩ := hf
  obtain ⟨b, s₂, hg₂, hle₂, hInv₂, hR, hrepeat₂⟩ := hg a s₁ hle₁ hInv₁ hQ
  refine ⟨b, s₂, ?_, hle₁.trans hle₂, hInv₂, hR, ?_⟩
  · simp only [Bind.bind, EStateM.bind, hf₁, hg₂]
  · intro t ht hle
    obtain ⟨t₁, hft, hle_t₁, ht₁_le, ht₁⟩ := hrepeat₁ t ht (hle₂.trans hle)
    obtain ⟨t₂, hgt, hle_t₂, ht₂_le, ht₂⟩ := hrepeat₂ t₁ ht₁ (hle.trans hle_t₁)
    refine ⟨t₂, ?_, hle_t₁.trans hle_t₂, ht₂_le.trans ht₁_le, ht₂⟩
    simp only [Bind.bind, EStateM.bind, hft, hgt]

/-- Two programs whose results satisfy one condition, of which there is only one, return the
same result when they are run one after the other. -/
theorem agree {g : EStateM ε σ α} {P : σ → α → Prop} (hf : Runs Inv f s fun a t => P t a)
    (hg : ∀ t, s ≤ t → Inv t → Runs Inv g t fun a u => P u a)
    (hmono : ∀ t u a, t ≤ u → P t a → P u a) (hunique : ∀ t a b, P t a → P t b → a = b) :
    ∃ a t u, f s = .ok a t ∧ g t = .ok a u := by
  obtain ⟨a, t, hft, hst, ht, ha, -⟩ := hf
  obtain ⟨b, u, hgu, htu, -, hb, -⟩ := hg t hst ht
  obtain rfl : a = b := hunique u a b (hmono t u a htu ha) hb
  exact ⟨a, t, u, hft, hgu⟩

/-- A read whose result is known passes it on. -/
theorem read_bind {g : α → EStateM ε σ β} {R : β → σ → Prop} (hs : Inv s)
    (h : ∀ t, s ≤ t → Inv t → f t = .ok a t) (hg : Runs Inv (g a) s R) :
    Runs Inv (f >>= g) s R := by
  obtain ⟨b, s', hok, hle, hInv, hR, hrepeat⟩ := hg
  refine ⟨b, s', ?_, hle, hInv, hR, ?_⟩
  · simp only [Bind.bind, EStateM.bind, h s le_rfl hs, hok]
  · intro t ht hle'
    obtain ⟨t', hgt, hrest⟩ := hrepeat t ht hle'
    refine ⟨t', ?_, hrest⟩
    simp only [Bind.bind, EStateM.bind, h t (hle.trans hle') ht, hgt]

/-- The invariant rule for a loop over a list, with a list of specification values beside
it. `I` speaks of the values of the entries already processed, the loop variables and the
state. -/
theorem foldlM_forall₂ {γ : Type*} {step : β → α → EStateM ε σ β} {R : γ → α → Prop}
    {I : List γ → β → σ → Prop} {xs : List α} {ys : List γ} {b : β}
    (hR : List.Forall₂ R ys xs) (hs : Inv s) (h₀ : I [] b s)
    (hstep : ∀ done y rest x b s', ys = done ++ y :: rest → R y x → s ≤ s' → Inv s' →
      I done b s' → Runs Inv (step b x) s' (I (done ++ [y]))) :
    Runs Inv (xs.foldlM step b) s (I ys) := by
  suffices hloop : ∀ rest xs done b s', List.Forall₂ R rest xs → ys = done ++ rest → s ≤ s' →
      Inv s' → I done b s' → Runs Inv (xs.foldlM step b) s' (I ys) from
    hloop ys xs [] b s hR rfl le_rfl hs h₀
  intro rest
  induction rest with
  | nil =>
    rintro _ done b s' ⟨⟩ hys _ hs' hI
    rw [List.append_nil] at hys
    subst hys
    exact pure hs' hI
  | cons y rest ih =>
    rintro _ done b s' (_ | ⟨hyx, hrest⟩) hys hle hs' hI
    rw [List.foldlM_cons]
    refine bind (hstep done y rest _ b s' hys hyx hle hs' hI) ?_
    intro b' s'' hle' hs'' hI'
    exact ih _ (done ++ [y]) b' s'' hrest (by simp [hys]) (hle.trans hle') hs'' hI'

end Runs

omit [Preorder σ] in
/-- A loop fails when one of its steps does and the steps before it keep what makes it fail. -/
theorem foldlM_throw (ok : β → Prop) {step : β → α → EStateM ε σ β} {e : ε} {xs : List α}
    (hstep : ∀ x ∈ xs, ∀ b, ok b → step b x = throw e ∨ ∃ b', step b x = Pure.pure b' ∧ ok b')
    (hfail : ∃ x ∈ xs, ∀ b, ok b → step b x = throw e) {b : β} (hb : ok b) :
    xs.foldlM step b = throw e := by
  induction xs generalizing b with
  | nil =>
    obtain ⟨x, hx, -⟩ := hfail
    cases hx
  | cons x xs ih =>
    rw [List.foldlM_cons]
    rcases hstep x (.head _) b hb with hthrow | ⟨b', hpure, hb'⟩
    · rw [hthrow]
      rfl
    · obtain ⟨y, hy, hfail⟩ := hfail
      rcases List.mem_cons.mp hy with rfl | hy
      · rw [hfail b hb]
        rfl
      · rw [hpure, pure_bind]
        exact ih (fun x hx => hstep x (.tail _ hx)) ⟨y, hy, hfail⟩ hb'

/-- Look a result up; compute and record it where it is missing. While the memo is
switched off the result is computed every time. -/
def memoized (enabled : σ → Bool) (lookup : σ → Option α) (record : α → σ → σ)
    (compute : EStateM ε σ α) : EStateM ε σ α := do
  if enabled (← get) then
    match lookup (← get) with
    | some a => return a
    | none =>
      let a ← compute
      modify (record a)
      return a
  else compute

section Memo

variable {enabled : σ → Bool} {lookup : σ → Option α} {record : α → σ → σ}
  {compute : EStateM ε σ α} {s s' : σ} {a : α}

omit [Preorder σ] in
/-- With the table in use. -/
theorem memoized_on (h : enabled s = true) :
    memoized enabled lookup record compute s =
      (match lookup s with
        | some a => return a
        | none => do
          let a ← compute
          modify (record a)
          return a) s := by
  change (if enabled s = true then _ else compute) s = _
  rw [if_pos h]
  rfl

omit [Preorder σ] in
/-- An entry that is found is returned, and nothing changes. -/
theorem memoized_hit (h : enabled s = true) (ha : lookup s = some a) :
    memoized enabled lookup record compute s = .ok a s := by
  rw [memoized_on h, ha]
  rfl

omit [Preorder σ] in
/-- What is missing is computed and recorded. -/
theorem memoized_miss (h : enabled s = true) (ha : lookup s = none)
    (hok : compute s = .ok a s') :
    memoized enabled lookup record compute s = .ok a (record a s') := by
  rw [memoized_on h, ha]
  simp only [Bind.bind, EStateM.bind, hok]
  rfl

omit [Preorder σ] in
/-- With the table switched off. -/
theorem memoized_off (h : enabled s = false) :
    memoized enabled lookup record compute s = compute s := by
  change (if enabled s = true then _ else compute) s = _
  rw [if_neg (ne_true_of_eq_false h)]

/-- The rule for a memoized computation. What is looked up has to be what the computation
gives, recording has to keep what was recorded, and a recorded result has to be found.
Then the result is found in the table as long as the memo is on. -/
theorem Runs.memoized_found {Q : α → σ → Prop} (hs : Inv s)
    (henabled : ∀ t, s ≤ t → enabled t = enabled s)
    (hkeep : ∀ t u a, s ≤ t → t ≤ u → Inv t → Inv u → lookup t = some a → lookup u = some a)
    (hhit : ∀ a, lookup s = some a → Q a s)
    (hcompute : Runs Inv compute s Q)
    (hrecord : ∀ a t, s ≤ t → Inv t → Q a t →
      t ≤ record a t ∧ Inv (record a t) ∧ Q a (record a t) ∧ lookup (record a t) = some a) :
    Runs Inv (memoized enabled lookup record compute) s fun a t =>
      Q a t ∧ (enabled s = true → lookup t = some a) := by
  cases hon : enabled s with
  | false =>
    obtain ⟨a, s', hok, hle, hInv, hQ, hrepeat⟩ := hcompute
    refine ⟨a, s', by rw [memoized_off hon, hok], hle, hInv, ⟨hQ, by simp⟩, ?_⟩
    intro t ht hle'
    have hoff : enabled t = false := by rw [henabled t (hle.trans hle'), hon]
    rw [memoized_off hoff]
    exact hrepeat t ht hle'
  | true =>
    cases hlookup : lookup s with
    | some a =>
      refine Runs.read hs ?_ ⟨hhit a hlookup, fun _ => hlookup⟩
      intro t hle ht
      exact memoized_hit (by rw [henabled t hle, hon]) (hkeep s t a le_rfl hle hs ht hlookup)
    | none =>
      obtain ⟨a, s', hok, hle, hInv, hQ, -⟩ := hcompute
      obtain ⟨hle', hInv', hQ', hfound⟩ := hrecord a s' hle hInv hQ
      refine ⟨a, record a s', memoized_miss hon hlookup hok, hle.trans hle', hInv',
        ⟨hQ', fun _ => hfound⟩, ?_⟩
      intro t ht hle''
      have hst : s ≤ t := (hle.trans hle').trans hle''
      refine ⟨t, memoized_hit (by rw [henabled t hst, hon]) ?_, le_rfl, le_rfl, ht⟩
      exact hkeep (record a s') t a (hle.trans hle') hle'' hInv' ht hfound

/-- The same rule without the table. -/
theorem Runs.memoized {Q : α → σ → Prop} (hs : Inv s)
    (henabled : ∀ t, s ≤ t → enabled t = enabled s)
    (hkeep : ∀ t u a, s ≤ t → t ≤ u → Inv t → Inv u → lookup t = some a → lookup u = some a)
    (hhit : ∀ a, lookup s = some a → Q a s)
    (hcompute : Runs Inv compute s Q)
    (hrecord : ∀ a t, s ≤ t → Inv t → Q a t →
      t ≤ record a t ∧ Inv (record a t) ∧ Q a (record a t) ∧ lookup (record a t) = some a) :
    Runs Inv (memoized enabled lookup record compute) s Q :=
  (Runs.memoized_found hs henabled hkeep hhit hcompute hrecord).mono fun _ _ _ _ h => h.1

end Memo

end Growing
