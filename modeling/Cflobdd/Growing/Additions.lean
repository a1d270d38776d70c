import Cflobdd.FirstVisit.Dedup
import Cflobdd.Growing.Outcomes
import Mathlib.Data.List.Perm.Subperm
import Mathlib.Data.Set.Basic
import Mathlib.Order.Defs.Unbundled

/-!
# What a program adds to its tables

`Within` bounds the effect of a program by a relation between the state before and the state
after, whether the program returns or fails. `Table.Adds` is such a relation: entries are
added for some keys only, and never for a key that is there. Keys are compared through a
view of them, so that a table may be looked up under several keys that count as one.
-/

namespace Growing

variable {ε σ α β : Type}

/-- The program moves the state along `R`, whether it returns or fails. -/
def Within (R : σ → σ → Prop) (f : EStateM ε σ α) (s : σ) : Prop :=
  Ends f s (fun _ s' => R s s') fun _ s' => R s s'

namespace Within

variable {R W : σ → σ → Prop} {f : EStateM ε σ α} {s : σ}

/-- More may be allowed. -/
theorem mono (h : Within R f s) (hsub : ∀ s', R s s' → W s s') : Within W f s :=
  Ends.mono h (fun _ => hsub) fun _ => hsub

section Preorder

variable [IsPreorder σ R]

/-- Returning changes nothing. -/
theorem pure (a : α) (s : σ) : Within R (Pure.pure a : EStateM ε σ α) s := refl_of R s

/-- Failing changes nothing. -/
theorem throw (e : ε) (s : σ) : Within R (MonadExcept.throw e : EStateM ε σ α) s := refl_of R s

/-- What follows is run from the state that the first program has left. -/
theorem bind {g : α → EStateM ε σ β} (hf : Within R f s)
    (hg : ∀ a s', f s = .ok a s' → R s s' → Within R (g a) s') : Within R (f >>= g) s := by
  refine Ends.bind (Ends.observed hf) ?_
  rintro a s' ⟨hok, hR⟩
  exact Ends.mono (hg a s' hok hR) (fun _ _ => trans_of R hR) fun _ _ => trans_of R hR

/-- The rule for a loop over a list. -/
theorem foldlM {step : β → α → EStateM ε σ β} {xs : List α}
    (hstep : ∀ x ∈ xs, ∀ b s', R s s' → Within R (step b x) s') (b : β) :
    Within R (xs.foldlM step b) s := by
  suffices hloop : ∀ ys, ys ⊆ xs → ∀ b s', R s s' → Within R (ys.foldlM step b) s' from
    hloop xs (List.Subset.refl _) b s (refl_of R s)
  intro ys
  induction ys with
  | nil =>
    intro _ b s' _
    exact pure b s'
  | cons y ys ih =>
    intro hys b s' hR
    obtain ⟨hy, hys⟩ := List.cons_subset.mp hys
    rw [List.foldlM_cons]
    refine bind (hstep y hy b s' hR) ?_
    intro b' s'' _ hR'
    exact ih hys b' s'' (trans_of R hR hR')

/-- The rule for a memoized computation. What is recorded has been missing, and the
computation itself may be known to do less. -/
theorem memoized {enabled : σ → Bool} {lookup : σ → Option α} {record : α → σ → σ}
    {compute : EStateM ε σ α} (hcompute : Within W compute s) (hsub : ∀ s', W s s' → R s s')
    (hrecord : ∀ a s', lookup s = none → W s s' → R s' (record a s')) :
    Within R (memoized enabled lookup record compute) s := by
  refine Ends.memoized (fun _ => hcompute.mono hsub) (fun _ _ _ => refl_of R s) ?_
  intro _ hmiss
  refine Ends.mono hcompute ?_ fun _ => hsub
  intro a s' hW
  exact trans_of R (hsub s' hW) (hrecord a s' hmiss hW)

end Preorder

/-- What has changed at a result. -/
theorem of_ok {a : α} {s' : σ} (h : Within R f s) (hok : f s = .ok a s') : R s s' := by
  rwa [Within, Ends, hok] at h

/-- What has changed at a failure. -/
theorem of_error {e : ε} {s' : σ} (h : Within R f s) (herror : f s = .error e s') : R s s' := by
  rwa [Within, Ends, herror] at h

end Within

/-- A first program of which only its effect is known. -/
theorem Ends.bind_within {R : σ → σ → Prop} {f : EStateM ε σ α} {g : α → EStateM ε σ β} {s : σ}
    {Q : β → σ → Prop} (hf : Within R f s)
    (hg : ∀ a s', R s s' → Ends (g a) s' Q fun _ _ => True) :
    Ends (f >>= g) s Q fun _ _ => True :=
  Ends.bind (Ends.mono hf (fun _ _ h => h) fun _ _ _ => trivial) hg

/-- A first program that leaves the state alone. -/
theorem Ends.bind_unchanged {f : EStateM ε σ α} {g : α → EStateM ε σ β} {s : σ}
    {Q : β → σ → Prop} (hf : Within Eq f s) (hg : ∀ a, Ends (g a) s Q fun _ _ => True) :
    Ends (f >>= g) s Q fun _ _ => True := by
  refine Ends.bind_within hf ?_
  rintro a _ rfl
  exact hg a

end Growing

namespace FirstVisit

variable {κ ι ν : Type*}

/-- There are no more things than names when no two of them have one name. -/
theorem length_le_of_names {xs : List κ} {names : List ι} (name : κ → ι)
    (hnodup : (xs.map name).Nodup) (hnames : ∀ x ∈ xs, name x ∈ names) :
    xs.length ≤ names.length := by
  have hsubset : xs.map name ⊆ names := List.forall_mem_map.mpr hnames
  have hle := (hnodup.subperm hsubset).length_le
  rwa [List.length_map] at hle

namespace Table

/-- The keys of the entries through a view, newest first. -/
def keys (view : κ → ι) (t : Table κ ν) : List ι := t.entries.map fun e => view e.1

/-- `t'` has the entries of `t` and others in front of them, with keys in `P` that have been
missing when their entry was added. -/
structure Adds (view : κ → ι) (P : Set κ) (t t' : Table κ ν) : Prop where
  entries : ∃ new, t'.entries = new ++ t.entries ∧ ∀ e ∈ new, e.1 ∈ P
  nodup : (t.keys view).Nodup → (t'.keys view).Nodup

section Adds

variable {view : κ → ι} {P P' : Set κ} {t t' t'' : Table κ ν} {k : κ}

/-- A table adds nothing to itself. -/
theorem Adds.refl (t : Table κ ν) : Adds view P t t :=
  ⟨⟨[], rfl, fun _ he => absurd he List.not_mem_nil⟩, fun h => h⟩

/-- Additions one after the other. -/
theorem Adds.trans (h : Adds view P t t') (h' : Adds view P t' t'') : Adds view P t t'' := by
  obtain ⟨new, hnew, hP⟩ := h.entries
  obtain ⟨new', hnew', hP'⟩ := h'.entries
  refine ⟨⟨new' ++ new, by rw [hnew', hnew, List.append_assoc], fun e he => ?_⟩,
    fun hnodup => h'.nodup (h.nodup hnodup)⟩
  rcases List.mem_append.mp he with he | he
  · exact hP' e he
  · exact hP e he

/-- More keys may be allowed. -/
theorem Adds.mono (h : Adds view P t t') (hP : P ⊆ P') : Adds view P' t t' := by
  obtain ⟨⟨new, hnew, hkeys⟩, hnodup⟩ := h
  exact ⟨⟨new, hnew, fun e he => hP (hkeys e he)⟩, hnodup⟩

/-- Without keys to add, nothing is added. -/
theorem Adds.entries_eq (h : Adds view ∅ t t') : t'.entries = t.entries := by
  obtain ⟨new, hnew, hkeys⟩ := h.entries
  obtain rfl : new = [] := List.eq_nil_iff_forall_not_mem.mpr fun e he => hkeys e he
  exact hnew

/-- A key that is not among those added is missing if it was missing. -/
theorem Adds.not_mem (h : Adds view P t t') (hP : ∀ k' ∈ P, view k' ≠ view k)
    (hk : view k ∉ t.keys view) : view k ∉ t'.keys view := by
  obtain ⟨new, hnew, hkeys⟩ := h.entries
  intro hmem
  obtain ⟨e, he, heq⟩ := List.mem_map.mp hmem
  rw [hnew, List.mem_append] at he
  rcases he with he | he
  · exact hP _ (hkeys e he) heq
  · exact hk (List.mem_map.mpr ⟨e, he, heq⟩)

/-- An entry is added for a key that is missing. -/
theorem Adds.insert (hP : k ∈ P) (hk : view k ∉ t.keys view) (v : ν) :
    Adds view P t (t.insert k v) where
  entries := ⟨[(k, v)], rfl, fun e he => by rwa [List.mem_singleton.mp he]⟩
  nodup h := List.nodup_cons.mpr ⟨hk, h⟩

/-- A table without repeated keys gets at most one entry for each key that may be added. -/
theorem Adds.exists_new (h : Adds view P t t') (hnodup : (t.keys view).Nodup) (views : List ι)
    (hviews : ∀ k ∈ P, view k ∈ views) :
    ∃ new, t'.entries = new ++ t.entries ∧ (∀ e ∈ new, e.1 ∈ P) ∧ new.length ≤ views.length := by
  obtain ⟨new, hnew, hP⟩ := h.entries
  refine ⟨new, hnew, hP, ?_⟩
  have hnodup' := h.nodup hnodup
  rw [Table.keys, hnew, List.map_append] at hnodup'
  exact length_le_of_names (fun e => view e.1) hnodup'.of_append_left
    fun e he => hviews _ (hP e he)

/-- A key is found exactly if it has an entry. -/
theorem get?_eq_none_iff [DecidableEq κ] (t : Table κ ν) (k : κ) :
    t.get? k = none ↔ k ∉ t.keys id := by
  rw [get?, keys]
  induction t.entries with
  | nil => simp [find?]
  | cons e entries ih =>
    rw [find?, List.map_cons, List.mem_cons, not_or, ← ih]
    by_cases h : e.1 = k
    · simp [h]
    · rw [if_neg h]
      exact ⟨fun hnone => ⟨fun heq => h heq.symm, hnone⟩, fun hnone => hnone.2⟩

end Adds

section Lookup

variable {t : Table κ ν}

/-- A table without repeated keys finds each of its entries. -/
theorem get?_of_mem [DecidableEq κ] (hnodup : (t.keys id).Nodup) {e : κ × ν}
    (he : e ∈ t.entries) : t.get? e.1 = some e.2 := by
  rw [keys] at hnodup
  rw [get?]
  generalize t.entries = entries at hnodup he
  induction entries with
  | nil => cases he
  | cons e' entries ih =>
    rw [List.map_cons, List.nodup_cons] at hnodup
    rw [find?]
    rcases List.mem_cons.mp he with rfl | he
    · exact if_pos rfl
    · rw [if_neg fun heq => hnodup.1 (List.mem_map.mpr ⟨e, he, heq.symm⟩)]
      exact ih hnodup.2 he

end Lookup

end Table

end FirstVisit
