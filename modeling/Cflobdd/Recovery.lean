import Cflobdd.Memo
import Cflobdd.Scripts
import Cflobdd.WellFormed

/-!
# Tables with arbitrary entries

`apply` takes a table of words that nothing checks. It panics exactly if an entry above one
is reached by some assignment, and it does so after it has made nodes and filled memo tables.
What it leaves behind is nevertheless a manager in good order: no later answer differs from
what it would have been without the failing call.
-/

namespace Cflobdd

open FirstVisit Growing

/-- The session is what a script leaves of a fresh manager of level `L`. The script may
contain calls that panic. -/
def AfterScript (L : ℕ) (s : Session) : Prop :=
  ∃ m script, Manager.new L = .ok m ∧ s = (Session.run ⟨m, []⟩ script).2

section AfterScript

variable {L : ℕ} {s s' : Session}

/-- Every session that a script leaves is valid. -/
theorem AfterScript.valid (hs : AfterScript L s) : s.Valid L := by
  obtain ⟨m, script, hnew, rfl⟩ := hs
  exact ((Session.Valid.new hnew).run_answers script).2

/-- What a fresh manager has and every command keeps, every script keeps. -/
theorem AfterScript.induction {I : Session → Prop} (hs : AfterScript L s)
    (hnew : ∀ m, Manager.new L = .ok m → I ⟨m, []⟩)
    (hstep : ∀ (s : Session) (command : Command), s.Valid L → I s → I (s.step command).2) :
    I s := by
  obtain ⟨m, script, hm, rfl⟩ := hs
  suffices hrun : ∀ s : Session, s.Valid L → I s → I (s.run script).2 from
    hrun _ (Session.Valid.new hm) (hnew m hm)
  clear hm
  intro s hvalid hI
  induction script generalizing s with
  | nil => exact hI
  | cons command script ih =>
    exact ih _ (hvalid.step_simulates command).valid (hstep s command hvalid hI)

/-- One more command makes a longer script. -/
theorem AfterScript.step (hs : AfterScript L s) (command : Command) :
    AfterScript L (s.step command).2 := by
  obtain ⟨m, script, hnew, rfl⟩ := hs
  refine ⟨m, script ++ [command], hnew, ?_⟩
  generalize (⟨m, []⟩ : Session) = start
  induction script generalizing start with
  | nil => rfl
  | cons c script ih => exact ih (start.step c).2

/-- A step is a command that does not panic. -/
theorem Step.exists_command (h : Step L s s') : ∃ command, (s.step command).2 = s' := by
  cases h with
  | call call hargs hrange hok =>
    obtain ⟨c, hc⟩ := Call.exists_resolve hargs
    refine ⟨.call c, ?_⟩
    unfold Session.step
    dsimp only
    rw [hc]
    dsimp only
    rw [hok]
  | pathCount hf hok =>
    obtain ⟨i, hi⟩ := List.getElem?_of_mem hf
    refine ⟨.pathCount i, ?_⟩
    unfold Session.step
    dsimp only
    rw [hi]
    dsimp only
    rw [hok]

/-- Reachable sessions are left by scripts without panics. -/
theorem Reachable.afterScript (hs : Reachable L s) : AfterScript L s := by
  obtain ⟨m, hnew, hsteps⟩ := hs
  induction hsteps with
  | refl => exact ⟨m, [], hnew, rfl⟩
  | tail _ hstep ih =>
    obtain ⟨command, rfl⟩ := hstep.exists_command
    exact ih.step command

end AfterScript

/-- Some assignment leads to an entry of the table above one. -/
def ReachesLarge (m : Manager) (L : ℕ) (f g : Bdd) (op : BoolOp) : Prop :=
  ∃ (a : List Bool) (x y : Bool), a.length = 2 ^ L ∧ m.evaluate f a = .ok x ∧
    m.evaluate g a = .ok y ∧ 2 ≤ op.entry x y

/-- The diagram `h` of `m'` is the result of `apply` in a session. -/
structure IsApplied (L : ℕ) (s : Session) (f g : Bdd) (op : BoolOp) (h : Bdd) (m' : Manager) :
    Prop where
  store_wellFormed : m'.WellFormed
  wellFormed : BddWellFormed m' L h
  /-- It evaluates to the entries of the table. -/
  evaluate : ∀ a : List Bool, a.length = 2 ^ L → ∃ x y b, s.manager.evaluate f a = .ok x ∧
    s.manager.evaluate g a = .ok y ∧ m'.evaluate h a = .ok b ∧ b.toNat = op.entry x y
  /-- It is equal, as a handle, to the earlier diagrams that evaluate alike. -/
  canonical : ∀ k ∈ s.returned, m'.eq h k.bdd = true ↔
    ∀ a : List Bool, a.length = 2 ^ L → m'.evaluate h a = m'.evaluate k.bdd a

/-- The manager `m'` that a failing call has left is as good as the one before. -/
structure Undisturbed (L : ℕ) (s : Session) (m' : Manager) : Prop where
  store_wellFormed : m'.WellFormed
  /-- All three memo tables are coherent. -/
  memoTransparent : MemoTransparent m'
  /-- Earlier diagrams keep their roots, value maps and values. -/
  root : ∀ k ∈ s.returned, m'.record? k.bdd.root = s.manager.record? k.bdd.root
  values : ∀ k ∈ s.returned, m'.body? k.bdd.values = s.manager.body? k.bdd.values
  evaluate : ∀ k ∈ s.returned, ∀ a : List Bool, a.length = 2 ^ L →
    m'.evaluate k.bdd a = s.manager.evaluate k.bdd a
  pathCount : ∀ k ∈ s.returned, L ≤ 6 → ∃ paths, Gives (pathCount k.bdd) s.manager paths ∧
    Gives (pathCount k.bdd) m' paths
  /-- Every later script has the answers that it has without the failing call. -/
  answers : ∀ script, (Session.run ⟨m', s.returned⟩ script).1 = (s.run script).1

section Apply

variable {L : ℕ} {s : Session}

/-- A session in the place of which another manager has grown answers every script alike. -/
theorem Session.Valid.undisturbed (hs : s.Valid L) {m' : Manager} (hle : s.manager ≤ m')
    (hm' : m'.Inv) : Undisturbed L s m' := by
  have hs' := hs.grow hle hm'
  refine ⟨hm'.wellFormed, hm'.memoTransparent, ?_, ?_, ?_, ?_, ?_⟩
  · intro k hk
    obtain ⟨r, hr, -⟩ := (hs.returned k hk).root.record
    rw [hr, Manager.record?_mono hle hr]
  · intro k hk
    have hbody := (hs.returned k hk).values
    rw [hbody, Manager.body?_mono hle hbody]
  · intro k hk a ha
    rw [hs.evaluate hk ha, hs'.evaluate hk ha]
  · intro k hk hL
    obtain ⟨paths, m₁, hok, -, -, rfl, -⟩ := hs.pathCount_returns hk hL
    obtain ⟨paths', m₂, hok', -, -, rfl, -⟩ := hs'.pathCount_returns hk hL
    exact ⟨_, ⟨m₁, hok⟩, m₂, hok'⟩
  · intro script
    rw [(hs.run_answers script).1, (hs'.run_answers script).1]

/-- The entries that are reached, from the functions. -/
theorem Session.Valid.reachesLarge_iff (hs : s.Valid L) {f g : Returned} (hf : f ∈ s.returned)
    (hg : g ∈ s.returned) (op : BoolOp) : ReachesLarge s.manager L f.bdd g.bdd op ↔
      ∃ a : Asg L, 2 ≤ op.entry (f.function a.toList) (g.function a.toList) := by
  constructor
  · rintro ⟨l, x, y, hlen, hx, hy, hentry⟩
    obtain ⟨a, rfl⟩ := Asg.exists_toList hlen
    rw [hs.evaluate hf hlen, Except.ok.injEq] at hx
    rw [hs.evaluate hg hlen, Except.ok.injEq] at hy
    rw [← hx, ← hy] at hentry
    exact ⟨a, hentry⟩
  · rintro ⟨a, hentry⟩
    have hlen := Asg.length_toList a
    exact ⟨a.toList, _, _, hlen, hs.evaluate hf hlen, hs.evaluate hg hlen, hentry⟩

/-- A diagram of the entries is the result of `apply`. -/
theorem Session.Valid.isApplied (hs : s.Valid L) {f g : Returned} (hf : f ∈ s.returned)
    (hg : g ∈ s.returned) {op : BoolOp}
    (hop : ∀ a : Asg L, op.entry (f.function a.toList) (g.function a.toList) < 2) {h : Bdd}
    {m' : Manager} (hle : s.manager ≤ m') (hm' : m'.Inv)
    (hh : Denotes m' L h fun a => op.eval (f.function a.toList) (g.function a.toList)) :
    IsApplied L s f.bdd g.bdd op h m' := by
  -- The result joins the diagrams of a valid session.
  have hs' := (hs.grow hle hm').concat
    (f := ⟨h, fun l => op.eval (f.function l) (g.function l)⟩) hh
  have hmem := List.mem_append_right s.returned (List.mem_singleton_self
    (⟨h, fun l => op.eval (f.function l) (g.function l)⟩ : Returned))
  refine ⟨hm'.wellFormed, hh.wellFormed, ?_, ?_⟩
  · refine forall_toList_iff.mp fun a => ?_
    have hlen := Asg.length_toList a
    exact ⟨_, _, _, hs.evaluate hf hlen, hs.evaluate hg hlen, hs'.evaluate hmem hlen,
      BoolOp.toNat_eval (hop a)⟩
  · intro k hk
    rw [Manager.eq, decide_eq_true_iff]
    constructor
    · rintro rfl a _
      rfl
    · intro h
      refine hs'.eq_of_function_eq hmem (List.mem_append_left _ hk) fun a ha => ?_
      have hevaluate := h a ha
      rw [hs'.evaluate hmem ha, hs'.evaluate (List.mem_append_left _ hk) ha] at hevaluate
      exact Except.ok.inj hevaluate

/-- **`apply` with an arbitrary table:** in every session, calls that panicked included,
`apply` panics exactly if an entry above one is reached, and then because that entry is out of
range for the table of slots. If it returns, the result is the canonical diagram of the
entries, and if it panics, it leaves the session undisturbed. -/
theorem apply_any_table (hs : AfterScript L s) {f g : Returned} (hf : f ∈ s.returned)
    (hg : g ∈ s.returned) (op : BoolOp) :
    ((∃ m', apply f.bdd g.bdd op s.manager = .error .indexOutOfBounds m') ↔
      ReachesLarge s.manager L f.bdd g.bdd op) ∧
    (∀ h m', apply f.bdd g.bdd op s.manager = .ok h m' → IsApplied L s f.bdd g.bdd op h m') ∧
    ∀ e m', apply f.bdd g.bdd op s.manager = .error e m' →
      e = .indexOutOfBounds ∧ Undisturbed L s m' := by
  have hv := hs.valid
  have hF := hv.returned f hf
  have hG := hv.returned g hg
  rw [hv.reachesLarge_iff hf hg]
  by_cases hop : ∃ a : Asg L, 2 ≤ op.entry (f.function a.toList) (g.function a.toList)
  · obtain ⟨m₁, herror, hle, hm₁⟩ := apply_panics hv.inv hv.level hF hG hop
    refine ⟨iff_of_true ⟨m₁, herror⟩ hop, ?_, ?_⟩
    · intro h m' hok
      rw [herror] at hok
      cases hok
    · intro e m' herror'
      rw [herror] at herror'
      cases herror'
      exact ⟨rfl, hv.undisturbed hle hm₁⟩
  · push Not at hop
    obtain ⟨h₁, m₁, hok, hle, hm₁, ⟨hh₁, -⟩, -⟩ := apply_found hv.inv hv.level hF hG hop
    refine ⟨iff_of_false ?_ ?_, ?_, ?_⟩
    · rintro ⟨m', herror⟩
      rw [hok] at herror
      cases herror
    · rintro ⟨a, ha⟩
      exact absurd (hop a) (not_lt_of_ge ha)
    · intro h m' hok'
      rw [hok] at hok'
      cases hok'
      exact hv.isApplied hf hg hop hle hm₁ hh₁
    · intro e m' herror
      rw [hok] at herror
      cases herror

/-- The variable and its negation reach the entry five. -/
theorem apply_any_table_sample : ∃ m',
    apply sampleVar.bdd sampleNot.bdd #v[#v[0, 5], #v[1, 9]] sampleLiterals.manager =
        .error .indexOutOfBounds m' ∧ Undisturbed 1 sampleLiterals m' := by
  have hv := sampleLiterals_reachable.1.valid
  have h := apply_any_table sampleLiterals_reachable.1.afterScript sampleVar_mem sampleNot_mem
    #v[#v[0, 5], #v[1, 9]]
  obtain ⟨m', herror⟩ := h.1.mpr ⟨[false, false], false, true, rfl,
    hv.evaluate sampleVar_mem rfl, hv.evaluate sampleNot_mem rfl, by decide⟩
  exact ⟨m', herror, (h.2.2 _ m' herror).2⟩

end Apply

end Cflobdd
