import Cflobdd.Semantics

/-!
# Scripts

A script is any sequence of public calls, those included that end in a panic: variables out
of range, tables with entries above one, assignments of the wrong length. The answers to a
script are determined by the functions that the diagrams denote. This is shown by a
simulation: every call answers what a machine answers that keeps functions in the place of
diagrams and has no store at all.
-/

namespace Cflobdd

open FirstVisit Growing

/-- A public call in a script. Diagrams are named by the order in which they were returned. -/
inductive Command where
  | call (call : Call ℕ)
  | pathCount (f : ℕ)
  | evaluate (f : ℕ) (assignment : List Bool)
  | eq (f g : ℕ)

/-- What is observed of a call. The indices in a diagram are not. -/
inductive Answer where
  /-- A diagram was returned. -/
  | made
  /-- A number of assignments was returned. -/
  | count (paths : ℕ)
  /-- A truth value was returned. -/
  | value (b : Bool)
  /-- The call panicked. -/
  | panicked (panic : Panic)
  /-- The call names a diagram that was not returned. -/
  | unknown
  deriving DecidableEq, Repr

/-- The call on the diagrams named by their positions. -/
def Call.resolve {ρ : Type} (xs : List ρ) : Call ℕ → Option (Call ρ)
  | mkTrue => some mkTrue
  | mkFalse => some mkFalse
  | mkProj i => some (mkProj i)
  | apply f g op => do return apply (← xs[f]?) (← xs[g]?) op
  | connective c f g => do return connective c (← xs[f]?) (← xs[g]?)
  | not f => do return not (← xs[f]?)
  | restrict f i v => do return restrict (← xs[f]?) i v
  | compose f i g => do return compose (← xs[f]?) i (← xs[g]?)
  | existsVar f i => do return existsVar (← xs[f]?) i
  | forallVar f i => do return forallVar (← xs[f]?) i

namespace Session

/-- The answer of a session to a command, and the session afterwards. A call that panics
leaves the manager as it was at that point. -/
def step (s : Session) : Command → Answer × Session
  | .call call =>
    match call.resolve s.returned with
    | none => (.unknown, s)
    | some call =>
      match (call.map Returned.bdd).exec s.manager with
      | .ok f m' => (.made, ⟨m', s.returned ++ [⟨f, (call.map Returned.function).describe⟩]⟩)
      | .error e m' => (.panicked e, ⟨m', s.returned⟩)
  | .pathCount f =>
    match s.returned[f]? with
    | none => (.unknown, s)
    | some f =>
      match Cflobdd.pathCount f.bdd s.manager with
      | .ok paths m' => (.count paths, ⟨m', s.returned⟩)
      | .error e m' => (.panicked e, ⟨m', s.returned⟩)
  | .evaluate f assignment =>
    match s.returned[f]? with
    | none => (.unknown, s)
    | some f =>
      match s.manager.evaluate f.bdd assignment with
      | .ok b => (.value b, s)
      | .error e => (.panicked e, s)
  | .eq f g =>
    match s.returned[f]?, s.returned[g]? with
    | some f, some g => (.value (s.manager.eq f.bdd g.bdd), s)
    | _, _ => (.unknown, s)

/-- The answers of a session to a script, and the session afterwards. -/
def run (s : Session) : List Command → List Answer × Session
  | [] => ([], s)
  | command :: script =>
    let (answer, s₁) := s.step command
    let (answers, s₂) := s₁.run script
    (answer :: answers, s₂)

end Session

/-- How a call on functions panics, if it does. -/
def Call.panic? (L : ℕ) : Call (List Bool → Bool) → Option Panic
  | mkProj i | restrict _ i _ | compose _ i _ | existsVar _ i | forallVar _ i =>
    if i < 2 ^ L then none else some (.varIndexOutOfRange i (2 ^ L))
  | apply f g op =>
    if ∀ a : Asg L, op.entry (f a.toList) (g a.toList) < 2 then none else some .indexOutOfBounds
  | _ => none

namespace Command

/-- The answer to a command of a machine that keeps functions of `2 ^ L` variables. -/
def answer (L : ℕ) (fs : List (List Bool → Bool)) : Command → Answer × List (List Bool → Bool)
  | call c =>
    match c.resolve fs with
    | none => (.unknown, fs)
    | some c =>
      match c.panic? L with
      | none => (.made, fs ++ [c.describe])
      | some e => (.panicked e, fs)
  | pathCount f =>
    match fs[f]? with
    | none => (.unknown, fs)
    | some f =>
      if L ≤ 6 then (.count (visits (fun a : Asg L => f a.toList) true), fs)
      else (.panicked (.pathCountLevel L), fs)
  | evaluate f assignment =>
    match fs[f]? with
    | none => (.unknown, fs)
    | some f =>
      -- The length is first compared as a word of 32 bits.
      if assignment.length % 2 ^ 32 ≠ 2 ^ L then (.panicked .assignmentLength, fs)
      else if assignment.length ≠ 2 ^ L then (.panicked (.debugAssert .evaluateLength), fs)
      else (.value (f assignment), fs)
  | eq f g =>
    match fs[f]?, fs[g]? with
    | some f, some g => (.value (decide (∀ a : Asg L, f a.toList = g a.toList)), fs)
    | _, _ => (.unknown, fs)

/-- The answers of this machine to a script, and its functions afterwards. -/
def answers (L : ℕ) (fs : List (List Bool → Bool)) :
    List Command → List Answer × List (List Bool → Bool)
  | [] => ([], fs)
  | command :: script =>
    let (answer, fs₁) := command.answer L fs
    let (answers, fs₂) := answers L fs₁ script
    (answer :: answers, fs₂)

end Command

section Resolve

variable {ρ σ : Type} {xs : List ρ}

/-- Positions name corresponding things in corresponding lists. -/
theorem Call.resolve_map (φ : ρ → σ) (xs : List ρ) (c : Call ℕ) :
    c.resolve (xs.map φ) = (c.resolve xs).map (Call.map φ) := by
  cases c with
  | mkTrue | mkFalse | mkProj i => rfl
  | apply f g _ | connective _ f g | compose f _ g =>
    simp only [resolve, List.getElem?_map]
    cases xs[f]? <;> cases xs[g]? <;> rfl
  | not f | restrict f _ _ | existsVar f _ | forallVar f _ =>
    simp only [resolve, List.getElem?_map]
    cases xs[f]? <;> rfl

/-- The arguments of a resolved call come from the list. -/
theorem Call.mem_of_resolve {c : Call ℕ} {call : Call ρ} (h : c.resolve xs = some call) :
    ∀ x ∈ call.args, x ∈ xs := by
  cases c with
  | mkTrue | mkFalse | mkProj i =>
    obtain rfl := Option.some.inj h
    intro x hx
    cases hx
  | apply f g _ | connective _ f g | compose f _ g =>
    simp only [resolve, Option.pure_def, Option.bind_eq_bind, Option.bind_eq_some_iff,
      Option.some.injEq] at h
    obtain ⟨y, hy, z, hz, rfl⟩ := h
    intro x hx
    rcases List.mem_cons.mp hx with rfl | hx
    · exact List.mem_of_getElem? hy
    · obtain rfl := List.mem_singleton.mp hx
      exact List.mem_of_getElem? hz
  | not f | restrict f _ _ | existsVar f _ | forallVar f _ =>
    simp only [resolve, Option.pure_def, Option.bind_eq_bind, Option.bind_eq_some_iff,
      Option.some.injEq] at h
    obtain ⟨y, hy, rfl⟩ := h
    intro x hx
    obtain rfl := List.mem_singleton.mp hx
    exact List.mem_of_getElem? hy

/-- A call on members of a list is a call on positions of the list. -/
theorem Call.exists_resolve {call : Call ρ} (h : ∀ x ∈ call.args, x ∈ xs) :
    ∃ c : Call ℕ, c.resolve xs = some call := by
  have hposition : ∀ x ∈ call.args, ∃ i : ℕ, xs[i]? = some x :=
    fun x hx => List.getElem?_of_mem (h x hx)
  cases call with
  | mkTrue => exact ⟨mkTrue, rfl⟩
  | mkFalse => exact ⟨mkFalse, rfl⟩
  | mkProj i => exact ⟨mkProj i, rfl⟩
  | apply x y op =>
    obtain ⟨i, hi⟩ := hposition x (.head _)
    obtain ⟨j, hj⟩ := hposition y (.tail _ (.head _))
    exact ⟨apply i j op, by rw [resolve, hi, hj]; rfl⟩
  | connective c x y =>
    obtain ⟨i, hi⟩ := hposition x (.head _)
    obtain ⟨j, hj⟩ := hposition y (.tail _ (.head _))
    exact ⟨connective c i j, by rw [resolve, hi, hj]; rfl⟩
  | compose x n y =>
    obtain ⟨i, hi⟩ := hposition x (.head _)
    obtain ⟨j, hj⟩ := hposition y (.tail _ (.head _))
    exact ⟨compose i n j, by rw [resolve, hi, hj]; rfl⟩
  | not x =>
    obtain ⟨i, hi⟩ := hposition x (.head _)
    exact ⟨not i, by rw [resolve, hi]; rfl⟩
  | restrict x n v =>
    obtain ⟨i, hi⟩ := hposition x (.head _)
    exact ⟨restrict i n v, by rw [resolve, hi]; rfl⟩
  | existsVar x n =>
    obtain ⟨i, hi⟩ := hposition x (.head _)
    exact ⟨existsVar i n, by rw [resolve, hi]; rfl⟩
  | forallVar x n =>
    obtain ⟨i, hi⟩ := hposition x (.head _)
    exact ⟨forallVar i n, by rw [resolve, hi]; rfl⟩

end Resolve

section Panics

variable {m : Manager} {f g : Bdd} {i : ℕ}

/-- A variable out of range is refused before anything is done. -/
theorem mkProj_outOfRange (hi : ¬i < m.totalVars) :
    mkProj i m = .error (.varIndexOutOfRange i m.totalVars) m := by
  have htotal : reads Manager.totalVars m = .ok m.totalVars m := rfl
  unfold mkProj
  rw [bind_ok htotal, assert_of_false (decide_eq_false hi)]
  rfl

@[inherit_doc mkProj_outOfRange] theorem restrict_outOfRange (hi : ¬i < m.totalVars) (v : Bool) :
    restrict f i v m = .error (.varIndexOutOfRange i m.totalVars) m := by
  have htotal : reads Manager.totalVars m = .ok m.totalVars m := rfl
  unfold restrict
  rw [bind_ok htotal, assert_of_false (decide_eq_false hi)]
  rfl

/-- A length that is wrong as a word of 32 bits is refused at once. -/
theorem Manager.evaluate_of_length_mod {a : List Bool} (ha : a.length % 2 ^ 32 ≠ m.totalVars) :
    m.evaluate f a = .error .assignmentLength := by
  rw [Manager.evaluate, assert_of_false (beq_eq_false_iff_ne.mpr ha)]
  rfl

/-- An assignment whose length is right as a word of 32 bits only is found out at the root. -/
theorem Denotes.evaluate_of_length {k : ℕ} {F : Asg (k + 1) → Bool} (h : Denotes m (k + 1) f F)
    (hlevel : m.level = k + 1) {a : List Bool} (hmod : a.length % 2 ^ 32 = 2 ^ (k + 1))
    (ha : a.length ≠ 2 ^ (k + 1)) : m.evaluate f a = .error (.debugAssert .evaluateLength) := by
  obtain ⟨aConn, bConns, hrecord, -⟩ := h.root.parts
  have htotal : (a.length % 2 ^ 32 == m.totalVars) = true := by
    rw [Manager.totalVars, hlevel, hmod]
    exact beq_self_eq_true _
  have hnode : m.evaluateNode m.depth f.root a = .error (.debugAssert .evaluateLength) := by
    rw [Manager.depth, Manager.evaluateNode, index_of_some hrecord, pure_bind]
    dsimp only
    rw [debugAssert, assert_of_false (beq_eq_false_iff_ne.mpr ha)]
    rfl
  rw [Manager.evaluate, assert_of_true htotal, pure_bind, hnode]
  rfl

end Panics

section Simulation

variable {L : ℕ} {s : Session}

/-- A call whose functions do not make it panic returns the diagram of its function. -/
theorem Session.Valid.exec_of_none (hs : s.Valid L) (call : Call Returned)
    (hargs : ∀ x ∈ call.args, x ∈ s.returned)
    (h : (call.map Returned.function).panic? L = none) :
    Returns (call.map Returned.bdd).exec s.manager fun f m' =>
      Denotes m' L f fun a => (call.map Returned.function).describe a.toList := by
  cases call with
  | apply f g op =>
    -- Only the entries of the table that are reached have to be zeros and ones.
    have hop : ∀ a : Asg L, op.entry (f.function a.toList) (g.function a.toList) < 2 := by
      by_contra hreached
      rw [Call.map, Call.panic?, if_neg hreached] at h
      cases h
    exact (apply_found hs.inv hs.level (hs.returned f (hargs f (.head _)))
      (hs.returned g (hargs g (.tail _ (.head _)))) hop).mono fun _ _ _ _ hh => hh.1
  | mkTrue | mkFalse | connective _ _ _ | not _ => exact hs.exec_returns _ hargs trivial
  | mkProj i | restrict _ i _ | compose _ i _ | existsVar _ i | forallVar _ i =>
    refine hs.exec_returns _ hargs ?_
    change i < 2 ^ L
    by_contra hi
    simp [Call.map, Call.panic?, hi] at h

/-- A call whose functions make it panic does so, and keeps what holds of the manager. -/
theorem Session.Valid.exec_of_some (hs : s.Valid L) (call : Call Returned)
    (hargs : ∀ x ∈ call.args, x ∈ s.returned) {e : Panic}
    (h : (call.map Returned.function).panic? L = some e) :
    ∃ m', (call.map Returned.bdd).exec s.manager = .error e m' ∧ s.manager ≤ m' ∧ m'.Inv := by
  have htotal : s.manager.totalVars = 2 ^ L := by rw [Manager.totalVars, hs.level]
  have hrange : ∀ {i : ℕ}, (if i < 2 ^ L then none else some (.varIndexOutOfRange i (2 ^ L))) =
      some e → ¬i < s.manager.totalVars ∧ .varIndexOutOfRange i s.manager.totalVars = e := by
    intro i hi
    rw [htotal]
    split at hi
    · cases hi
    next hnot => exact ⟨hnot, Option.some.inj hi⟩
  cases call with
  | mkTrue | mkFalse | connective _ _ _ | not _ => cases h
  | apply f g op =>
    have hop : ¬∀ a : Asg L, op.entry (f.function a.toList) (g.function a.toList) < 2 := by
      intro hreached
      rw [Call.map, Call.panic?, if_pos hreached] at h
      cases h
    rw [Call.map, Call.panic?, if_neg hop] at h
    obtain rfl := Option.some.inj h
    push Not at hop
    exact apply_panics hs.inv hs.level (hs.returned f (hargs f (.head _)))
      (hs.returned g (hargs g (.tail _ (.head _)))) hop
  | mkProj i =>
    obtain ⟨hi, rfl⟩ := hrange h
    exact ⟨_, mkProj_outOfRange hi, le_rfl, hs.inv⟩
  | restrict f i v =>
    obtain ⟨hi, rfl⟩ := hrange h
    exact ⟨_, restrict_outOfRange hi v, le_rfl, hs.inv⟩
  | compose _ i _ | existsVar _ i | forallVar _ i =>
    -- The first restriction refuses the variable.
    obtain ⟨hi, rfl⟩ := hrange h
    exact ⟨_, bind_error (restrict_outOfRange hi true), le_rfl, hs.inv⟩

/-- The answer of a machine and the functions it keeps are those of a session, and the
session is valid. -/
structure Simulates (L : ℕ) (result : Answer × Session)
    (spec : Answer × List (List Bool → Bool)) : Prop where
  answer : result.1 = spec.1
  functions : result.2.returned.map Returned.function = spec.2
  valid : result.2.Valid L

/-- A call that makes a diagram. -/
theorem Session.Valid.call_simulates (hs : s.Valid L) (call : Call ℕ) :
    Simulates L (s.step (.call call))
      ((Command.call call).answer L (s.returned.map Returned.function)) := by
  unfold Session.step Command.answer
  dsimp only
  rw [Call.resolve_map]
  cases hcall : call.resolve s.returned with
  | none => exact ⟨rfl, rfl, hs⟩
  | some call =>
    have hargs := Call.mem_of_resolve hcall
    simp only [Option.map_some]
    cases hpanic : (call.map Returned.function).panic? L with
    | none =>
      obtain ⟨f, m', hok, hle, hm', hf, -⟩ := hs.exec_of_none call hargs hpanic
      rw [hok]
      exact ⟨rfl, by simp, (hs.grow hle hm').concat hf⟩
    | some e =>
      obtain ⟨m', herror, hle, hm'⟩ := hs.exec_of_some call hargs hpanic
      rw [herror]
      exact ⟨rfl, rfl, hs.grow hle hm'⟩

/-- A call of `path_count`. -/
theorem Session.Valid.pathCount_simulates (hs : s.Valid L) (f : ℕ) :
    Simulates L (s.step (.pathCount f))
      ((Command.pathCount f).answer L (s.returned.map Returned.function)) := by
  unfold Session.step Command.answer
  dsimp only
  rw [List.getElem?_map]
  cases hf : s.returned[f]? with
  | none => exact ⟨rfl, rfl, hs⟩
  | some f =>
    simp only [Option.map_some]
    by_cases hL : L ≤ 6
    · obtain ⟨paths, m', hok, hle, hm', rfl, -⟩ :=
        hs.pathCount_returns (List.mem_of_getElem? hf) hL
      rw [hok, if_pos hL]
      exact ⟨rfl, rfl, hs.grow hle hm'⟩
    · rw [pathCount_of_level (by rwa [hs.level]), if_neg hL, hs.level]
      exact ⟨rfl, rfl, hs⟩

/-- A call of `evaluate`, with an assignment of any length. -/
theorem Session.Valid.evaluate_simulates (hs : s.Valid L) (f : ℕ) (a : List Bool) :
    Simulates L (s.step (.evaluate f a))
      ((Command.evaluate f a).answer L (s.returned.map Returned.function)) := by
  have htotal : s.manager.totalVars = 2 ^ L := by rw [Manager.totalVars, hs.level]
  unfold Session.step Command.answer
  dsimp only
  rw [List.getElem?_map]
  cases hf : s.returned[f]? with
  | none => exact ⟨rfl, rfl, hs⟩
  | some f =>
    simp only [Option.map_some]
    have hmem := List.mem_of_getElem? hf
    by_cases hmod : a.length % 2 ^ 32 = 2 ^ L
    · rw [if_neg (not_not_intro hmod)]
      by_cases hlen : a.length = 2 ^ L
      · rw [if_neg (not_not_intro hlen), hs.evaluate hmem hlen]
        exact ⟨rfl, rfl, hs⟩
      · obtain ⟨k, rfl⟩ : ∃ k, L = k + 1 := ⟨L - 1, by have := hs.level_le.1; omega⟩
        rw [if_pos hlen, (hs.returned f hmem).evaluate_of_length hs.level hmod hlen]
        exact ⟨rfl, rfl, hs⟩
    · rw [if_pos hmod, Manager.evaluate_of_length_mod (by rwa [htotal])]
      exact ⟨rfl, rfl, hs⟩

/-- A comparison of handles. -/
theorem Session.Valid.eq_simulates (hs : s.Valid L) (f g : ℕ) :
    Simulates L (s.step (.eq f g))
      ((Command.eq f g).answer L (s.returned.map Returned.function)) := by
  unfold Session.step Command.answer
  dsimp only
  rw [List.getElem?_map, List.getElem?_map]
  cases hf : s.returned[f]? with
  | none => exact ⟨rfl, rfl, hs⟩
  | some f =>
    cases hg : s.returned[g]? with
    | none => exact ⟨rfl, rfl, hs⟩
    | some g =>
      have hF := hs.returned f (List.mem_of_getElem? hf)
      have hG := hs.returned g (List.mem_of_getElem? hg)
      refine ⟨?_, rfl, hs⟩
      simp only [Option.map_some, Manager.eq]
      congr 1
      refine decide_eq_decide.mpr ⟨?_, ?_⟩
      · intro heq a
        rw [← heq] at hG
        exact congrFun (hF.function_unique hG hs.level hs.level_le.2) a
      · intro h
        rw [funext h] at hF
        exact hF.unique hG

/-- One command. -/
theorem Session.Valid.step_simulates (hs : s.Valid L) (command : Command) :
    Simulates L (s.step command) (command.answer L (s.returned.map Returned.function)) := by
  cases command with
  | call call => exact hs.call_simulates call
  | pathCount f => exact hs.pathCount_simulates f
  | evaluate f a => exact hs.evaluate_simulates f a
  | eq f g => exact hs.eq_simulates f g

/-- **The answers to a script are determined by the functions:** a session answers every
script as the machine does that keeps functions in the place of diagrams, whatever its
stores and tables hold. -/
theorem Session.Valid.run_answers (hs : s.Valid L) (script : List Command) :
    (s.run script).1 = (Command.answers L (s.returned.map Returned.function) script).1 ∧
      (s.run script).2.Valid L := by
  induction script generalizing s with
  | nil => exact ⟨rfl, hs⟩
  | cons command script ih =>
    obtain ⟨hanswer, hfunctions, hvalid⟩ := hs.step_simulates command
    obtain ⟨hanswers, hvalid'⟩ := ih hvalid
    rw [Session.run, Command.answers]
    dsimp only
    rw [hanswer, hanswers, hfunctions]
    exact ⟨rfl, hvalid'⟩

end Simulation

end Cflobdd
