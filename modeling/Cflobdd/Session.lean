import Cflobdd.Counting
import Cflobdd.Restriction
import Mathlib.Logic.Relation

/-!
# Sessions

A session is a manager together with the diagrams it has returned so far, each with
the boolean function that the call that made it describes. A step of a session is a
public call whose arguments are returned diagrams and variables in range. In every
reachable session every returned diagram denotes its function, and every such call
returns. Indices are numbers here, so that sessions of the code are those whose stores
stay below `2 ^ 31` entries; at high levels this limits the diagrams that they can make.
-/

namespace Cflobdd

open FirstVisit Growing

/-- A public call that returns a diagram, over a type of arguments. -/
inductive Call (ρ : Type) where
  | mkTrue
  | mkFalse
  | mkProj (varIndex : ℕ)
  | apply (f g : ρ) (op : BoolOp)
  | connective (c : Connective) (f g : ρ)
  | not (f : ρ)
  | restrict (f : ρ) (varIndex : ℕ) (value : Bool)
  | compose (f : ρ) (varIndex : ℕ) (g : ρ)
  | existsVar (f : ρ) (varIndex : ℕ)
  | forallVar (f : ρ) (varIndex : ℕ)

namespace Call

variable {ρ σ : Type}

/-- The call with other arguments. -/
def map (φ : ρ → σ) : Call ρ → Call σ
  | mkTrue => mkTrue
  | mkFalse => mkFalse
  | mkProj i => mkProj i
  | apply f g op => apply (φ f) (φ g) op
  | connective c f g => connective c (φ f) (φ g)
  | not f => not (φ f)
  | restrict f i v => restrict (φ f) i v
  | compose f i g => compose (φ f) i (φ g)
  | existsVar f i => existsVar (φ f) i
  | forallVar f i => forallVar (φ f) i

/-- The diagrams that a call is given. -/
def args : Call ρ → List ρ
  | mkTrue | mkFalse | mkProj _ => []
  | apply f g _ | connective _ f g | compose f _ g => [f, g]
  | not f | restrict f _ _ | existsVar f _ | forallVar f _ => [f]

/-- The variable is in range, and the table holds zeros and ones. -/
def InRange (L : ℕ) : Call ρ → Prop
  | mkProj i | restrict _ i _ | compose _ i _ | existsVar _ i | forallVar _ i => i < 2 ^ L
  | apply _ _ op => op.IsBool
  | _ => True

/-- The program of a call. -/
def exec : Call Bdd → ManagerM Bdd
  | mkTrue => Cflobdd.mkTrue
  | mkFalse => Cflobdd.mkFalse
  | mkProj i => Cflobdd.mkProj i
  | apply f g op => Cflobdd.apply f g op
  | connective c f g => c.exec f g
  | not f => Cflobdd.not f
  | restrict f i v => Cflobdd.restrict f i v
  | compose f i g => Cflobdd.compose f i g
  | existsVar f i => Cflobdd.existsVar f i
  | forallVar f i => Cflobdd.forallVar f i

/-- The boolean function that a call describes, on the list of the variables' values. -/
def describe : Call (List Bool → Bool) → List Bool → Bool
  | mkTrue, _ => true
  | mkFalse, _ => false
  | mkProj i, a => a.getD i false
  | apply f g op, a => op.eval (f a) (g a)
  | connective c f g, a => c.eval (f a) (g a)
  | not f, a => !f a
  | restrict f i v, a => f (a.set i v)
  | compose f i g, a => f (a.set i (g a))
  | existsVar f i, a => f (a.set i true) || f (a.set i false)
  | forallVar f i, a => f (a.set i true) && f (a.set i false)

end Call

/-- A diagram that was returned, with the function that its call describes. -/
structure Returned where
  /-- The diagram. -/
  bdd : Bdd
  /-- The function, on lists of `2 ^ L` values. -/
  function : List Bool → Bool

/-- A manager and the diagrams it has returned. -/
structure Session where
  /-- The manager. -/
  manager : Manager
  /-- The diagrams returned so far. -/
  returned : List Returned

/-- A public call on diagrams that were returned before. -/
inductive Step (L : ℕ) : Session → Session → Prop where
  /-- A call that returns a diagram. -/
  | call {s : Session} {m' : Manager} {f : Bdd} (call : Call Returned)
      (hargs : ∀ x ∈ call.args, x ∈ s.returned) (hrange : call.InRange L)
      (hok : (call.map Returned.bdd).exec s.manager = .ok f m') :
      Step L s ⟨m', s.returned ++ [⟨f, (call.map Returned.function).describe⟩]⟩
  /-- A call of `path_count`, which returns up to level six. -/
  | pathCount {s : Session} {m' : Manager} {count : ℕ} {f : Returned} (hf : f ∈ s.returned)
      (hok : pathCount f.bdd s.manager = .ok count m') : Step L s ⟨m', s.returned⟩

/-- Any finite sequence of public calls. -/
abbrev Steps (L : ℕ) : Session → Session → Prop := Relation.ReflTransGen (Step L)

/-- A session is reachable when it comes from a fresh manager by public calls. -/
def Reachable (L : ℕ) (s : Session) : Prop :=
  ∃ m, Manager.new L = .ok m ∧ Steps L ⟨m, []⟩ s

/-- What holds of every reachable session. -/
structure Session.Valid (L : ℕ) (s : Session) : Prop where
  inv : s.manager.Inv
  level : s.manager.level = L
  memo : s.manager.probe.memo = true
  shortcuts : s.manager.probe.shortcuts = true
  returned : ∀ f ∈ s.returned, Denotes s.manager L f.bdd fun a => f.function a.toList

section Exec

variable {m : Manager} {L : ℕ}

/-- Every public call gives the diagram of the function it describes. -/
theorem exec_returns (hm : m.Inv) (hL : m.level = L) (call : Call Returned)
    (hrange : call.InRange L)
    (hargs : ∀ x ∈ call.args, Denotes m L x.bdd fun a => x.function a.toList) :
    Returns (call.map Returned.bdd).exec m fun f m' =>
      Denotes m' L f fun a => (call.map Returned.function).describe a.toList := by
  cases call with
  | mkTrue =>
    subst hL
    exact mkTrue_returns hm
  | mkFalse =>
    subst hL
    exact mkFalse_returns hm
  | mkProj i =>
    subst hL
    have hget : (fun a : Asg m.level => a.toList.getD i false) = fun a => a.get i := by
      funext a
      rw [List.getD_eq_getElem?_getD, Asg.getElem?_toList a hrange, Option.getD_some]
    have h := mkProj_returns hm hrange
    rwa [← hget] at h
  | apply f g op =>
    exact apply_returns hm hL (hargs f (.head _)) (hargs g (.tail _ (.head _))) hrange
  | connective c f g => exact c.returns hm hL (hargs f (.head _)) (hargs g (.tail _ (.head _)))
  | not f => exact not_returns hm (hargs f (.head _))
  | restrict f i v =>
    have h := restrict_returns hm hL (hargs f (.head _)) hrange v
    simp only [Asg.toList_set _ hrange] at h
    exact h
  | compose f i g =>
    have h := compose_returns hm hL (hargs f (.head _)) (hargs g (.tail _ (.head _))) hrange
    simp only [Asg.toList_set _ hrange] at h
    exact h
  | existsVar f i =>
    have h := existsVar_returns hm hL (hargs f (.head _)) hrange
    simp only [Asg.toList_set _ hrange] at h
    exact h
  | forallVar f i =>
    have h := forallVar_returns hm hL (hargs f (.head _)) hrange
    simp only [Asg.toList_set _ hrange] at h
    exact h

end Exec

section Runs

variable {L : ℕ} {s s' : Session}

/-- A fresh manager is a valid session. -/
theorem Session.Valid.new {m : Manager} (h : Manager.new L = .ok m) : Session.Valid L ⟨m, []⟩ := by
  obtain ⟨hL, rfl⟩ := Manager.new_eq h
  exact ⟨Manager.fresh_inv hL, rfl, rfl, rfl, fun f hf => by cases hf⟩

/-- A public call of a valid session, as a run. -/
theorem Session.Valid.exec_returns (hs : s.Valid L) (call : Call Returned)
    (hargs : ∀ x ∈ call.args, x ∈ s.returned) (hrange : call.InRange L) :
    Returns (call.map Returned.bdd).exec s.manager fun f m' =>
      Denotes m' L f fun a => (call.map Returned.function).describe a.toList :=
  Cflobdd.exec_returns hs.inv hs.level call hrange fun x hx => hs.returned x (hargs x hx)

/-- A call of `path_count` of a valid session, as a run. -/
theorem Session.Valid.pathCount_returns (hs : s.Valid L) {f : Returned} (hf : f ∈ s.returned)
    (hL : L ≤ 6) :
    Returns (pathCount f.bdd) s.manager fun count _ =>
      count = visits (fun a : Asg L => f.function a.toList) true :=
  Cflobdd.pathCount_returns hs.inv hs.level hL (hs.returned f hf)

/-- What a call of `path_count` that returned leaves behind. -/
theorem Session.Valid.of_pathCount (hs : s.Valid L) {f : Returned} (hf : f ∈ s.returned)
    {count : ℕ} {m' : Manager} (hok : pathCount f.bdd s.manager = .ok count m') :
    s.manager ≤ m' ∧ m'.Inv := by
  have hL : L ≤ 6 := hs.level ▸ level_le_of_pathCount hok
  obtain ⟨hle, hinv, -⟩ := (hs.pathCount_returns hf hL).of_ok hok
  exact ⟨hle, hinv⟩

/-- A step only adds to the manager and to the diagrams returned. -/
theorem Step.grows (hs : s.Valid L) (h : Step L s s') :
    s.manager ≤ s'.manager ∧ s.returned <+: s'.returned := by
  cases h with
  | call call hargs hrange hok =>
    exact ⟨((hs.exec_returns call hargs hrange).of_ok hok).1, List.prefix_append _ _⟩
  | pathCount hf hok => exact ⟨(hs.of_pathCount hf hok).1, List.prefix_rfl⟩

/-- What holds of a session still holds when its manager has grown. -/
theorem Session.Valid.grow (hs : s.Valid L) {m' : Manager} (hle : s.manager ≤ m') (hm' : m'.Inv) :
    Session.Valid L ⟨m', s.returned⟩ where
  inv := hm'
  level := hle.level.trans hs.level
  memo := hle.memo.trans hs.memo
  shortcuts := hle.shortcuts.trans hs.shortcuts
  returned f hf := (hs.returned f hf).mono hle

/-- It holds with one more diagram that denotes its function. -/
theorem Session.Valid.concat (hs : s.Valid L) {f : Returned}
    (hf : Denotes s.manager L f.bdd fun a => f.function a.toList) :
    Session.Valid L ⟨s.manager, s.returned ++ [f]⟩ := by
  refine ⟨hs.inv, hs.level, hs.memo, hs.shortcuts, ?_⟩
  intro x hx
  rcases List.mem_append.mp hx with hx | hx
  · exact hs.returned x hx
  · obtain rfl := List.mem_singleton.mp hx
    exact hf

/-- A step keeps what holds of every reachable session. -/
theorem Step.valid (hs : s.Valid L) (h : Step L s s') : s'.Valid L := by
  cases h with
  | call call hargs hrange hok =>
    obtain ⟨hle, hinv, hf⟩ := (hs.exec_returns call hargs hrange).of_ok hok
    exact (hs.grow hle hinv).concat hf
  | pathCount hf hok =>
    obtain ⟨hle, hinv⟩ := hs.of_pathCount hf hok
    exact hs.grow hle hinv

/-- Any number of steps. -/
theorem Steps.valid (hs : s.Valid L) (h : Steps L s s') : s'.Valid L := by
  induction h with
  | refl => exact hs
  | tail _ hstep ih => exact hstep.valid ih

/-- Any number of steps only add. -/
theorem Steps.grows (hs : s.Valid L) (h : Steps L s s') :
    s.manager ≤ s'.manager ∧ s.returned <+: s'.returned := by
  induction h with
  | refl => exact ⟨le_rfl, List.prefix_rfl⟩
  | tail hsteps hstep ih =>
    have hgrows := hstep.grows (Steps.valid hs hsteps)
    exact ⟨ih.1.trans hgrows.1, ih.2.trans hgrows.2⟩

/-- Every reachable session is valid. -/
theorem Reachable.valid (h : Reachable L s) : s.Valid L := by
  obtain ⟨m, hnew, hsteps⟩ := h
  exact Steps.valid (.new hnew) hsteps

/-- The level of a reachable session. -/
theorem Session.Valid.level_le (hs : s.Valid L) : 1 ≤ L ∧ L ≤ 30 := by
  rw [← hs.level]
  exact hs.inv.level_mem

end Runs

section Sample

/-- The result of an execution that returned. -/
def value? {α : Type} : EStateM.Result Panic Manager α → Option α
  | .ok a _ => some a
  | .error _ _ => none

/-- The session after a call that returns. -/
def Session.after (s : Session) (call : Call Returned) : Session :=
  match (call.map Returned.bdd).exec s.manager with
  | .ok f m' => ⟨m', s.returned ++ [⟨f, (call.map Returned.function).describe⟩]⟩
  | .error _ _ => s

/-- An executed call is a step. -/
theorem Step.after {L : ℕ} {s : Session} (call : Call Returned) {f : Bdd}
    (hok : value? ((call.map Returned.bdd).exec s.manager) = some f)
    (hargs : ∀ x ∈ call.args, x ∈ s.returned) (hrange : call.InRange L) :
    Step L s (s.after call) ∧
      (s.after call).returned = s.returned ++ [⟨f, (call.map Returned.function).describe⟩] := by
  unfold Session.after
  cases hresult : (call.map Returned.bdd).exec s.manager with
  | ok f' m' =>
    rw [hresult] at hok
    obtain rfl : f' = f := Option.some.inj hok
    exact ⟨.call call hargs hrange hresult, rfl⟩
  | error e m' =>
    rw [hresult] at hok
    cases hok

/-- The variable `x₀` and its negation as they are returned by a manager of level one. -/
def sampleVar : Returned := ⟨⟨⟨2⟩, ⟨2⟩⟩, fun a => a.getD 0 false⟩

@[inherit_doc sampleVar] def sampleNot : Returned := ⟨⟨⟨2⟩, ⟨3⟩⟩, fun a => !a.getD 0 false⟩

/-- The session that makes `x₀` and its negation. -/
def sampleLiterals : Session :=
  (Session.after ⟨Manager.fresh 1, []⟩ (.mkProj 0)).after (.not sampleVar)

/-- The session that then makes `x₀ ∨ ¬x₀` and the constant true. -/
def sampleSession : Session :=
  (sampleLiterals.after (.connective .or sampleVar sampleNot)).after .mkTrue

/-- Both calls return, the variable with node two and the identity map. -/
theorem sampleLiterals_reachable :
    Reachable 1 sampleLiterals ∧ sampleLiterals.returned = [sampleVar, sampleNot] := by
  obtain ⟨h₁, hr₁⟩ := Step.after (.mkProj 0) (L := 1) (s := ⟨Manager.fresh 1, []⟩)
    (f := ⟨⟨2⟩, ⟨2⟩⟩) (by decide +kernel) (fun x hx => by cases hx) (show 0 < 2 ^ 1 by decide)
  obtain ⟨h₂, hr₂⟩ := Step.after (.not sampleVar) (L := 1) (f := ⟨⟨2⟩, ⟨3⟩⟩)
    (s := Session.after ⟨Manager.fresh 1, []⟩ (.mkProj 0)) (by decide +kernel)
    (by rw [hr₁]; exact fun x hx => hx) trivial
  refine ⟨⟨Manager.fresh 1, rfl, (Relation.ReflTransGen.single h₁).tail h₂⟩, ?_⟩
  rw [sampleLiterals, hr₂, hr₁]
  rfl

/-- The variable was returned. -/
theorem sampleVar_mem : sampleVar ∈ sampleLiterals.returned := by
  rw [sampleLiterals_reachable.2]
  exact .head _

/-- Its negation was returned. -/
theorem sampleNot_mem : sampleNot ∈ sampleLiterals.returned := by
  rw [sampleLiterals_reachable.2]
  exact .tail _ (.head _)

/-- In the sample session the tautology and the constant are one diagram. -/
theorem sampleSession_steps : Steps 1 sampleLiterals sampleSession ∧ sampleSession.returned =
    [sampleVar, sampleNot, ⟨⟨⟨3⟩, ⟨1⟩⟩, fun a => a.getD 0 false || !a.getD 0 false⟩,
      ⟨⟨⟨3⟩, ⟨1⟩⟩, fun _ => true⟩] := by
  have hr₂ := sampleLiterals_reachable.2
  obtain ⟨h₃, hr₃⟩ := Step.after (.connective .or sampleVar sampleNot) (L := 1) (f := ⟨⟨3⟩, ⟨1⟩⟩)
    (s := sampleLiterals) (by decide +kernel) (by rw [hr₂]; exact fun x hx => hx) trivial
  obtain ⟨h₄, hr₄⟩ := Step.after .mkTrue (L := 1) (f := ⟨⟨3⟩, ⟨1⟩⟩)
    (s := sampleLiterals.after (.connective .or sampleVar sampleNot)) (by decide +kernel)
    (fun x hx => by cases hx) trivial
  refine ⟨(Relation.ReflTransGen.single h₃).tail h₄, ?_⟩
  rw [sampleSession, hr₄, hr₃, hr₂]
  rfl

/-- The session that only makes the constant true. -/
def sampleTrue : Session := Session.after ⟨Manager.fresh 1, []⟩ .mkTrue

/-- The constant has node two here. -/
theorem sampleTrue_reachable :
    Reachable 1 sampleTrue ∧ sampleTrue.returned = [⟨⟨⟨2⟩, ⟨1⟩⟩, fun _ => true⟩] := by
  obtain ⟨h, hr⟩ := Step.after .mkTrue (L := 1) (s := ⟨Manager.fresh 1, []⟩) (f := ⟨⟨2⟩, ⟨1⟩⟩)
    (by decide +kernel) (fun x hx => by cases hx) trivial
  exact ⟨⟨Manager.fresh 1, rfl, Relation.ReflTransGen.single h⟩, hr⟩

/-- What is reached from a reachable session is reachable. -/
theorem Reachable.steps {L : ℕ} {s s' : Session} (h : Reachable L s) (hsteps : Steps L s s') :
    Reachable L s' := by
  obtain ⟨m, hnew, h⟩ := h
  exact ⟨m, hnew, h.trans hsteps⟩

/-- The sample session is reachable. -/
theorem sampleSession_reachable : Reachable 1 sampleSession :=
  sampleLiterals_reachable.1.steps sampleSession_steps.1

end Sample

end Cflobdd
