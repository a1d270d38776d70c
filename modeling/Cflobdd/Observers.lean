import Cflobdd.Shapes

/-!
# The interface refines a machine of functions

Every public call but the two that report the size of the stores is answered from functions
alone. The machine of this file keeps a list of boolean functions and has neither nodes nor
tables. A manager, from its creation on and through calls that panic, gives the answers of
this machine, the structural counts included.
-/

namespace Cflobdd

open FirstVisit Growing

/-- A public call in a script, or a question about the size of a diagram. -/
inductive Query where
  | command (command : Command)
  | level
  | totalVars
  | reachableNodeCount (f : ℕ)
  | reachableEdgeCount (f : ℕ)

/-- What is observed. -/
inductive Reply where
  /-- The answer to a call. -/
  | answer (answer : Answer)
  /-- A number was returned. -/
  | number (n : ℕ)
  deriving DecidableEq, Repr

namespace Session

/-- The reply to a question about a diagram. -/
def measure (s : Session) (f : ℕ) (count : Manager → Bdd → Except Panic ℕ) : Reply :=
  match s.returned[f]? with
  | none => .answer .unknown
  | some f =>
    match count s.manager f.bdd with
    | .ok n => .number n
    | .error e => .answer (.panicked e)

/-- The reply of a session, and the session afterwards. -/
def ask (s : Session) : Query → Reply × Session
  | .command command => (.answer (s.step command).1, (s.step command).2)
  | .level => (.number s.manager.level, s)
  | .totalVars => (.number s.manager.totalVars, s)
  | .reachableNodeCount f => (s.measure f Manager.reachableNodeCount, s)
  | .reachableEdgeCount f => (s.measure f Manager.reachableEdgeCount, s)

/-- The replies of a session to a script. -/
def replies (s : Session) : List Query → List Reply
  | [] => []
  | query :: script => (s.ask query).1 :: (s.ask query).2.replies script

end Session

namespace Query

/-- The reply of the machine to a question about a function. -/
def measure (fs : List (List Bool → Bool)) (f : ℕ) (count : (List Bool → Bool) → ℕ) : Reply :=
  match fs[f]? with
  | none => .answer .unknown
  | some f => .number (count f)

/-- The reply of the machine that keeps functions of `2 ^ L` variables, and its functions
afterwards. -/
def reply (L : ℕ) (fs : List (List Bool → Bool)) : Query → Reply × List (List Bool → Bool)
  | command c => (.answer (c.answer L fs).1, (c.answer L fs).2)
  | level => (.number L, fs)
  | totalVars => (.number (2 ^ L), fs)
  | reachableNodeCount f =>
    (measure fs f fun F => (shapes fun a : Asg L => F a.toList).length, fs)
  | reachableEdgeCount f => (measure fs f fun F => shapeEdges fun a : Asg L => F a.toList, fs)

/-- The replies of this machine to a script. -/
def replies (L : ℕ) (fs : List (List Bool → Bool)) : List Query → List Reply
  | [] => []
  | query :: script => (query.reply L fs).1 :: replies L (query.reply L fs).2 script

end Query

/-- A program that makes a manager and runs a script on it. -/
def execute (L : ℕ) (script : List Query) : Except Panic (List Reply) := do
  let m ← Manager.new L
  return Session.replies ⟨m, []⟩ script

/-- What the program is for: the levels that are refused, and the machine of functions. -/
def executeSpec (L : ℕ) (script : List Query) : Except Panic (List Reply) :=
  if L < 1 then .error .levelTooSmall
  else if 30 < L then .error .levelTooLarge
  else .ok (Query.replies L [] script)

section Refinement

variable {L : ℕ} {s : Session}

/-- A question about a diagram is answered from its function. -/
theorem Session.measure_eq (s : Session) (f : ℕ) {count : Manager → Bdd → Except Panic ℕ}
    {spec : (List Bool → Bool) → ℕ}
    (h : ∀ f ∈ s.returned, count s.manager f.bdd = .ok (spec f.function)) :
    s.measure f count = Query.measure (s.returned.map Returned.function) f spec := by
  unfold Session.measure Query.measure
  rw [List.getElem?_map]
  cases hf : s.returned[f]? with
  | none => rfl
  | some f =>
    dsimp only [Option.map_some]
    rw [h f (List.mem_of_getElem? hf)]

/-- One query: the reply is that of the machine, and so are the functions afterwards. -/
theorem Session.Valid.ask_simulates (hs : s.Valid L) (query : Query) :
    (s.ask query).1 = (query.reply L (s.returned.map Returned.function)).1 ∧
      (s.ask query).2.returned.map Returned.function =
        (query.reply L (s.returned.map Returned.function)).2 ∧
      (s.ask query).2.Valid L := by
  cases query with
  | command c =>
    obtain ⟨hanswer, hfunctions, hvalid⟩ := hs.step_simulates c
    exact ⟨congrArg Reply.answer hanswer, hfunctions, hvalid⟩
  | level => exact ⟨congrArg Reply.number hs.level, rfl, hs⟩
  | totalVars =>
    refine ⟨congrArg Reply.number ?_, rfl, hs⟩
    rw [Manager.totalVars, hs.level]
  | reachableNodeCount f =>
    exact ⟨s.measure_eq f fun f hf => ((hs.returned f hf).counts_eq hs.inv).1, rfl, hs⟩
  | reachableEdgeCount f =>
    exact ⟨s.measure_eq f fun f hf => ((hs.returned f hf).counts_eq hs.inv).2, rfl, hs⟩

/-- A whole script. -/
theorem Session.Valid.replies_eq (hs : s.Valid L) (script : List Query) :
    s.replies script = Query.replies L (s.returned.map Returned.function) script := by
  induction script generalizing s with
  | nil => rfl
  | cons query script ih =>
    obtain ⟨hreply, hfunctions, hvalid⟩ := hs.ask_simulates query
    rw [Session.replies, Query.replies, hreply, ih hvalid, hfunctions]

end Refinement

/-- **The interface refines the machine of functions:** for every level and every sequence of
calls, those that panic included, the program that makes a manager and runs the calls
observes what the machine without stores and tables observes. Debug assertions are on, which
tells only when the length of an assignment is right as a word of 32 bits and wrong as a number;
the sizes of the stores are not asked for. -/
theorem execute_eq (L : ℕ) (script : List Query) : execute L script = executeSpec L script := by
  unfold execute executeSpec Manager.new
  by_cases hpos : 1 ≤ L
  · rw [if_neg (by omega), assert_of_true (decide_eq_true hpos)]
    by_cases hle : L ≤ 30
    · rw [if_neg (by omega), assert_of_true (decide_eq_true hle)]
      have hnew : Manager.new L = .ok (Manager.fresh L) := by
        unfold Manager.new
        rw [assert_of_true (decide_eq_true hpos), assert_of_true (decide_eq_true hle)]
        rfl
      exact congrArg Except.ok ((Session.Valid.new hnew).replies_eq script)
    · rw [if_pos (by omega), assert_of_false (decide_eq_false hle)]
      rfl
  · rw [if_pos (by omega), assert_of_false (decide_eq_false hpos)]
    rfl

/-- The variables and their conjunction: three nodes, one satisfying assignment. -/
example : (execute 1 [.command (.call (.mkProj 0)), .command (.call (.mkProj 1)),
    .command (.call (.connective .and 0 1)), .reachableNodeCount 2, .command (.pathCount 2),
    .command (.call (.mkProj 2))]).toOption =
    some [.answer .made, .answer .made, .answer .made, .number 3, .answer (.count 1),
      .answer (.panicked (.varIndexOutOfRange 2 2))] := by
  decide +kernel

end Cflobdd
