import Cflobdd.Computes
import Cflobdd.Recovery

/-!
# Expressions as clients

The tests of the engine build diagrams from syntax trees and compare them with a direct
evaluation of the tree. The comparison holds for every tree in every session, equal diagrams
are a decision procedure for the equivalence of trees, and every boolean function of the
variables is that of some tree.
-/

namespace Cflobdd.Corpus

open FirstVisit Enumerated Growing

/-- A syntax tree. -/
inductive Expr where
  | true
  | false
  | var (i : ℕ)
  | not (e : Expr)
  | and (a b : Expr)
  | or (a b : Expr)
  | xor (a b : Expr)
  deriving DecidableEq, Repr

namespace Expr

/-- `eval`: the value on a list of the variables' values. Conjunction and disjunction leave
out the second operand when the first decides. -/
def eval (asn : List Bool) : Expr → Except Panic Bool
  | true => return Bool.true
  | false => return Bool.false
  | var i => index asn i
  | not e => return !(← e.eval asn)
  | and a b => do if ← a.eval asn then b.eval asn else return Bool.false
  | or a b => do if ← a.eval asn then return Bool.true else b.eval asn
  | xor a b => do
    let x ← a.eval asn
    let y ← b.eval asn
    return x ^^ y

/-- `build`: the diagram of an expression, by public calls from left to right. -/
def build : Expr → ManagerM Bdd
  | true => mkTrue
  | false => mkFalse
  | var i => mkProj i
  | not e => do
    let b ← e.build
    Cflobdd.not b
  | and a b => do
    let x ← a.build
    let y ← b.build
    Cflobdd.and x y
  | or a b => do
    let x ← a.build
    let y ← b.build
    Cflobdd.or x y
  | xor a b => do
    let x ← a.build
    let y ← b.build
    Cflobdd.xor x y

/-- The first variable that is out of range, in the order of the calls. -/
def outOfRange? (n : ℕ) : Expr → Option ℕ
  | true | false => none
  | var i => if i < n then none else some i
  | not e => e.outOfRange? n
  | and a b | or a b | xor a b => (a.outOfRange? n).or (b.outOfRange? n)

/-- The function of an expression. -/
def value : Expr → List Bool → Bool
  | true, _ => Bool.true
  | false, _ => Bool.false
  | var i, a => a.getD i Bool.false
  | not e, a => !e.value a
  | and e e', a => e.value a && e'.value a
  | or e e', a => e.value a || e'.value a
  | xor e e', a => e.value a ^^ e'.value a

end Expr

/-- `all_assignments`: the lists of `n` values, the first being the least significant bit of a
counter. -/
def allAssignments (n : ℕ) : List (List Bool) :=
  (List.range (2 ^ n)).map fun v => (List.range n).map fun i => v.testBit i

/-- One row of the truth table. -/
def countStep (e : Expr) (count : ℕ) (asn : List Bool) : Except Panic ℕ := do
  if ← e.eval asn then return count + 1 else return count

/-- `truth_table_count`: the number of assignments at which an expression is true. -/
def truthTableCount (e : Expr) (n : ℕ) : Except Panic ℕ :=
  (allAssignments n).foldlM (countStep e) 0

section Eval

variable {e : Expr} {n : ℕ}

/-- With all variables in range the evaluation gives the value. -/
theorem eval_of_none (h : e.outOfRange? n = none) {a : List Bool} (ha : a.length = n) :
    e.eval a = .ok (e.value a) := by
  induction e with
  | true | false => rfl
  | var i =>
    have hi : i < a.length := by
      rw [ha]
      by_contra hi
      rw [Expr.outOfRange?, if_neg hi] at h
      cases h
    rw [Expr.eval, Expr.value, index_of_some (List.getElem?_eq_getElem hi),
      List.getD_eq_getElem?_getD,
      List.getElem?_eq_getElem hi]
    rfl
  | not e ih =>
    rw [Expr.eval, ih h]
    rfl
  | and x y ihx ihy | or x y ihx ihy | xor x y ihx ihy =>
    rw [Expr.outOfRange?, Option.or_eq_none_iff] at h
    rw [Expr.eval, ihx h.1, ihy h.2, Expr.value]
    cases x.value a <;> rfl

/-- The truth table lists every assignment once. -/
theorem allAssignments_perm (L : ℕ) :
    (allAssignments (2 ^ L)).Perm ((all : List (Asg L)).map Asg.toList) := by
  have hnodup : (allAssignments (2 ^ L)).Nodup := by
    refine List.nodup_range.map_on fun v hv w hw h => Nat.eq_of_testBit_eq fun i => ?_
    rw [List.mem_range] at hv hw
    by_cases hi : i < 2 ^ L
    · have hentry := congrArg (·[i]?) h
      simpa [hi] using hentry
    · have hpow : 2 ^ 2 ^ L ≤ 2 ^ i := Nat.pow_le_pow_right (by decide) (by omega)
      rw [Nat.testBit_lt_two_pow (hv.trans_le hpow), Nat.testBit_lt_two_pow (hw.trans_le hpow)]
  have hnodup' : ((all : List (Asg L)).map Asg.toList).Nodup :=
    nodup_all.map Asg.toList_injective
  refine (hnodup.subperm ?_).perm_of_length_le ?_
  · intro l hl
    obtain ⟨v, -, rfl⟩ := List.mem_map.mp hl
    obtain ⟨a, ha⟩ := Asg.exists_toList (k := L)
      (l := (List.range (2 ^ L)).map fun i => v.testBit i)
      (by simp)
    exact List.mem_map.mpr ⟨a, mem_all a, ha⟩
  · simp [allAssignments, Asg.length_all]

/-- The loop over the rows counts those at which the expression is true. -/
theorem countStep_foldlM {xs : List (List Bool)} (h : e.outOfRange? n = none)
    (hlen : ∀ a ∈ xs, a.length = n) (count : ℕ) :
    xs.foldlM (countStep e) count = .ok (count + xs.countP e.value) := by
  induction xs generalizing count with
  | nil => rfl
  | cons a xs ih =>
    have hstep : countStep e count a = .ok (count + if e.value a = true then 1 else 0) := by
      rw [countStep, eval_of_none h (hlen a (.head _))]
      cases e.value a <;> rfl
    rw [List.foldlM_cons, hstep, List.countP_cons, ← Nat.add_assoc, Nat.add_right_comm]
    exact ih (fun b hb => hlen b (.tail _ hb)) _

/-- The truth table counts the assignments at which the value is true. -/
theorem truthTableCount_eq {L : ℕ} (h : e.outOfRange? (2 ^ L) = none) :
    truthTableCount e (2 ^ L) = .ok (visits (fun a : Asg L => e.value a.toList) true) := by
  rw [truthTableCount, countStep_foldlM h, Nat.zero_add, (allAssignments_perm L).countP_eq,
    List.countP_map, visits]
  · congr 2
    funext a
    simp
  · intro a ha
    obtain ⟨v, -, rfl⟩ := List.mem_map.mp ha
    simp

end Eval

section Build

/-- In every later state the program panics, and keeps what holds of the manager. -/
def Panics (m : Manager) (L : ℕ) (p : ManagerM Bdd) (e : Panic) : Prop :=
  ∀ t, m ≤ t → t.Inv → t.level = L → ∃ t', p t = .error e t' ∧ t ≤ t' ∧ t'.Inv

variable {m m' : Manager} {L : ℕ} {p q : ManagerM Bdd} {k : Bdd → ManagerM Bdd}
  {F : Asg L → Bool} {panic : Panic}

/-- A program that panics does so whatever follows. -/
theorem Panics.bind (h : Panics m L p panic) : Panics m L (p >>= k) panic := by
  intro t hle ht hL
  obtain ⟨t', herror, hle', ht'⟩ := h t hle ht hL
  exact ⟨t', bind_error herror, hle', ht'⟩

/-- The first program returns, and what follows panics. -/
theorem Panics.after (hp : Computes m L p F) (hk : ∀ f, Panics m L (k f) panic) :
    Panics m L (p >>= k) panic := by
  intro t hle ht hL
  obtain ⟨f, t₁, hok, hle₁, ht₁, -, -⟩ := hp t hle ht hL
  obtain ⟨t₂, herror, hle₂, ht₂⟩ := hk f t₁ (hle.trans hle₁) ht₁ (hle₁.level.trans hL)
  exact ⟨t₂, by rw [bind_ok hok, herror], hle₁.trans hle₂, ht₂⟩

/-- A variable in range is computed by its projection. -/
theorem computes_var {i : ℕ} (hi : i < 2 ^ L) :
    Computes m L (mkProj i) fun a => a.toList.getD i false := by
  have hget : (fun a : Asg L => a.toList.getD i false) = fun a => a.get i := by
    funext a
    rw [List.getD_eq_getElem?_getD, Asg.getElem?_toList a hi, Option.getD_some]
  rw [hget]
  exact computes_mkProj ⟨i, hi⟩

/-- With all variables in range the calls compute the function of the expression. -/
theorem computes_build {e : Expr} (h : e.outOfRange? (2 ^ L) = none) :
    Computes m L e.build fun a => e.value a.toList := by
  induction e generalizing m with
  | true => exact computes_mkTrue
  | false => exact computes_mkFalse
  | var i =>
    refine computes_var ?_
    by_contra hi
    rw [Expr.outOfRange?, if_neg hi] at h
    cases h
  | not e ih => exact (ih h).bind fun t f _ hf => computes_not hf
  | and x y ihx ihy =>
    rw [Expr.outOfRange?, Option.or_eq_none_iff] at h
    exact (ihx h.1).bind₂ (ihy h.2) fun t f g _ hf hg => computes_connective .and hf hg
  | or x y ihx ihy =>
    rw [Expr.outOfRange?, Option.or_eq_none_iff] at h
    exact (ihx h.1).bind₂ (ihy h.2) fun t f g _ hf hg => computes_connective .or hf hg
  | xor x y ihx ihy =>
    rw [Expr.outOfRange?, Option.or_eq_none_iff] at h
    exact (ihx h.1).bind₂ (ihy h.2) fun t f g _ hf hg => computes_connective .xor hf hg

/-- Two subexpressions, the first variable out of range being in one of them. -/
theorem panics_pair {x y : Expr} {k : Bdd → Bdd → ManagerM Bdd} {i : ℕ}
    (ihx : ∀ {i}, x.outOfRange? (2 ^ L) = some i →
      Panics m L x.build (.varIndexOutOfRange i (2 ^ L)))
    (ihy : ∀ {i}, y.outOfRange? (2 ^ L) = some i →
      Panics m L y.build (.varIndexOutOfRange i (2 ^ L)))
    (h : (x.outOfRange? (2 ^ L)).or (y.outOfRange? (2 ^ L)) = some i) :
    Panics m L (x.build >>= fun f => y.build >>= fun g => k f g)
      (.varIndexOutOfRange i (2 ^ L)) := by
  rw [Option.or_eq_some_iff] at h
  rcases h with hx | ⟨hx, hy⟩
  · exact (ihx hx).bind
  · exact .after (computes_build hx) fun f => (ihy hy).bind

/-- Otherwise the calls panic at the first variable that is out of range. -/
theorem panics_build {e : Expr} {i : ℕ} (h : e.outOfRange? (2 ^ L) = some i) :
    Panics m L e.build (.varIndexOutOfRange i (2 ^ L)) := by
  induction e generalizing i with
  | true | false => cases h
  | var j =>
    rw [Expr.outOfRange?] at h
    split at h
    next => cases h
    next hj =>
      obtain rfl := Option.some.inj h
      intro t _ ht hL
      have htotal : t.totalVars = 2 ^ L := by rw [Manager.totalVars, hL]
      rw [← htotal] at hj ⊢
      exact ⟨t, mkProj_outOfRange hj, le_rfl, ht⟩
  | not e ih => exact (ih h).bind
  | and x y ihx ihy | or x y ihx ihy | xor x y ihx ihy => exact panics_pair ihx ihy h

end Build

section Complete

/-- The expression that is true at one assignment only, up to a number of variables. -/
def minterm {L : ℕ} (a : Asg L) : ℕ → Expr
  | 0 => .true
  | i + 1 => .and (minterm a i) (if a.get i then .var i else .not (.var i))

/-- The disjunction of the minterms of a list of assignments. -/
def disjunction {L : ℕ} : List (Asg L) → Expr
  | [] => .false
  | a :: as => .or (minterm a (2 ^ L)) (disjunction as)

/-- The expression of a function, by its truth table. -/
def ofFunction {L : ℕ} (F : Asg L → Bool) : Expr := disjunction (all.filter F)

variable {L : ℕ}

/-- The variables of a minterm are in range. -/
theorem outOfRange?_minterm (a : Asg L) {n : ℕ} (hn : n ≤ 2 ^ L) :
    (minterm a n).outOfRange? (2 ^ L) = none := by
  induction n with
  | zero => rfl
  | succ n ih =>
    have hvar : (if n < 2 ^ L then none else some n) = none := if_pos hn
    rw [minterm, Expr.outOfRange?, ih (by omega), Option.none_or]
    split <;> exact hvar

/-- A minterm is true at its assignment only. -/
theorem value_minterm (a b : Asg L) {n : ℕ} (hn : n ≤ 2 ^ L) :
    (minterm a n).value b.toList = true ↔ ∀ i < n, b.get i = a.get i := by
  induction n with
  | zero => simp [minterm, Expr.value]
  | succ n ih =>
    have hget : b.toList.getD n false = b.get n := by
      rw [List.getD_eq_getElem?_getD, Asg.getElem?_toList b hn, Option.getD_some]
    have hliteral : (if a.get n then Expr.var n else .not (.var n)).value b.toList = true ↔
        b.get n = a.get n := by
      cases ha : a.get n <;> simp only [if_true, if_false, Expr.value, hget, Bool.false_eq_true,
        Bool.not_eq_true']
    rw [minterm, Expr.value, Bool.and_eq_true, ih (by omega), hliteral]
    exact Nat.forall_lt_succ_right.symm

/-- Assignments are determined by the values of their variables. -/
theorem eq_of_get {a b : Asg L} (h : ∀ i < 2 ^ L, b.get i = a.get i) : b = a := by
  refine Asg.toList_injective (List.ext_getElem? fun i => ?_)
  by_cases hi : i < 2 ^ L
  · rw [Asg.getElem?_toList b hi, Asg.getElem?_toList a hi, h i hi]
  · rw [List.getElem?_eq_none (by rw [Asg.length_toList]; omega),
      List.getElem?_eq_none (by rw [Asg.length_toList]; omega)]

/-- The variables of a disjunction of minterms are in range. -/
theorem outOfRange?_disjunction (as : List (Asg L)) :
    (disjunction as).outOfRange? (2 ^ L) = none := by
  induction as with
  | nil => rfl
  | cons a as ih =>
    rw [disjunction, Expr.outOfRange?, outOfRange?_minterm a le_rfl, ih]
    rfl

/-- A disjunction of minterms is true at their assignments. -/
theorem value_disjunction (as : List (Asg L)) (b : Asg L) :
    (disjunction as).value b.toList = true ↔ b ∈ as := by
  induction as with
  | nil => simp [disjunction, Expr.value]
  | cons a as ih =>
    rw [disjunction, Expr.value, Bool.or_eq_true, value_minterm a b le_rfl, ih, List.mem_cons]
    refine or_congr_left ⟨eq_of_get, ?_⟩
    rintro rfl i _
    rfl

/-- The expression of a function has its value. -/
theorem value_ofFunction (F : Asg L → Bool) : (fun a => (ofFunction F).value a.toList) = F := by
  funext a
  rw [Bool.eq_iff_iff, ofFunction, value_disjunction, List.mem_filter]
  exact and_iff_right (mem_all a)

end Complete

section Sessions

variable {L : ℕ} {s : Session}

/-- **The comparison of the tests holds for every expression:** in every session, calls that
panicked included, building an expression whose variables are in range gives a diagram that
evaluates as the expression does, and its path count is the count of the truth table as long
as the counter of the rows is a 64-bit word. If a variable is out of range, building panics
with the first such variable and leaves the session undisturbed. -/
theorem build_correct (hs : AfterScript L s) (e : Expr) :
    (e.outOfRange? (2 ^ L) = none → ∃ f m', e.build s.manager = .ok f m' ∧
      (∀ a : List Bool, a.length = 2 ^ L → m'.evaluate f a = e.eval a) ∧
      (L ≤ 5 → ∃ count m'', truthTableCount e (2 ^ L) = .ok count ∧
        pathCount f m' = .ok count m'')) ∧
    ∀ i, e.outOfRange? (2 ^ L) = some i → ∃ m',
      e.build s.manager = .error (.varIndexOutOfRange i (2 ^ L)) m' ∧ Undisturbed L s m' := by
  have hv := hs.valid
  constructor
  · intro he
    obtain ⟨f, m', hok, hle, hm', hf, -⟩ :=
      computes_build he s.manager le_rfl hv.inv hv.level
    have hL : m'.level = L := hle.level.trans hv.level
    refine ⟨f, m', hok, ?_, ?_⟩
    · refine forall_toList_iff.mp fun a => ?_
      rw [hf.evaluate hL hv.level_le.2, eval_of_none he (Asg.length_toList a)]
    · intro hL5
      obtain ⟨count, m'', hcount, -, -, rfl, -⟩ := pathCount_returns hm' hL (by omega) hf
      exact ⟨_, m'', truthTableCount_eq he, hcount⟩
  · intro i he
    obtain ⟨m', herror, hle, hm'⟩ :=
      panics_build he s.manager le_rfl hv.inv hv.level
    exact ⟨m', herror, hv.undisturbed hle hm'⟩

theorem build_correct_sample :
    ∃ f m', (Expr.xor (.var 0) (.var 1)).build sampleSession.manager = .ok f m' ∧
      (∀ a : List Bool, a.length = 2 ^ 1 →
        m'.evaluate f a = (Expr.xor (.var 0) (.var 1)).eval a) ∧
      (1 ≤ 5 → ∃ count m'', truthTableCount (Expr.xor (.var 0) (.var 1)) (2 ^ 1) = .ok count ∧
        pathCount f m' = .ok count m'') :=
  (build_correct sampleSession_reachable.afterScript (.xor (.var 0) (.var 1))).1 (by decide)

/-- **Equal handles decide equivalence:** the diagrams of two expressions, built one after
the other in any session, are equal exactly if the expressions are equivalent. -/
theorem build_eq_iff (hs : AfterScript L s) {e e' : Expr} (he : e.outOfRange? (2 ^ L) = none)
    (he' : e'.outOfRange? (2 ^ L) = none) :
    ∃ f f' m₁ m₂, e.build s.manager = .ok f m₁ ∧ e'.build m₁ = .ok f' m₂ ∧
      (m₂.eq f f' = true ↔ ∀ a : List Bool, a.length = 2 ^ L → e.eval a = e'.eval a) := by
  have hv := hs.valid
  obtain ⟨f, m₁, hok, hle, hm₁, hf, -⟩ := computes_build he s.manager le_rfl hv.inv hv.level
  have hL₁ : m₁.level = L := hle.level.trans hv.level
  obtain ⟨f', m₂, hok', hle', -, hf', -⟩ := computes_build he' m₁ hle hm₁ hL₁
  have hL₂ : m₂.level = L := hle'.level.trans hL₁
  refine ⟨f, f', m₁, m₂, hok, hok', ?_⟩
  rw [Manager.eq, decide_eq_true_iff, ← forall_toList_iff]
  constructor
  · rintro rfl a
    have heq := congrFun ((hf.mono hle').function_unique hf' hL₂ hv.level_le.2) a
    rw [eval_of_none he (Asg.length_toList a), eval_of_none he' (Asg.length_toList a), heq]
  · intro h
    have heq : (fun a : Asg L => e.value a.toList) = fun a => e'.value a.toList := by
      funext a
      have ha := h a
      rw [eval_of_none he (Asg.length_toList a), eval_of_none he' (Asg.length_toList a)] at ha
      exact Except.ok.inj ha
    rw [← heq] at hf'
    exact (hf.mono hle').unique hf'

theorem build_eq_iff_sample :
    ∃ f f' m₁ m₂, (Expr.not (.and (.var 0) (.var 1))).build sampleSession.manager = .ok f m₁ ∧
      (Expr.or (.not (.var 0)) (.not (.var 1))).build m₁ = .ok f' m₂ ∧
      (m₂.eq f f' = true ↔ ∀ a : List Bool, a.length = 2 ^ 1 →
        (Expr.not (.and (.var 0) (.var 1))).eval a =
          (Expr.or (.not (.var 0)) (.not (.var 1))).eval a) :=
  build_eq_iff sampleSession_reachable.afterScript (by decide) (by decide)

/-- **Every boolean function is built:** for every level and every function of the variables
there is one expression that builds, in whatever session of that level, a diagram that
evaluates to the function, and any handle returned earlier that evaluates to it is that same
diagram. -/
theorem build_complete (L : ℕ) (F : List Bool → Bool) :
    ∃ e : Expr, ∀ s : Session, AfterScript L s →
      ∃ (f : Bdd) (m' : Manager), e.build s.manager = .ok f m' ∧
        (∀ a : List Bool, a.length = 2 ^ L → m'.evaluate f a = .ok (F a)) ∧
        ∀ g ∈ s.returned, (∀ a : List Bool, a.length = 2 ^ L →
          s.manager.evaluate g.bdd a = .ok (F a)) → g.bdd = f := by
  refine ⟨ofFunction fun a : Asg L => F a.toList, fun s hs => ?_⟩
  have hv := hs.valid
  have he : (ofFunction fun a : Asg L => F a.toList).outOfRange? (2 ^ L) = none :=
    outOfRange?_disjunction _
  obtain ⟨f, m', hok, hle, hm', hf, -⟩ := computes_build he s.manager le_rfl hv.inv hv.level
  rw [value_ofFunction fun a : Asg L => F a.toList] at hf
  have hL : m'.level = L := hle.level.trans hv.level
  refine ⟨f, m', hok, ?_, ?_⟩
  · exact forall_toList_iff.mp fun a => hf.evaluate hL hv.level_le.2 a
  · intro g hg hF
    have hfunction : (fun a : Asg L => g.function a.toList) = fun a => F a.toList := by
      funext a
      have ha := hF a.toList (Asg.length_toList a)
      rw [hv.evaluate hg (Asg.length_toList a)] at ha
      exact Except.ok.inj ha
    have hdenotes := (hv.returned g hg).mono hle
    rw [hfunction] at hdenotes
    exact hdenotes.unique hf

/-- The conjunction of all variables, by one expression in two sessions. -/
theorem build_complete_sample :
    ∃ e : Expr, ∀ s ∈ [sampleLiterals, sampleSession],
      ∃ (f : Bdd) (m' : Manager), e.build s.manager = .ok f m' ∧
        (∀ a : List Bool, a.length = 2 ^ 1 → m'.evaluate f a = .ok (a.all id)) ∧
        ∀ g ∈ s.returned, (∀ a : List Bool, a.length = 2 ^ 1 →
          s.manager.evaluate g.bdd a = .ok (a.all id)) → g.bdd = f := by
  obtain ⟨e, he⟩ := build_complete 1 fun a => a.all id
  exact ⟨e, List.forall_mem_cons.mpr ⟨he _ sampleLiterals_reachable.1.afterScript,
    List.forall_mem_singleton.mpr (he _ sampleSession_reachable.afterScript)⟩⟩

end Sessions

end Cflobdd.Corpus
