import Cflobdd.Corpus
import Cflobdd.Cylinder.Weight
import Cflobdd.Measure

/-!
# The majority example

The example program makes a diagram that is true when at least half of the first variables
are, as a disjunction of cubes, and compares its path count with a closed form. Here it is
followed for any number of variables and in any session: its loops compute the majority
function, and its comparison succeeds.
-/

namespace Cflobdd.Majority

open FirstVisit Growing Cylinder Enumerated Corpus

/-- `count_ones`: the number of bits that are set in a word of 32 bits. -/
def countOnes (mask : ℕ) : ℕ := weight 32 mask

/-- One variable of a cube. -/
def cubeStep (mask : ℕ) (cube : Bdd) (i : ℕ) : ManagerM Bdd := do
  if (mask >>> i) &&& 1 == 1 then
    let xi ← mkProj i
    and cube xi
  else return cube

/-- One subset of the variables: the cube of its members, if there are enough of them. -/
def maskStep (n threshold : ℕ) (f : Bdd) (mask : ℕ) : ManagerM Bdd := do
  if countOnes mask < threshold then return f
  else
    let cube ← mkTrue
    let cube ← (List.range n).foldlM (cubeStep mask) cube
    or f cube

/-- The loops of `main`: the diagram that is true when at least half of the first `n`
variables are. -/
def majority (n : ℕ) : ManagerM Bdd := do
  let threshold := (n + 1) / 2
  let f ← mkFalse
  (List.range (2 ^ n)).foldlM (maskStep n threshold) f

/-- `binomial` -/
def binomial (n k : ℕ) : ℕ :=
  if n < k then 0
  else (List.range (min k (n - k))).foldl (fun result i => result * (n - i) / (i + 1)) 1

/-- `expected`: the closed form that the path count is compared with. -/
def expected (totalVars n : ℕ) : ℕ :=
  let threshold := (n + 1) / 2
  (List.range' threshold (n + 1 - threshold)).foldl (fun acc j => acc + binomial n j) 0 *
    2 ^ (totalVars - n)

section Arithmetic

/-- Every division in the product is exact. -/
theorem binomial_loop (n k : ℕ) :
    (List.range k).foldl (fun result i => result * (n - i) / (i + 1)) 1 = n.choose k := by
  induction k with
  | zero => rw [List.range_zero, List.foldl_nil, Nat.choose_zero_right]
  | succ k ih =>
    rw [List.range_succ, List.foldl_append, ih, List.foldl_cons, List.foldl_nil,
      ← Nat.choose_succ_right_eq, Nat.mul_div_cancel _ (Nat.succ_pos k)]

/-- The loop computes the binomial coefficient. -/
theorem binomial_eq (n k : ℕ) : binomial n k = n.choose k := by
  unfold binomial
  split
  next h => rw [Nat.choose_eq_zero_of_lt h]
  next h =>
    rw [binomial_loop]
    rcases Nat.le_total k (n - k) with hle | hle
    · rw [min_eq_left hle]
    · rw [min_eq_right hle, Nat.choose_symm (Nat.not_lt.mp h)]

/-- The closed form sums a tail of a row of Pascal's triangle. -/
theorem expected_eq (totalVars n : ℕ) :
    expected totalVars n = atLeast n ((n + 1) / 2) * 2 ^ (totalVars - n) := by
  have hsum : ∀ t d : ℕ, (List.range' t d).foldl (fun acc j => acc + binomial n j) 0 =
      ∑ j ∈ Finset.range d, n.choose (t + j) := by
    intro t d
    induction d with
    | zero => rfl
    | succ d ih =>
      rw [List.range'_concat, List.foldl_append, ih, Finset.sum_range_succ, List.foldl_cons,
        List.foldl_nil, binomial_eq, Nat.one_mul]
  rw [expected, hsum, atLeast]

/-- The bit test of the loop. -/
theorem shift_and_one (mask i : ℕ) : ((mask >>> i) &&& 1 == 1) = mask.testBit i := by
  rw [Nat.testBit_eq_decide_div_mod_eq, Nat.and_one_is_mod, Nat.shiftRight_eq_div_pow]
  rfl

end Arithmetic

section Words

variable {L n : ℕ}

/-- An assignment lists the bits of a word. -/
theorem exists_word (a : Asg L) :
    ∃ v < 2 ^ 2 ^ L, a.toList = (List.range (2 ^ L)).map v.testBit := by
  have hmem : a.toList ∈ allAssignments (2 ^ L) :=
    (allAssignments_perm L).mem_iff.mpr (List.mem_map_of_mem (mem_all a))
  obtain ⟨v, hv, heq⟩ := List.mem_map.mp hmem
  exact ⟨v, List.mem_range.mp hv, heq.symm⟩

/-- The true values among the first `n` are the weight of the word. -/
theorem count_take (hn : n ≤ 2 ^ L) (v : ℕ) :
    (((List.range (2 ^ L)).map v.testBit).take n).count true = weight n v := by
  rw [← List.map_take, List.take_range, min_eq_left hn, List.count, List.countP_map, weight]
  congr 1
  funext i
  simp

end Words

section Loops

variable {m : Manager} {L n : ℕ}

/-- The cube of the members of a subset that are among some of the variables. -/
def cube (mask : ℕ) (is : List ℕ) (a : Asg L) : Bool :=
  is.all fun i => !mask.testBit i || a.toList.getD i false

/-- The inner loop makes the cube of a subset. -/
theorem computes_cube (hn : n ≤ 2 ^ L) (mask : ℕ) {f : Bdd} (hf : Denotes m L f ⊤) :
    Computes m L ((List.range n).foldlM (cubeStep mask) f) (cube mask (List.range n)) := by
  refine Computes.foldlM (K := cube mask) hf ?_
  intro done i rest his t f' _ hf'
  have hi : i < 2 ^ L := by
    have hmem : i ∈ List.range n := by simp [his]
    exact (List.mem_range.mp hmem).trans_le hn
  have hcube : cube (L := L) mask (done ++ [i]) = fun a =>
      cube mask done a && (!mask.testBit i || a.toList.getD i false) := by
    funext a
    simp [cube]
  unfold cubeStep
  rw [shift_and_one, hcube]
  cases hbit : mask.testBit i with
  | true =>
    exact (computes_var hi).bind fun u xi hle hxi =>
      computes_connective .and (hf'.mono hle) hxi
  | false =>
    simp only [Bool.not_false, Bool.true_or, Bool.and_true]
    exact computes_pure hf'

/-- Some of the subsets with enough members has all of them true. -/
def someCube (n threshold : ℕ) (masks : List ℕ) (a : Asg L) : Bool :=
  masks.any fun mask => decide (threshold ≤ countOnes mask) && cube mask (List.range n) a

/-- The outer loop makes the disjunction of the cubes. -/
theorem computes_someCube (hn : n ≤ 2 ^ L) (threshold : ℕ) (masks : List ℕ) {f : Bdd}
    (hf : Denotes m L f ⊥) :
    Computes m L (masks.foldlM (maskStep n threshold) f) (someCube n threshold masks) := by
  refine Computes.foldlM (K := someCube n threshold) hf ?_
  intro done mask rest _ t f' _ hf'
  have hsome : someCube (L := L) n threshold (done ++ [mask]) = fun a =>
      someCube n threshold done a ||
        (decide (threshold ≤ countOnes mask) && cube mask (List.range n) a) := by
    funext a
    simp [someCube]
  unfold maskStep
  rw [hsome]
  by_cases hfew : countOnes mask < threshold
  · rw [if_pos hfew]
    simp only [decide_eq_false (Nat.not_le.mpr hfew), Bool.false_and, Bool.or_false]
    exact computes_pure hf'
  · rw [if_neg hfew]
    simp only [decide_eq_true (Nat.not_lt.mp hfew), Bool.true_and]
    refine computes_mkTrue.bind fun u top hle htop => ?_
    refine (computes_cube hn mask htop).bind fun w c hle' hc => ?_
    exact computes_connective .or (hf'.mono (hle.trans hle')) hc

/-- There is such a subset exactly if enough variables are true: it can be taken to be the set
of the variables that are true. -/
theorem someCube_eq (hn : n ≤ 2 ^ L) (hn' : n < 32) (threshold : ℕ) :
    someCube n threshold (List.range (2 ^ n)) =
      fun a : Asg L => decide (threshold ≤ (a.toList.take n).count true) := by
  funext a
  obtain ⟨v, -, hv⟩ := exists_word a
  have hcube : ∀ mask, cube mask (List.range n) a = true ↔
      ∀ i < n, mask.testBit i = true → v.testBit i = true := by
    intro mask
    rw [cube, List.all_eq_true, hv]
    refine ⟨fun h i hi hbit => ?_, fun h i hi => ?_⟩
    · have hvalue := h i (List.mem_range.mpr hi)
      have hlt : i < 2 ^ L := hi.trans_le hn
      simpa [hbit, hlt] using hvalue
    · have hlt : i < 2 ^ L := (List.mem_range.mp hi).trans_le hn
      cases hbit : mask.testBit i with
      | false => rfl
      | true => simpa [hlt] using h i (List.mem_range.mp hi) hbit
  rw [Bool.eq_iff_iff, someCube, List.any_eq_true, decide_eq_true_iff, hv, count_take hn]
  constructor
  · rintro ⟨mask, hmask, hall⟩
    obtain ⟨henough, hmembers⟩ := Bool.and_eq_true_iff.mp hall
    rw [decide_eq_true_iff, countOnes, weight_of_lt (List.mem_range.mp hmask) hn'.le] at henough
    exact henough.trans (weight_mono ((hcube mask).mp hmembers))
  · intro henough
    have hbits : ∀ i < n, (v % 2 ^ n).testBit i = v.testBit i := by
      intro i hi
      rw [Nat.testBit_mod_two_pow, decide_eq_true hi, Bool.true_and]
    have hlt : v % 2 ^ n < 2 ^ n := Nat.mod_lt _ (Nat.two_pow_pos n)
    refine ⟨v % 2 ^ n, List.mem_range.mpr hlt, Bool.and_eq_true_iff.mpr ⟨?_, ?_⟩⟩
    · rw [decide_eq_true_iff, countOnes, weight_of_lt hlt hn'.le]
      exact henough.trans (weight_mono fun i hi hbit => by rwa [hbits i hi])
    · exact (hcube _).mpr fun i hi hbit => by rwa [← hbits i hi]

/-- The two loops compute the majority of the first `n` variables. -/
theorem computes_majority (hn : n ≤ 2 ^ L) (hn' : n < 32) :
    Computes m L (majority n) fun a =>
      decide ((n + 1) / 2 ≤ (a.toList.take n).count true) := by
  unfold majority
  refine computes_mkFalse.bind fun t f _ hf => ?_
  rw [← someCube_eq hn hn']
  exact computes_someCube hn _ _ hf

/-- The number of assignments at which enough of the first variables are true. -/
theorem volume_majority (hn : n ≤ 2 ^ L) (threshold : ℕ) :
    (volume fun a : Asg L => decide (threshold ≤ (a.toList.take n).count true)) =
      atLeast n threshold * 2 ^ (2 ^ L - n) := by
  have hcount : (volume fun a : Asg L => decide (threshold ≤ (a.toList.take n).count true)) =
      (allAssignments (2 ^ L)).countP fun l => decide (threshold ≤ (l.take n).count true) := by
    rw [(allAssignments_perm L).countP_eq, List.countP_map, volume]
    rfl
  have hwords := countP_weight n (2 ^ L - n) threshold
  rw [Nat.add_sub_cancel' hn] at hwords
  rw [hcount, allAssignments, List.countP_map, ← hwords]
  congr 1
  funext v
  rw [Function.comp, count_take hn]

end Loops

section Sessions

variable {L n : ℕ} {s : Session}

/-- **The majority example:** in every session, calls that panicked included, the loops of the
example return the diagram that is true when at least half of the first `n` variables are, and
up to level six its path count is the closed form that the example computes. -/
theorem majority_correct (hs : AfterScript L s) (hn : n ≤ 2 ^ L) (hn' : n < 32) :
    ∃ f m', majority n s.manager = .ok f m' ∧
      (∀ a : List Bool, a.length = 2 ^ L →
        m'.evaluate f a = .ok (decide (n ≤ 2 * (a.take n).count true))) ∧
      (L ≤ 6 → Gives (pathCount f) m' (expected (2 ^ L) n)) := by
  have hv := hs.valid
  obtain ⟨f, m', hok, hle, hm', hf, -⟩ :=
    computes_majority hn hn' s.manager le_rfl hv.inv hv.level
  have hL := hle.level.trans hv.level
  refine ⟨f, m', hok, ?_, fun hL6 => ?_⟩
  · refine forall_toList_iff.mp fun a => ?_
    rw [hf.evaluate hL (hL ▸ hm'.level_mem.2), Except.ok.injEq]
    congr 1
    rw [eq_iff_iff]
    omega
  · rw [expected_eq, ← volume_majority hn]
    exact hf.gives_volume hm' hL hL6

theorem majority_correct_sample :
    ∃ f m', majority 2 sampleSession.manager = .ok f m' ∧
      (∀ a : List Bool, a.length = 2 ^ 1 →
        m'.evaluate f a = .ok (decide (2 ≤ 2 * (a.take 2).count true))) ∧
      (1 ≤ 6 → Gives (pathCount f) m' (expected (2 ^ 1) 2)) :=
  majority_correct sampleSession_reachable.afterScript (by decide) (by decide)

end Sessions

end Cflobdd.Majority
