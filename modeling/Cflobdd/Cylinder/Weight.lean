import Mathlib.Algebra.BigOperators.Group.Finset.Basic
import Mathlib.Data.Nat.Bitwise
import Mathlib.Data.Nat.Choose.Sum

/-!
# The weight of a word

The weight of a word is the number of bits that are set among its first `n`. The words with
at least a given weight are counted by a tail of a row of Pascal's triangle.
-/

namespace Cylinder

/-- The number of bits that are set among the first `n`. -/
def weight (n v : ℕ) : ℕ := (List.range n).countP v.testBit

/-- The number of ways to set at least `t` of `n` bits. -/
def atLeast (n t : ℕ) : ℕ := ∑ j ∈ Finset.range (n + 1 - t), n.choose (t + j)

/-- The first bit is the parity, and the others are those of the half. -/
theorem weight_succ (n u : ℕ) (b : Bool) :
    weight (n + 1) (2 * u + b.toNat) = b.toNat + weight n u := by
  have hhalf : (2 * u + b.toNat) / 2 = u := by
    have hb := Bool.toNat_lt b
    omega
  have hfirst : (2 * u + b.toNat).testBit 0 = b := by cases b <;> simp
  have hrest : (2 * u + b.toNat).testBit ∘ Nat.succ = u.testBit := by
    funext i
    rw [Function.comp, Nat.succ_eq_add_one, Nat.testBit_add_one, hhalf]
  rw [weight, List.range_succ_eq_map, List.countP_cons, List.countP_map, hrest, hfirst,
    Nat.add_comm]
  cases b <;> rfl

/-- A word below `2 ^ n` has no other bits. -/
theorem weight_of_lt {n k v : ℕ} (hv : v < 2 ^ n) (hk : n ≤ k) : weight k v = weight n v := by
  obtain ⟨d, rfl⟩ := Nat.exists_eq_add_of_le hk
  rw [weight, List.range_add, List.countP_append, weight, Nat.add_eq_left, List.countP_map,
    List.countP_eq_zero]
  intro i _
  have hpow : 2 ^ n ≤ 2 ^ (n + i) := Nat.pow_le_pow_right (by decide) (Nat.le_add_right n i)
  rw [Function.comp, Nat.testBit_lt_two_pow (hv.trans_le hpow)]
  exact Bool.false_ne_true

/-- A word with more bits set has more weight. -/
theorem weight_mono {n v w : ℕ} (h : ∀ i < n, v.testBit i = true → w.testBit i = true) :
    weight n v ≤ weight n w :=
  List.countP_mono_left fun i hi => h i (List.mem_range.mp hi)

/-- Pascal's rule for the tails of the rows. -/
theorem atLeast_succ_succ (n t : ℕ) :
    atLeast (n + 1) (t + 1) = atLeast n t + atLeast n (t + 1) := by
  have hterm : ∀ j, (n + 1).choose (t + 1 + j) = n.choose (t + j) + n.choose (t + 1 + j) := by
    intro j
    rw [show t + 1 + j = (t + j) + 1 by omega, Nat.choose_succ_succ]
  rw [atLeast, show n + 1 + 1 - (t + 1) = n + 1 - t by omega]
  simp only [hterm]
  rw [Finset.sum_add_distrib, atLeast, atLeast, show n + 1 - (t + 1) = n - t by omega]
  congr 1
  rcases Nat.lt_or_ge n t with h | h
  · rw [show n + 1 - t = 0 by omega, show n - t = 0 by omega]
  · rw [show n + 1 - t = (n - t) + 1 by omega, Finset.sum_range_succ,
      Nat.choose_eq_zero_of_lt (by omega), Nat.add_zero]

/-- All inputs have a weight of at least zero. -/
theorem atLeast_zero_right (n : ℕ) : atLeast n 0 = 2 ^ n := by
  rw [atLeast, ← Nat.sum_range_choose]
  simp

/-- Without coordinates there is no weight. -/
theorem atLeast_zero_succ (t : ℕ) : atLeast 0 (t + 1) = 0 := by
  rw [atLeast, show 0 + 1 - (t + 1) = 0 by omega, Finset.sum_range_zero]

/-- The words below `2 * k` are the words below `k` with one more bit in front. -/
theorem countP_range_two_mul (k : ℕ) (P : ℕ → Bool) :
    (List.range (2 * k)).countP P =
      (List.range k).countP (fun u => P (2 * u + false.toNat)) +
        (List.range k).countP fun u => P (2 * u + true.toNat) := by
  induction k with
  | zero => rfl
  | succ k ih =>
    rw [Nat.mul_succ, List.range_succ, List.range_succ, List.range_succ]
    simp only [List.countP_append, List.countP_singleton, ih, Bool.toNat_false, Bool.toNat_true,
      Nat.add_zero]
    omega

/-- **Words of a weight:** among the words of `n + k` bits, those with at least `t` of the
first `n` bits set. -/
theorem countP_weight (n k t : ℕ) :
    (List.range (2 ^ (n + k))).countP (fun v => decide (t ≤ weight n v)) =
      atLeast n t * 2 ^ k := by
  induction n generalizing t with
  | zero =>
    cases t with
    | zero =>
      rw [List.countP_eq_length.mpr fun v _ => decide_eq_true (Nat.zero_le _), List.length_range,
        atLeast_zero_right, Nat.zero_add, Nat.pow_zero, Nat.one_mul]
    | succ t =>
      rw [List.countP_eq_zero.mpr fun v _ => by simp [weight], atLeast_zero_succ, Nat.zero_mul]
  | succ n ih =>
    rw [show n + 1 + k = (n + k) + 1 by omega, Nat.pow_succ, Nat.mul_comm, countP_range_two_mul]
    simp only [weight_succ]
    simp only [Bool.toNat_false, Bool.toNat_true, Nat.zero_add]
    cases t with
    | zero =>
      have hall := ih 0
      simp only [Nat.zero_le] at hall ⊢
      rw [hall, atLeast_zero_right, atLeast_zero_right]
      ring
    | succ t =>
      have hset : (fun u => decide (t + 1 ≤ 1 + weight n u)) =
          fun u => decide (t ≤ weight n u) := by
        funext u
        congr 1
        rw [eq_iff_iff]
        omega
      rw [hset, ih, ih, atLeast_succ_succ]
      ring

end Cylinder
