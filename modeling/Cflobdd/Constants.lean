import Cflobdd.Primitives

/-!
# Constants and projections

`no_distinction` gives the node of the constant functions and `mk_distinction` that of
a variable. The diagrams made from them denote the constants and the variables.
-/

namespace Cflobdd

open FirstVisit Growing

variable {m : Manager}

/-- Filling an entry of the table of constant nodes with a constant node. -/
theorem recordNoDistinction_spec {k : ℕ} {id : NodeId} (hm : m.Inv) (hk : k ≤ m.level)
    (h : Represents m k (fun _ => ()) id) :
    m ≤ recordNoDistinction k id m ∧ (recordNoDistinction k id m).Inv ∧
      lookupNoDistinction k (recordNoDistinction k id m) = some id := by
  have hlt : k < m.noDistinctionTable.length := by
    rw [hm.tableLength]
    omega
  have hself : lookupNoDistinction k (recordNoDistinction k id m) = some id := by
    simp [lookupNoDistinction, recordNoDistinction, List.getElem?_set_self hlt]
  have hother : ∀ k', k' ≠ k → lookupNoDistinction k' (recordNoDistinction k id m) =
      lookupNoDistinction k' m := by
    intro k' hne
    rw [lookupNoDistinction, recordNoDistinction, List.getElem?_set_ne (Ne.symm hne)]
    rfl
  have hle : m ≤ recordNoDistinction k id m :=
    { nodes := List.prefix_rfl
      returnMaps := List.prefix_rfl
      level := rfl
      noDistinction := by
        intro k' id' h'
        by_cases heq : k' = k
        · subst heq
          rw [hself, (hm.noDistinction _ _ h').unique h]
        · rw [hother k' heq, h']
      pairProducts := fun _ _ h => h
      reductions := fun _ _ h => h
      pathCounts := fun _ _ h => h
      rmSingleton0 := rfl
      rmSingleton1 := rfl
      rmIdentity2 := rfl
      memo := rfl
      shortcuts := rfl }
  refine ⟨hle, ?_, hself⟩
  refine hm.grow hle (fun _ _ h => .inl h) List.length_set ?_ (fun _ _ h => .inl h)
    (fun _ _ h => .inl h) (fun _ _ h => .inl h) (fun _ h => .inl h)
  intro k' id' h'
  by_cases heq : k' = k
  · subst heq
    rw [hself] at h'
    obtain rfl := Option.some.inj h'
    exact .inr (h.mono hle)
  · rw [hother k' heq] at h'
    exact .inl h'

/-- The parts of the constant node of the next level. -/
theorem parts_const {k : ℕ} (hm : m.Inv) {child : NodeId}
    (h : Represents m k (fun _ => ()) child) :
    Parts m (fun _ : Asg (k + 1) => ()) ⟨child, m.rmSingleton0⟩ [⟨child, m.rmSingleton0⟩] := by
  have hrows : visited (row fun _ : Asg (k + 1) => ()) = [fun _ => ()] :=
    visited_of_const (.allFalse k) fun _ => rfl
  have hvalues : ∀ j, visited (fun _ : Asg j => ()) = [()] := fun j =>
    visited_of_const (.allFalse j) fun _ => rfl
  constructor
  · exact h.congr fun _ _ => ⟨fun _ => rfl, fun _ => rfl⟩
  · rw [hrows]
    exact hm.rmSingleton0
  · rw [hrows, hvalues]
    refine .cons ⟨h, ?_⟩ .nil
    rw [hvalues]
    exact hm.rmSingleton0

/-- `no_distinction` returns the node of the constants of its level. -/
theorem noDistinction_returns {k : ℕ} (hm : m.Inv) (hk : k ≤ m.level) :
    Returns (noDistinction k) m fun n m' => Represents m' k (fun _ => ()) n := by
  induction k generalizing m with
  | zero => exact Runs.pure hm (Represents.dontCare rfl)
  | succ k ih =>
    unfold noDistinction
    refine reads_bind hm (fun t hle ht => ?_) ?_
    · rw [ht.tableLength, hle.level, hm.tableLength]
    refine assert_bind (decide_eq_true (by rw [hm.tableLength]; omega)) ?_
    refine Runs.memoized hm (fun t hle => hle.memo) ?_ ?_ ?_ ?_
    · intro t u id _ htu _ _ hlookup
      exact htu.noDistinction _ _ hlookup
    · exact hm.noDistinction (k + 1)
    · refine Runs.bind (ih hm (by omega)) ?_
      intro child m' hle hm' hchild
      refine reads_bind hm' (fun _ hle _ => hle.rmSingleton0) ?_
      have hk' : k + 1 ≤ m'.level := by rwa [hle.level]
      refine internInternal_returns hm' hk' ?_ (parts_const hm' hchild)
      rw [visited_of_const (.allFalse _) fun _ => rfl]
      rfl
    · intro id t hle ht hid
      obtain ⟨hle', hinv, hlookup⟩ := recordNoDistinction_spec ht (by rwa [hle.level]) hid
      exact ⟨hle', hinv, hid.mono hle', hlookup⟩

/-- A constant node denotes a constant under a value map of one value. -/
theorem denotes_const {f : Bdd} {L : ℕ} {b : Bool} (hroot : Represents m L (fun _ => ()) f.root)
    (hvalues : m.body? f.values = some [b.toNat]) : Denotes m L f fun _ => b := by
  refine ⟨hroot.congr fun _ _ => by simp, ?_⟩
  rw [visited_of_const (.allFalse L) fun _ => rfl]
  exact hvalues

/-- `mk_true` returns the constant true. -/
theorem mkTrue_returns (hm : m.Inv) :
    Returns mkTrue m fun f m' => Denotes m' m.level f fun _ => true := by
  refine level_bind hm ?_
  refine Runs.bind (noDistinction_returns hm le_rfl) ?_
  intro root m' _ hm' hroot
  refine reads_bind hm' (fun _ hle _ => hle.rmSingleton1) ?_
  exact Runs.pure hm' (denotes_const hroot hm'.rmSingleton1)

/-- `mk_false` returns the constant false. -/
theorem mkFalse_returns (hm : m.Inv) :
    Returns mkFalse m fun f m' => Denotes m' m.level f fun _ => false := by
  refine level_bind hm ?_
  refine Runs.bind (noDistinction_returns hm le_rfl) ?_
  intro root m' _ hm' hroot
  refine reads_bind hm' (fun _ hle _ => hle.rmSingleton0) ?_
  exact Runs.pure hm' (denotes_const hroot hm'.rmSingleton0)

section Projection

variable {k i : ℕ}

/-- The parts of the node of a variable that the A-connection reads. -/
theorem parts_get_left (hm : m.Inv) (hi : i < 2 ^ k) {aTarget nd : NodeId}
    (ha : Represents m k (fun x => x.get i) aTarget) (hnd : Represents m k (fun _ => ()) nd) :
    Parts m (fun a : Asg (k + 1) => a.get i) ⟨aTarget, m.rmIdentity2⟩
      [⟨nd, m.rmSingleton0⟩, ⟨nd, m.rmSingleton1⟩] := by
  have hrow : row (fun a : Asg (k + 1) => a.get i) = fun x => (fun b _ => b) (x.get i) := by
    funext x y
    exact Asg.get_node_left x y hi
  have hinj : Function.Injective fun (b : Bool) (_ : Asg k) => b :=
    fun b b' h => congrFun h (.allFalse k)
  have hrows : visited (row fun a : Asg (k + 1) => a.get i) =
      [fun _ => false, fun _ => true] := by
    rw [hrow, visited_comp_of_injOn (hinj.injOn), visited_get hi]
    rfl
  have hvalues : visited (fun a : Asg (k + 1) => a.get i) = [false, true] :=
    visited_get (by rw [pow_succ]; omega)
  constructor
  · rw [hrow]
    exact ha.comp hinj.injOn
  · rw [hrows]
    exact hm.rmIdentity2
  · rw [hrows, hvalues]
    refine .cons ⟨hnd.congr fun _ _ => by simp, ?_⟩
      (.cons ⟨hnd.congr fun _ _ => by simp, ?_⟩ .nil)
    · rw [visited_of_const (.allFalse k) fun _ => rfl]
      exact hm.rmSingleton0
    · rw [visited_of_const (.allFalse k) fun _ => rfl]
      exact hm.rmSingleton1

/-- The parts of the node of a variable that the B-connection reads. -/
theorem parts_get_right (hm : m.Inv) (hi : ¬i < 2 ^ k) (hi' : i < 2 ^ (k + 1))
    {bTarget nd : NodeId} (hb : Represents m k (fun y => y.get (i - 2 ^ k)) bTarget)
    (hnd : Represents m k (fun _ => ()) nd) :
    Parts m (fun a : Asg (k + 1) => a.get i) ⟨nd, m.rmSingleton0⟩ [⟨bTarget, m.rmIdentity2⟩] := by
  have hrow : row (fun a : Asg (k + 1) => a.get i) = fun _ y => y.get (i - 2 ^ k) := by
    funext x y
    exact Asg.get_node_right x y hi
  have hrows : visited (row fun a : Asg (k + 1) => a.get i) = [fun y => y.get (i - 2 ^ k)] := by
    rw [hrow]
    exact visited_of_const (.allFalse k) fun _ => rfl
  constructor
  · rw [hrow]
    exact hnd.congr fun _ _ => by simp
  · rw [hrows]
    exact hm.rmSingleton0
  · rw [hrows, visited_get hi']
    refine .cons ⟨hb, ?_⟩ .nil
    rw [visited_get (by rw [pow_succ] at hi'; omega)]
    exact hm.rmIdentity2

/-- Masking off the high bit of a variable of the second half. -/
theorem xor_half (hi : ¬i < 2 ^ k) (hi' : i < 2 ^ (k + 1)) : i ^^^ 2 ^ k = i - 2 ^ k := by
  rw [pow_succ] at hi'
  obtain ⟨j, rfl⟩ : ∃ j, i = 2 ^ k + j := ⟨i - 2 ^ k, by omega⟩
  have hj : j < 2 ^ k := by omega
  have hadd : 2 ^ k + j = 2 ^ k ^^^ j := by
    refine Nat.eq_of_testBit_eq fun b => ?_
    rw [Nat.testBit_xor]
    by_cases hb : b = k
    · subst hb
      rw [Nat.testBit_two_pow_add_eq, Nat.testBit_lt_two_pow hj, Nat.testBit_two_pow_self]
      rfl
    · rw [Nat.testBit_two_pow_of_ne (Ne.symm hb), Bool.false_xor]
      rcases Nat.lt_or_gt_of_ne hb with hlt | hgt
      · exact Nat.testBit_two_pow_add_gt hlt j
      · have hlarge : 2 ^ (k + 1) ≤ 2 ^ b := Nat.pow_le_pow_right (by decide) hgt
        rw [pow_succ] at hlarge
        rw [Nat.testBit_lt_two_pow (by omega), Nat.testBit_lt_two_pow (by omega)]
  rw [hadd, Nat.xor_comm, ← Nat.xor_assoc, Nat.xor_self, Nat.zero_xor, ← hadd]
  omega

/-- `mk_distinction` returns the node of a variable of its level. -/
theorem mkDistinction_returns (hm : m.Inv) (hk : k ≤ m.level) (hi : i < 2 ^ k) :
    Returns (mkDistinction k i) m fun n m' => Represents m' k (fun a => a.get i) n := by
  induction k generalizing m i with
  | zero =>
    obtain rfl : i = 0 := by simpa using hi
    refine debugAssert_bind rfl (Runs.pure hm (Represents.fork (by simp [Asg.get_leaf])))
  | succ k ih =>
    unfold mkDistinction
    have hexits : 2 = (visited fun a : Asg (k + 1) => a.get i).length := by rw [visited_get hi]; rfl
    by_cases hhalf : i < 2 ^ k
    · simp only [if_pos hhalf]
      refine Runs.bind (ih hm (by omega) hhalf) ?_
      intro aTarget m₁ hle₁ hm₁ ha
      refine reads_bind hm₁ (fun _ hle _ => hle.rmIdentity2) ?_
      refine Runs.bind (noDistinction_returns hm₁ (by rw [hle₁.level]; omega)) ?_
      intro nd m₂ hle₂ hm₂ hnd
      refine reads_bind hm₂ (fun _ hle _ => hle.rmSingleton0) ?_
      refine reads_bind hm₂ (fun _ hle _ => hle.rmSingleton1) ?_
      rw [← hle₂.rmIdentity2]
      refine internInternal_returns hm₂ ?_ hexits (parts_get_left hm₂ hhalf (ha.mono hle₂) hnd)
      rwa [hle₂.level, hle₁.level]
    · simp only [if_neg hhalf]
      refine Runs.bind (noDistinction_returns hm (by omega)) ?_
      intro nd m₁ hle₁ hm₁ hnd
      refine reads_bind hm₁ (fun _ hle _ => hle.rmSingleton0) ?_
      rw [xor_half hhalf hi]
      refine Runs.bind (ih hm₁ (by rw [hle₁.level]; omega) (by rw [pow_succ] at hi; omega)) ?_
      intro bTarget m₂ hle₂ hm₂ hb
      refine reads_bind hm₂ (fun _ hle _ => hle.rmIdentity2) ?_
      rw [← hle₂.rmSingleton0]
      refine internInternal_returns hm₂ ?_ hexits
        (parts_get_right hm₂ hhalf hi hb (hnd.mono hle₂))
      rwa [hle₂.level, hle₁.level]

/-- `mk_proj` returns a variable. -/
theorem mkProj_returns (hm : m.Inv) (hi : i < 2 ^ m.level) :
    Returns (mkProj i) m fun f m' => Denotes m' m.level f fun a => a.get i := by
  refine totalVars_bind hm ?_
  refine assert_bind (decide_eq_true hi) ?_
  refine level_bind hm ?_
  refine Runs.bind (mkDistinction_returns hm le_rfl hi) ?_
  intro root m' _ hm' hroot
  refine reads_bind hm' (fun _ hle _ => hle.rmIdentity2) ?_
  refine Runs.pure hm' ⟨hroot, ?_⟩
  rw [visited_get hi]
  exact hm'.rmIdentity2

end Projection

end Cflobdd
