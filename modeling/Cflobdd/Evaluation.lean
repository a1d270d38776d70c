import Cflobdd.Represents

/-!
# Evaluation of canonical diagrams

A node that represents a function takes, on each assignment, the exit numbered by the
function's value. A diagram denotes a boolean function when its root represents the
function and its value map lists the function's values by their first visit. Then the
diagram evaluates to the function, and no other diagram denotes it.
-/

namespace Cflobdd

open FirstVisit

/-- The element of the second list that belongs to an element of the first. -/
theorem forall₂_getElem? {α β : Type*} {R : α → β → Prop} {xs : List α} {ys : List β}
    (h : List.Forall₂ R xs ys) {i : ℕ} {x : α} (hx : xs[i]? = some x) :
    ∃ y, ys[i]? = some y ∧ R x y := by
  induction h generalizing i with
  | nil => simp at hx
  | cons hxy _ ih =>
    cases i with
    | zero =>
      obtain rfl := Option.some.inj hx
      exact ⟨_, rfl, hxy⟩
    | succ i => exact ih hx

namespace Represents

variable {m : Manager} {k : ℕ} {α β : Type} [DecidableEq α] [DecidableEq β]
  {g : Asg k → α} {n : NodeId}

/-- The B-connection of a row. -/
theorem bConn_of_row {g : Asg (k + 1) → α} {bConns : List Connection}
    (hb : List.Forall₂ (fun r b => Represents m k r b.target ∧
      m.body? b.returnMap = some ((visited r).map (rank (visited g)))) (visited (row g)) bConns)
    (x : Asg k) :
    ∃ b, bConns[number (row g) x]? = some b ∧ Represents m k (row g x) b.target ∧
      m.body? b.returnMap = some ((visited (row g x)).map (rank (visited g))) :=
  forall₂_getElem? hb (getElem?_number (row g) x)

/-- A leaf takes the exit numbered by the value of its function. -/
theorem evaluateNode_leaf {g : Asg 0 → α} (h : Represents m 0 g n) (fuel : ℕ) (a : Asg 0) :
    m.evaluateNode (fuel + 1) n a.toList = .ok (number g a) := by
  obtain ⟨b⟩ := a
  have hlen : ([b].length == 1) = true := rfl
  rw [Represents] at h
  rw [Manager.evaluateNode, number, visited_zero, Asg.toList_leaf]
  split at h
  next heq =>
    have hconst : g (.leaf b) = g (.leaf false) := by cases b <;> simp [heq]
    rw [h, index_of_some m.record?_dontCare, if_pos heq, hconst, pure_bind]
    dsimp only
    rw [debugAssert_of_true hlen, pure_bind]
    simp [rank, Pure.pure, Except.pure]
  next hne =>
    rw [h, index_of_some m.record?_fork, if_neg hne, pure_bind]
    dsimp only
    rw [debugAssert_of_true hlen, pure_bind, index_of_some (show [b][0]? = some b from rfl),
      pure_bind]
    cases b
    · simp [rank, Pure.pure, Except.pure]
    · simp [rank, hne, Pure.pure, Except.pure]

/-- An internal node evaluates its A-target on the first half of the assignment and the
B-target selected by it on the second half. -/
theorem evaluateNode_internal {g : Asg (k + 1) → α} (h : Represents m (k + 1) g n) {fuel : ℕ}
    (ih : ∀ {β : Type} [DecidableEq β] {g' : Asg k → β} {n' : NodeId}, Represents m k g' n' →
      ∀ a, m.evaluateNode fuel n' a.toList = .ok (number g' a)) (x y : Asg k) :
    m.evaluateNode (fuel + 1) n (Asg.node x y).toList = .ok (number g (.node x y)) := by
  obtain ⟨aConn, bConns, hrecord, ha, hamap, hb⟩ := h
  obtain ⟨b, hbx, hbnode, hbmap⟩ := bConn_of_row hb x
  have hhalf : 2 ^ (k + 1) / 2 = 2 ^ k := by omega
  have htake : (x.toList ++ y.toList).take (2 ^ k) = x.toList := List.take_left' (by simp)
  have hdrop : (x.toList ++ y.toList).drop (2 ^ k) = y.toList := List.drop_left' (by simp)
  have hlen : ((Asg.node x y).toList.length == 2 ^ (k + 1)) = true := by
    rw [Asg.length_toList]
    exact beq_self_eq_true _
  have haexit : (List.range (visited (row g)).length)[number (row g) x]? =
      some (number (row g) x) := by
    rw [List.getElem?_range (number_lt (row g) x)]
  have hbexit : ((visited (row g x)).map (rank (visited g)))[number (row g x) y]? =
      some (number g (.node x y)) := by
    rw [List.getElem?_map, getElem?_number (row g x) y, Option.map_some]
    rfl
  rw [Manager.evaluateNode, index_of_some hrecord, pure_bind]
  dsimp only
  rw [debugAssert_of_true hlen, pure_bind, hhalf, Asg.toList_node, htake, hdrop, ih ha x]
  change (index m.returnMaps.bodies aConn.returnMap.raw >>= _ : Except Panic ℕ) = _
  rw [index_of_some hamap, pure_bind, index_of_some haexit, pure_bind, index_of_some hbx,
    pure_bind, ih hbnode y]
  change (index m.returnMaps.bodies b.returnMap.raw >>= _ : Except Panic ℕ) = _
  rw [index_of_some hbmap, pure_bind, index_of_some hbexit]
  rfl

/-- A node takes the exit numbered by the value of its function. -/
theorem evaluateNode (h : Represents m k g n) {fuel : ℕ} (hfuel : k < fuel) (a : Asg k) :
    m.evaluateNode fuel n a.toList = .ok (number g a) := by
  induction k generalizing α n fuel with
  | zero =>
    obtain ⟨fuel, rfl⟩ : ∃ f, fuel = f + 1 := ⟨fuel - 1, by omega⟩
    exact h.evaluateNode_leaf fuel a
  | succ k ih =>
    obtain ⟨fuel, rfl⟩ : ∃ f, fuel = f + 1 := ⟨fuel - 1, by omega⟩
    obtain _ | ⟨x, y⟩ := a
    exact h.evaluateNode_internal (fun h' a => ih h' (by omega) a) x y

/-- Functions represented by one node number their values alike. -/
theorem number_eq {g' : Asg k → β} (h : Represents m k g n) (h' : Represents m k g' n) :
    number g = number g' := by
  funext a
  have hok := h.evaluateNode (Nat.lt_succ_self k) a
  rw [h'.evaluateNode (Nat.lt_succ_self k) a] at hok
  exact (Except.ok.inj hok).symm

/-- Functions represented by one node tell the same assignments apart. -/
theorem eq_iff {g' : Asg k → β} (h : Represents m k g n) (h' : Represents m k g' n)
    (a b : Asg k) : g a = g b ↔ g' a = g' b := by
  rw [← number_eq_iff, h.number_eq h', number_eq_iff]

/-- The numbering of a function by first visits is represented by the same node. -/
theorem numbered (h : Represents m k g n) : Represents m k (number g) n :=
  h.congr fun a b => (number_eq_iff g a b).symm

end Represents

/-- The diagram `f` denotes the function `F` of `2 ^ L` variables. -/
structure Denotes (m : Manager) (L : ℕ) (f : Bdd) (F : Asg L → Bool) : Prop where
  /-- The root is the canonical diagram of the function. -/
  root : Represents m L F f.root
  /-- The value map lists the function's values by their first visit. -/
  values : m.body? f.values = some ((visited F).map Bool.toNat)

namespace Denotes

variable {m m' : Manager} {L : ℕ} {f f' : Bdd} {F F' : Asg L → Bool}

/-- A diagram denotes its function still when the manager has grown. -/
theorem mono (hle : m ≤ m') (h : Denotes m L f F) : Denotes m' L f F :=
  ⟨h.root.mono hle, Manager.body?_mono hle h.values⟩

/-- **Canonicity of diagrams:** a function is denoted by at most one diagram. -/
theorem unique (h : Denotes m L f F) (h' : Denotes m L f' F) : f = f' := by
  obtain ⟨root, values⟩ := f
  obtain ⟨root', values'⟩ := f'
  obtain rfl : root = root' := h.root.unique h'.root
  obtain rfl : values = values' := m.returnMaps.body?_inj h.values h'.values
  rfl

/-- A diagram evaluates to the function it denotes. -/
theorem evaluate (h : Denotes m L f F) (hlevel : m.level = L) (hL : L ≤ 30) (a : Asg L) :
    m.evaluate f a.toList = .ok (F a) := by
  have hpow : 2 ^ L < 2 ^ 32 := Nat.pow_lt_pow_right (by decide) (by omega)
  have hlen : (a.toList.length % 2 ^ 32 == m.totalVars) = true := by
    rw [Asg.length_toList, Nat.mod_eq_of_lt hpow, Manager.totalVars, hlevel]
    exact beq_self_eq_true _
  have hvalue : ((visited F).map Bool.toNat)[number F a]? = some (F a).toNat := by
    rw [List.getElem?_map, getElem?_number F a, Option.map_some]
  rw [Manager.evaluate, assert_of_true hlen, pure_bind,
    h.root.evaluateNode (by rw [Manager.depth, hlevel]; omega) a]
  change (index m.returnMaps.bodies f.values.raw >>= _ : Except Panic Bool) = _
  rw [index_of_some h.values, pure_bind, index_of_some hvalue]
  cases F a <;> rfl

/-- A diagram denotes at most one function. -/
theorem function_unique (h : Denotes m L f F) (h' : Denotes m L f F') (hlevel : m.level = L)
    (hL : L ≤ 30) : F = F' := by
  funext a
  have hok := h.evaluate hlevel hL a
  rw [h'.evaluate hlevel hL a] at hok
  exact (Except.ok.inj hok).symm

end Denotes

end Cflobdd
