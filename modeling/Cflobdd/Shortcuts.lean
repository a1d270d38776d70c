import Cflobdd.Memo
import Cflobdd.NodeSpecs

/-!
# Shortcuts agree with the plain recursion

A shortcut past a recursion gives what the recursion would give: both build the canonical
node of one function, and list what its exits stand for in the order of their first visit.
So it does not matter for a result whether shortcuts are taken, on whatever stores the two
versions are run one after the other.
-/

namespace Cflobdd

open FirstVisit Growing

/-- The same stores and tables under other switches, with an empty trace. -/
def Manager.withSwitches (m : Manager) (memo shortcuts : Bool) : Manager :=
  { m with probe := { memo, shortcuts } }

/-- The program gives the same result with all shortcuts and with none, whichever version
is run first. The version without shortcuts may use the memo tables or leave them aside. -/
def SameWithoutShortcuts {α : Type} (f : ManagerM α) (m : Manager) : Prop :=
  ∀ memo,
    (∃ result m', f m = .ok result m' ∧ Gives f (m'.withSwitches memo false) result) ∧
      ∃ result m', f (m.withSwitches memo false) = .ok result m' ∧
        Gives f (m'.withSwitches true true) result

/-- The nodes and return maps of `m` are those of `m'` under the same indices. -/
structure Manager.StoredIn (m m' : Manager) : Prop where
  record : ∀ id r, m.record? id = some r → m'.record? id = some r
  body : ∀ id b, m.body? id = some b → m'.body? id = some b

namespace Manager

variable {m m' m'' : Manager}

/-- A manager that has grown stores what it stored. -/
theorem storedIn_of_le (h : m ≤ m') : m.StoredIn m' :=
  ⟨fun _ _ => record?_mono h, fun _ _ => body?_mono h⟩

/-- Storing is transitive. -/
theorem StoredIn.trans (h : m.StoredIn m') (h' : m'.StoredIn m'') : m.StoredIn m'' :=
  ⟨fun id r hr => h'.record id r (h.record id r hr), fun id b hb => h'.body id b (h.body id b hb)⟩

/-- The switches have no part in what is stored. -/
theorem storedIn_withSwitches (m : Manager) (memo shortcuts : Bool) :
    m.StoredIn (m.withSwitches memo shortcuts) :=
  ⟨fun _ _ hr => hr, fun _ _ hb => hb⟩

/-- The invariant holds for all positions of the switches. -/
theorem Inv.withSwitches (hm : m.Inv) (memo shortcuts : Bool) :
    (m.withSwitches memo shortcuts).Inv :=
  hm.withProbe _ fun call hcall => by cases hcall

end Manager

section Agreement

variable {m m' : Manager} {k : ℕ} {α β γ : Type} [DecidableEq α] [DecidableEq β]
  {g : Asg k → α} {g' : Asg k → β} {n : NodeId}

/-- A node represents its function wherever it is stored. -/
theorem Represents.of_storedIn (hstored : m.StoredIn m') (h : Represents m k g n) :
    Represents m' k g n :=
  h.transfer hstored.record hstored.body

/-- A product is a product wherever it is stored. -/
theorem IsProduct.of_storedIn (hstored : m.StoredIn m') {result : NodeId × PairProductMap}
    (h : IsProduct m g g' result) : IsProduct m' g g' result :=
  ⟨h.node.of_storedIn hstored, h.pairMap⟩

/-- A restriction is a restriction wherever it is stored. -/
theorem IsRestriction.of_storedIn (hstored : m.StoredIn m') {i : ℕ} {v : Bool}
    {result : NodeId × List ℕ} (h : IsRestriction m g i v result) :
    IsRestriction m' g i v result :=
  ⟨h.node.of_storedIn hstored, h.exits⟩

/-- The node of a restriction and its map are determined by the function. -/
theorem IsRestriction.unique {i : ℕ} {v : Bool} {result result' : NodeId × List ℕ}
    (h : IsRestriction m g i v result) (h' : IsRestriction m g i v result') : result = result' :=
  Prod.ext (h.node.unique h'.node) (h.exits.trans h'.exits.symm)

omit [DecidableEq α] [DecidableEq β] in
/-- A program whose result is determined by the stores gives it again under other switches. -/
theorem gives_again {f : ManagerM γ} {P : Manager → γ → Prop} (hm : m.Inv)
    (hf : ∀ t, m.StoredIn t → t.Inv → Returns f t fun a t' => P t' a)
    (hstored : ∀ t u a, t.StoredIn u → P t a → P u a)
    (hunique : ∀ t a b, P t a → P t b → a = b) :
    ∃ a m', f m = .ok a m' ∧ ∀ memo shortcuts, Gives f (m'.withSwitches memo shortcuts) a := by
  obtain ⟨a, m', hok, hle, hm', ha, -⟩ := hf m ⟨fun _ _ h => h, fun _ _ h => h⟩ hm
  refine ⟨a, m', hok, fun memo shortcuts => ?_⟩
  have hswitched := Manager.storedIn_withSwitches m' memo shortcuts
  obtain ⟨b, t, hokb, hlet, -, hb, -⟩ :=
    hf _ ((Manager.storedIn_of_le hle).trans hswitched) (hm'.withSwitches memo shortcuts)
  obtain rfl : a = b :=
    hunique t a b (hstored m' t a (hswitched.trans (Manager.storedIn_of_le hlet)) ha) hb
  exact ⟨t, hokb⟩

omit [DecidableEq α] [DecidableEq β] in
/-- Then its shortcuts do not matter. -/
theorem sameWithoutShortcuts {f : ManagerM γ} {P : Manager → γ → Prop} (hm : m.Inv)
    (hf : ∀ t, m.StoredIn t → t.Inv → Returns f t fun a t' => P t' a)
    (hstored : ∀ t u a, t.StoredIn u → P t a → P u a)
    (hunique : ∀ t a b, P t a → P t b → a = b) : SameWithoutShortcuts f m := by
  intro memo
  constructor
  · obtain ⟨a, m', hok, hagain⟩ := gives_again hm hf hstored hunique
    exact ⟨a, m', hok, hagain memo false⟩
  · have hswitched := Manager.storedIn_withSwitches m memo false
    obtain ⟨a, m', hok, hagain⟩ := gives_again (hm.withSwitches memo false)
      (fun t ht => hf t (hswitched.trans ht)) hstored hunique
    exact ⟨a, m', hok, hagain true true⟩

end Agreement

/-- **Shortcuts agree with the plain recursion:** on the store of every reachable session the
product of two nodes of one level, the reduction of a node and the restriction of a node are
the same, the pair map and the map handle included, with all shortcuts and with none. -/
theorem shortcuts_agree {L : ℕ} {s : Session} (hs : Reachable L s) :
    (∀ n1 n2 r1 r2, s.manager.record? n1 = some r1 → s.manager.record? n2 = some r2 →
      r1.level = r2.level →
      SameWithoutShortcuts (pairProductUncached (pairProduct s.manager.level) n1 n2) s.manager) ∧
    (∀ node r red newNumExits, s.manager.record? node = some r →
      IsReductionMap r.numExits red newNumExits →
      SameWithoutShortcuts (reduce s.manager.depth node red newNumExits) s.manager) ∧
    ∀ node r i v, s.manager.record? node = some r → i < 2 ^ r.level →
      SameWithoutShortcuts (restrictNode s.manager.depth node i v []) s.manager := by
  have hm := hs.valid.inv
  refine ⟨?_, ?_, ?_⟩
  · intro n1 n2 r1 r2 h1 h2 hlevel
    obtain ⟨hk, e₁, he₁, -⟩ := hm.exists_represents h1
    obtain ⟨e₂, he₂⟩ := hm.exists_represents_at h2 hlevel.symm
    refine sameWithoutShortcuts hm (P := fun t => IsProduct t e₁ e₂) ?_
      (fun _ _ _ ht h => h.of_storedIn ht) fun _ _ _ h h' => h.unique h'
    intro t hstored ht
    exact pairProductUncached_returns (fun j hj => pairProduct_returns (by omega)) ht
      (he₁.of_storedIn hstored) (he₂.of_storedIn hstored)
  · intro node r red newNumExits hr hred
    obtain ⟨-, e, he, -⟩ := hm.exists_represents hr
    rw [he.numExits_eq hr] at hred
    obtain ⟨ρ, rfl, rfl⟩ := hred.exists_eq
    refine sameWithoutShortcuts hm (P := fun t => Represents t r.level fun a => ρ (e a)) ?_
      (fun _ _ _ ht h => h.of_storedIn ht) fun _ _ _ h h' => h.unique h'
    intro t hstored ht
    exact reduce_returns ht (he.of_storedIn hstored) (he.lt_depth hm) ρ
  · intro node r i v hr _
    obtain ⟨-, e, he, -⟩ := hm.exists_represents hr
    refine sameWithoutShortcuts hm (P := fun t => IsRestriction t e i v) ?_
      (fun _ _ _ ht h => h.of_storedIn ht) fun _ _ _ h h' => h.unique h'
    intro t hstored ht
    exact restrictNode_returns (he.lt_depth hm) i v ht (he.of_storedIn hstored)

theorem shortcuts_agree_sample :
    (∀ n1 n2 r1 r2, sampleSession.manager.record? n1 = some r1 →
      sampleSession.manager.record? n2 = some r2 → r1.level = r2.level →
      SameWithoutShortcuts (pairProductUncached (pairProduct sampleSession.manager.level) n1 n2)
        sampleSession.manager) ∧
    (∀ node r red newNumExits, sampleSession.manager.record? node = some r →
      IsReductionMap r.numExits red newNumExits →
      SameWithoutShortcuts (reduce sampleSession.manager.depth node red newNumExits)
        sampleSession.manager) ∧
    ∀ node r i v, sampleSession.manager.record? node = some r → i < 2 ^ r.level →
      SameWithoutShortcuts (restrictNode sampleSession.manager.depth node i v [])
        sampleSession.manager :=
  shortcuts_agree sampleSession_reachable

end Cflobdd
