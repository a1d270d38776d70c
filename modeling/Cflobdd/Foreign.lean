import Cflobdd.Growing.Outcomes
import Cflobdd.NodeSpecs
import Cflobdd.Observers
import Cflobdd.Recovery

/-!
# Handles of other managers

A diagram is a pair of indices, and nothing ties it to the manager that has returned it. A
call on the indices of another manager may panic, or return a diagram of no use. With debug
assertions it does no harm: every recursion ends, the manager keeps its invariant, and no
later call on the manager's own diagrams is answered differently.
-/

namespace Cflobdd

open FirstVisit Growing

/-- The program ends, and whether it returns or panics, the manager has only grown and its
invariant holds. -/
def Harmless {α : Type} (p : ManagerM α) (m : Manager) : Prop :=
  Ends p m (fun _ m' => m ≤ m' ∧ m'.Inv) fun e m' => e ≠ .fuelExhausted ∧ m ≤ m' ∧ m'.Inv

/-- The program ends and changes nothing. If it returns, its result satisfies `Q`. -/
def OnlyReads {α : Type} (p : ManagerM α) (m : Manager) (Q : α → Prop) : Prop :=
  Ends p m (fun a m' => m' = m ∧ Q a) fun e m' => e ≠ .fuelExhausted ∧ m' = m

section Rules

variable {α β : Type} {m : Manager} {p : ManagerM α} {g : α → ManagerM β} {Q : α → Prop}
  {R : β → Prop}

/-- A program that returns and keeps the invariant does no harm. -/
theorem Harmless.of_returns {Q : α → Manager → Prop} (h : Returns p m Q) : Harmless p m := by
  obtain ⟨a, m', hok, hle, hm', -⟩ := h
  rw [Harmless, Ends, hok]
  exact ⟨hle, hm'⟩

/-- Doing nothing does no harm. -/
theorem Harmless.pure (hm : m.Inv) (a : α) : Harmless (Pure.pure a : ManagerM α) m := ⟨le_rfl, hm⟩

/-- What follows a program whose ends are known is run on a manager that has grown. -/
theorem Harmless.bind_ends {Q : α → Manager → Prop}
    (hp : Ends p m (fun a m' => m ≤ m' ∧ m'.Inv ∧ Q a m') fun e m' =>
      e ≠ .fuelExhausted ∧ m ≤ m' ∧ m'.Inv)
    (hg : ∀ a m', m ≤ m' → m'.Inv → Q a m' → Harmless (g a) m') : Harmless (p >>= g) m := by
  refine Ends.bind hp ?_
  rintro a m₁ ⟨hle, hm₁, hQ⟩
  refine Ends.mono (hg a m₁ hle hm₁ hQ) ?_ ?_
  · exact fun _ _ h => ⟨hle.trans h.1, h.2⟩
  · exact fun _ _ h => ⟨h.1, hle.trans h.2.1, h.2.2⟩

/-- Two programs one after the other. -/
theorem Harmless.bind (hp : Harmless p m) (hg : ∀ a m', m ≤ m' → m'.Inv → Harmless (g a) m') :
    Harmless (p >>= g) m :=
  Harmless.bind_ends (Q := fun _ _ => True)
    (Ends.mono hp (fun _ _ h => ⟨h.1, h.2, trivial⟩) fun _ _ h => h) fun a m' hle hm' _ =>
      hg a m' hle hm'

/-- A program that returns is followed by one that knows its result. -/
theorem Harmless.bind_returns {Q : α → Manager → Prop} (hp : Returns p m Q)
    (hg : ∀ a m', m ≤ m' → m'.Inv → Q a m' → Harmless (g a) m') : Harmless (p >>= g) m := by
  obtain ⟨a, m', hok, hle, hm', hQ, -⟩ := hp
  refine Harmless.bind_ends (Q := Q) ?_ hg
  rw [Ends, hok]
  exact ⟨hle, hm', hQ⟩

/-- The rule for a program that starts by reading. -/
theorem Harmless.reads_bind {f : Manager → α} (hg : Harmless (g (f m)) m) :
    Harmless (reads f >>= g) m := hg

/-- A program that only reads does no harm. -/
theorem OnlyReads.harmless (hm : m.Inv) (hp : OnlyReads p m Q) : Harmless p m := by
  refine Ends.mono hp ?_ ?_
  · rintro a m' ⟨rfl, -⟩
    exact ⟨le_rfl, hm⟩
  · rintro e m' ⟨he, rfl⟩
    exact ⟨he, le_rfl, hm⟩

/-- A first program that only reads. -/
theorem OnlyReads.ends_bind {R : β → Manager → Prop} {E : Panic → Manager → Prop}
    (hp : OnlyReads p m Q) (hE : ∀ e, e ≠ .fuelExhausted → E e m)
    (hg : ∀ a, Q a → Ends (g a) m R E) : Ends (p >>= g) m R E := by
  refine Ends.bind (Q := fun a m' => m' = m ∧ Q a) (Ends.mono hp (fun _ _ h => h) ?_) ?_
  · rintro e m' ⟨he, rfl⟩
    exact hE e he
  · rintro a m' ⟨rfl, hQ⟩
    exact hg a hQ

/-- The rule for a program that starts with one that only reads. -/
theorem OnlyReads.harmless_bind (hm : m.Inv) (hp : OnlyReads p m Q)
    (hg : ∀ a, Q a → Harmless (g a) m) : Harmless (p >>= g) m :=
  hp.ends_bind (fun _ he => ⟨he, le_rfl, hm⟩) hg

/-- A program that cannot return panics and leaves the manager as it was. -/
theorem OnlyReads.panics {Q : α → Manager → Prop} (hm : m.Inv) (hp : OnlyReads p m fun _ => False) :
    Ends p m Q fun e m' => e ≠ .fuelExhausted ∧ m ≤ m' ∧ m'.Inv := by
  refine Ends.mono hp (fun _ _ h => h.2.elim) ?_
  rintro e m' ⟨he, rfl⟩
  exact ⟨he, le_rfl, hm⟩

/-- Less may be said of the result. -/
theorem OnlyReads.mono {Q' : α → Prop} (hp : OnlyReads p m Q) (h : ∀ a, Q a → Q' a) :
    OnlyReads p m Q' :=
  Ends.mono hp (fun a _ hQ => ⟨hQ.1, h a hQ.2⟩) fun _ _ hE => hE

/-- Doing nothing only reads. -/
theorem OnlyReads.pure {a : α} (h : Q a) : OnlyReads (Pure.pure a : ManagerM α) m Q := ⟨rfl, h⟩

/-- A panic of the code changes nothing. -/
theorem OnlyReads.throw {e : Panic} (he : e ≠ .fuelExhausted) :
    OnlyReads (throw e : ManagerM α) m Q := ⟨he, rfl⟩

/-- Two programs that only read. -/
theorem OnlyReads.bind (hp : OnlyReads p m Q) (hg : ∀ a, Q a → OnlyReads (g a) m R) :
    OnlyReads (p >>= g) m R := hp.ends_bind (fun _ he => ⟨he, rfl⟩) hg

/-- The rule for a loop, with an invariant about the entries that are done. -/
theorem OnlyReads.foldlM {step : β → α → ManagerM β} {xs : List α} {I : List α → β → Prop} {b : β}
    (h₀ : I [] b)
    (hstep : ∀ done x b, I done b → OnlyReads (step b x) m fun b' => I (done ++ [x]) b') :
    OnlyReads (xs.foldlM step b) m fun b' => I xs b' := by
  refine Ends.foldlM_forall₂ (R := Eq) (I := fun done b m' => m' = m ∧ I done b)
    (List.forall₂_same.mpr fun _ _ => rfl) ⟨rfl, h₀⟩ ?_
  rintro done y rest x b m' - rfl ⟨rfl, hI⟩
  exact hstep done y b hI

/-- Indexing only reads, in range or not. -/
theorem onlyReads_index (xs : List α) (i : ℕ) : OnlyReads (index xs i) m fun _ => True := by
  rw [index]
  cases xs[i]? with
  | some x => exact OnlyReads.pure trivial
  | none => exact OnlyReads.throw (by decide)

/-- An assertion only reads, and it holds if it returns. -/
theorem onlyReads_assert {condition : Bool} {panic : Panic} (h : panic ≠ .fuelExhausted) :
    OnlyReads (assert condition panic) m fun _ => condition = true := by
  cases condition with
  | true => exact OnlyReads.pure rfl
  | false => exact OnlyReads.throw h

/-- Reading a record only reads. -/
theorem onlyReads_record (id : NodeId) :
    OnlyReads (record id) m fun r => m.record? id = some r := by
  change OnlyReads (index m.nodes.records id.raw) m fun r => m.nodes.records[id.raw]? = some r
  rw [index]
  cases m.nodes.records[id.raw]? with
  | some r => exact OnlyReads.pure rfl
  | none => exact OnlyReads.throw (by decide)

/-- Reading a body only reads. -/
theorem onlyReads_body (id : ReturnMapId) : OnlyReads (body id) m fun _ => True :=
  onlyReads_index m.returnMaps.bodies id.raw

end Rules

section Recursions

variable {m : Manager}

/-- Nodes of one level, that is, nodes that the recursions on pairs are meant for. -/
def SameLevel (m : Manager) (n1 n2 : NodeId) : Prop :=
  ∃ r1 r2, m.record? n1 = some r1 ∧ m.record? n2 = some r2 ∧ r1.level = r2.level

/-- Products are only looked up for nodes of one level. -/
theorem Manager.Inv.sameLevel_of_lookup (hm : m.Inv) {n1 n2 : NodeId}
    {result : NodeId × PairProductMap} (h : lookupPairProduct n1 n2 m = some result) :
    SameLevel m n1 n2 := by
  have hentry : ∀ {n1 n2 memo}, m.pairProductCache.get? (n1, n2) = some memo →
      SameLevel m n1 n2 := by
    intro n1 n2 memo hmemo
    obtain ⟨k, e₁, e₂, h₁, h₂, -⟩ := hm.pairProducts _ _ hmemo
    obtain ⟨r1, hr1, hlevel1, -⟩ := h₁.record
    obtain ⟨r2, hr2, hlevel2, -⟩ := h₂.record
    exact ⟨r1, r2, hr1, hr2, hlevel1.trans hlevel2.symm⟩
  unfold lookupPairProduct at h
  split at h
  next hmemo => exact hentry hmemo
  next =>
    split at h
    next hmemo =>
      obtain ⟨r1, r2, hr1, hr2, hlevel⟩ := hentry hmemo
      exact ⟨r2, r1, hr2, hr1, hlevel.symm⟩
    next => cases h

/-- Without a product to make, `pair_product_uncached` panics before it does anything. -/
theorem pairProductUncached_mismatch {n1 n2 : NodeId} (h : ¬SameLevel m n1 n2)
    (f : NodeId → NodeId → ManagerM (NodeId × PairProductMap)) :
    OnlyReads (pairProductUncached f n1 n2) m fun _ => False := by
  unfold pairProductUncached
  refine OnlyReads.bind (onlyReads_record n1) fun r1 hr1 => ?_
  refine OnlyReads.bind (onlyReads_record n2) fun r2 hr2 => ?_
  have hlevel : r1.level ≠ r2.level := fun hlevel => h ⟨r1, r2, hr1, hr2, hlevel⟩
  cases r1 with
  | dontCare | fork =>
    cases r2 with
    | dontCare | fork => exact absurd rfl hlevel
    | internal l2 ne2 a2 b2 => exact OnlyReads.throw nofun
  | internal l1 ne1 a1 b1 =>
    cases r2 with
    | dontCare | fork => exact OnlyReads.throw nofun
    | internal l2 ne2 a2 b2 =>
      refine OnlyReads.bind (onlyReads_assert nofun) fun _ hlevels => ?_
      exact absurd (beq_iff_eq.mp hlevels) hlevel

/-- `pair_product` of any two indices: a product of nodes of one level, or a panic that
leaves the manager as it was. -/
theorem pairProduct_ends (hm : m.Inv) (n1 n2 : NodeId) :
    Ends (pairProduct m.depth n1 n2) m
      (fun result m' => m ≤ m' ∧ m'.Inv ∧ ∃ (k : ℕ) (e₁ e₂ : Asg k → ℕ),
        k ≤ m.level ∧ IsProduct m' e₁ e₂ result)
      fun e m' => e ≠ .fuelExhausted ∧ m ≤ m' ∧ m'.Inv := by
  by_cases h : SameLevel m n1 n2
  · obtain ⟨r1, r2, hr1, hr2, hlevel⟩ := h
    obtain ⟨hk, e₁, he₁, -⟩ := hm.exists_represents hr1
    obtain ⟨e₂, he₂⟩ := hm.exists_represents_at hr2 hlevel.symm
    obtain ⟨result, m', hok, hle, hm', hproduct, -⟩ :=
      pairProduct_returns (Manager.lt_depth hk) hm he₁ he₂
    rw [Ends, hok]
    exact ⟨hle, hm', _, e₁, e₂, hk, hproduct⟩
  · have hcompute := pairProductUncached_mismatch h (pairProduct m.level)
    refine Ends.memoized (fun _ => hcompute.panics hm) ?_ fun _ _ => hcompute.panics hm
    intro result _ hlookup
    exact absurd (hm.sameLevel_of_lookup hlookup) h

/-- `restrict_node` of any index: a restriction of a node, or a panic. -/
theorem restrictNode_ends (hm : m.Inv) (n : NodeId) (i : ℕ) (v : Bool) :
    Ends (restrictNode m.depth n i v []) m
      (fun result m' => m ≤ m' ∧ m'.Inv ∧ ∃ (k : ℕ) (e : Asg k → ℕ),
        k ≤ m.level ∧ IsRestriction m' e i v result)
      fun e m' => e ≠ .fuelExhausted ∧ m ≤ m' ∧ m'.Inv := by
  cases h : m.record? n with
  | some r =>
    obtain ⟨hk, e, he, -⟩ := hm.exists_represents h
    obtain ⟨result, m', hok, hle, hm', hrestriction, -⟩ :=
      restrictNode_returns (Manager.lt_depth hk) i v hm he
    rw [Ends, hok]
    exact ⟨hle, hm', _, e, hk, hrestriction⟩
  | none =>
    refine OnlyReads.panics hm ?_
    unfold restrictNode Manager.depth
    refine OnlyReads.bind (onlyReads_record n) fun r hr => ?_
    rw [h] at hr
    cases hr

/-- `compute_paths` of any index: counts, or a panic. -/
theorem computePaths_harmless (hm : m.Inv) (hL : m.level ≤ 6) (n : NodeId) :
    Harmless (computePaths (m.level + 1) n) m := by
  cases h : m.record? n with
  | some r =>
    obtain ⟨hk, e, he, -⟩ := hm.exists_represents h
    exact Harmless.of_returns (computePaths_returns (Nat.lt_succ_of_le hk) (hk.trans hL) hm he)
  | none =>
    have hstored : ∀ id r, m.record? id = some r → n ≠ id := by
      rintro id r hr rfl
      rw [hr] at h
      cases h
    have hcompute : OnlyReads (computePathsUncached (computePaths m.level) n) m fun _ => False := by
      unfold computePathsUncached
      rw [if_neg (hstored .dontCare _ m.nodes.records_dontCare),
        if_neg (hstored .fork _ m.nodes.records_fork)]
      refine OnlyReads.bind (onlyReads_record n) fun r hr => ?_
      rw [h] at hr
      cases hr
    refine Ends.memoized (fun _ => hcompute.panics hm) ?_ fun _ _ => hcompute.panics hm
    intro paths _ hlookup
    obtain ⟨k, e, -, he, -⟩ := hm.pathCounts _ _ hlookup
    obtain ⟨r, hr, -⟩ := he.record
    rw [h] at hr
    cases hr

/-- Merging the exits of a node as the values of a list of their length are numbered. -/
theorem reduce_rank_returns (hm : m.Inv) {k : ℕ} {α : Type} [DecidableEq α] {g : Asg k → α}
    {n : NodeId} (hn : Represents m k g n) {fuel : ℕ} (hfuel : k < fuel) {vals : List ℕ}
    (hlength : vals.length = (visited g).length) :
    Returns (reduce fuel n (vals.map (rank (firstSeen vals))) (firstSeen vals).length) m
      fun reduced m' => ∃ r, m'.record? reduced = some r := by
  have hred : (vals.map (rank (firstSeen vals))).length = (visited g).length := by
    rw [List.length_map, hlength]
  obtain ⟨ρ, hred, hvisited⟩ := exists_reduction_eq hred (firstSeen_map_rank vals)
  have hreturns := reduce_returns hm hn hfuel ρ
  rw [hred, hvisited, List.length_range] at hreturns
  exact hreturns.mono fun _ _ _ _ h => h.record.imp fun _ hr => hr.1

end Recursions

section Operations

variable {m : Manager}

/-- The loop of `apply` numbers some values in first-seen order, or panics. -/
theorem onlyReads_applyLoop (op : BoolOp) (fVals gVals : List ℕ) (pairMap : PairProductMap) :
    OnlyReads (pairMap.foldlM (applyStep op fVals gVals) (.new 2, [])) m fun result =>
      ∃ vals : List ℕ, vals.length = pairMap.length ∧ result.1.output = firstSeen vals ∧
        result.2 = vals.map (rank (firstSeen vals)) := by
  refine OnlyReads.mono (OnlyReads.foldlM
    (I := fun (done : PairProductMap) (result : Slots × List ℕ) => result.1.slot.length = 2 ∧
      ∃ vals : List ℕ, vals.length = done.length ∧ result.1.output = firstSeen vals ∧
        result.2 = vals.map (rank (firstSeen vals)))
    ⟨rfl, [], rfl, rfl, rfl⟩ ?_) fun _ hI => hI.2
  rintro done pair ⟨slots, reduction⟩ ⟨hslot, vals, hlength, houtput, hreduction⟩
  unfold applyStep
  refine OnlyReads.bind (onlyReads_index _ _) fun v1 _ => ?_
  refine OnlyReads.bind (onlyReads_index _ _) fun v2 _ => ?_
  refine OnlyReads.bind (onlyReads_assert nofun) fun _ _ => ?_
  refine OnlyReads.bind (onlyReads_index _ _) fun row _ => ?_
  refine OnlyReads.bind (onlyReads_index _ _) fun val _ => ?_
  dsimp only at hslot houtput hreduction ⊢
  by_cases hval : val < slots.slot.length
  · obtain ⟨slots', hposition, houtput', hslot'⟩ := slots.position_spec hval
    rw [hposition]
    refine OnlyReads.pure ⟨hslot'.trans hslot, vals ++ [val], ?_, ?_, ?_⟩
    · rw [List.length_append, List.length_append, hlength, List.length_singleton,
        List.length_singleton]
    · rw [houtput', houtput, firstSeen_concat]
    · rw [map_rank_concat, ← hreduction, houtput]
  · rw [slots.position_of_le (Nat.not_lt.mp hval)]
    exact OnlyReads.throw nofun

/-- The entries of a list read through a map, or a panic. -/
theorem onlyReads_translateLoop (map exits : List ℕ) :
    OnlyReads (exits.foldlM (translateStep map) []) m fun vals => vals.length = exits.length := by
  refine OnlyReads.foldlM (I := fun (done vals : List ℕ) => vals.length = done.length) rfl ?_
  intro done exit vals hlength
  unfold translateStep
  refine OnlyReads.bind (onlyReads_index map exit) fun v _ => OnlyReads.pure ?_
  rw [List.length_append, List.length_append, hlength, List.length_singleton,
    List.length_singleton]

/-- `apply` does no harm to arbitrary handles. -/
theorem apply_harmless (hm : m.Inv) (f g : Bdd) (op : BoolOp) : Harmless (apply f g op) m := by
  unfold apply
  refine Harmless.reads_bind (Harmless.bind_ends (pairProduct_ends hm f.root g.root) ?_)
  rintro ⟨combined, pairMap⟩ m₁ hle₁ hm₁ ⟨k, e₁, e₂, hk, hproduct, hpairMap⟩
  obtain rfl : pairMap = productMap e₁ e₂ := hpairMap
  refine OnlyReads.harmless_bind hm₁ (onlyReads_body f.values) fun fVals _ => ?_
  refine OnlyReads.harmless_bind hm₁ (onlyReads_body g.values) fun gVals _ => ?_
  refine OnlyReads.harmless_bind hm₁ (onlyReads_applyLoop op fVals gVals _) ?_
  rintro ⟨slots, reduction⟩ ⟨vals, hlength, houtput, rfl⟩
  dsimp only at houtput ⊢
  rw [houtput]
  refine Harmless.bind_returns (internMap_returns hm₁ _) fun newValuesId m₂ hle₂ hm₂ _ => ?_
  refine Harmless.bind ?_ fun reduced m₃ _ hm₃ => Harmless.pure hm₃ _
  refine Harmless.of_returns
    (reduce_rank_returns hm₂ (hproduct.mono hle₂) (Manager.lt_depth hk) ?_)
  rw [hlength, productMap_eq_map, List.length_map]

/-- `restrict` does no harm to arbitrary handles. -/
theorem restrict_harmless (hm : m.Inv) (f : Bdd) (i : ℕ) (v : Bool) :
    Harmless (restrict f i v) m := by
  unfold restrict
  refine Harmless.reads_bind (OnlyReads.harmless_bind hm (onlyReads_assert nofun) fun _ _ => ?_)
  refine Harmless.reads_bind (Harmless.bind_ends (restrictNode_ends hm f.root i v) ?_)
  rintro ⟨newRoot, mapHandle⟩ m₁ hle₁ hm₁ ⟨k, e, hk, hnode, hexits⟩
  obtain rfl : mapHandle = restrictMap e i v := hexits
  refine OnlyReads.harmless_bind hm₁ (onlyReads_body f.values) fun fValues _ => ?_
  refine OnlyReads.harmless_bind hm₁ (onlyReads_translateLoop fValues _) fun vals hlength => ?_
  rw [dedupeFirstSeen_eq]
  refine Harmless.bind_returns (internMap_returns hm₁ _) fun newValuesId m₂ hle₂ hm₂ _ => ?_
  refine Harmless.bind ?_ fun reduced m₃ _ hm₃ => Harmless.pure hm₃ _
  refine Harmless.of_returns
    (reduce_rank_returns hm₂ (hnode.mono hle₂) (Manager.lt_depth hk) ?_)
  rw [hlength, restrictMap_eq_map, List.length_map]

/-- `not` does no harm to arbitrary handles. -/
theorem not_harmless (hm : m.Inv) (f : Bdd) : Harmless (not f) m := by
  unfold Cflobdd.not
  refine OnlyReads.harmless_bind hm (onlyReads_body f.values) fun values _ => ?_
  refine OnlyReads.harmless_bind (Q := fun _ => True) hm ?_ fun flipped _ => ?_
  · refine OnlyReads.foldlM (I := fun _ _ => True) trivial ?_
    intro done v flipped _
    unfold flipValue
    split
    · exact OnlyReads.pure trivial
    · exact OnlyReads.throw nofun
  · refine Harmless.bind_returns (internMap_returns hm flipped) fun newId m' _ hm' _ => ?_
    exact Harmless.pure hm' _

/-- `mk_proj` does no harm, in range or not. -/
theorem mkProj_harmless (hm : m.Inv) (i : ℕ) : Harmless (mkProj i) m := by
  by_cases hi : i < 2 ^ m.level
  · exact Harmless.of_returns (mkProj_returns hm hi)
  · unfold mkProj
    refine Harmless.reads_bind (OnlyReads.harmless_bind hm (onlyReads_assert nofun) fun _ h => ?_)
    exact absurd (of_decide_eq_true h) hi

/-- The quantifiers do no harm: two restrictions and the operation that joins them. -/
theorem quantify_harmless (c : Connective) (hm : m.Inv) (f : Bdd) (i : ℕ) :
    Harmless (do
        let t ← restrict f i true
        let fa ← restrict f i false
        c.exec t fa) m := by
  refine Harmless.bind (restrict_harmless hm f i true) fun t m₁ _ hm₁ => ?_
  refine Harmless.bind (restrict_harmless hm₁ f i false) fun fa m₂ _ hm₂ => ?_
  cases c <;> exact apply_harmless hm₂ _ _ _

/-- `compose` does no harm: it is made of harmless calls. -/
theorem compose_harmless (hm : m.Inv) (f : Bdd) (i : ℕ) (g : Bdd) :
    Harmless (compose f i g) m := by
  unfold compose
  refine Harmless.bind (restrict_harmless hm f i true) fun fTrue m₁ _ hm₁ => ?_
  refine Harmless.bind (restrict_harmless hm₁ f i false) fun fFalse m₂ _ hm₂ => ?_
  refine Harmless.bind (not_harmless hm₂ g) fun notG m₃ _ hm₃ => ?_
  refine Harmless.bind (apply_harmless hm₃ g fTrue .and) fun left m₄ _ hm₄ => ?_
  refine Harmless.bind (apply_harmless hm₄ notG fFalse .and) fun right m₅ _ hm₅ => ?_
  exact apply_harmless hm₅ left right .or

/-- Every public call on any handles. -/
theorem exec_harmless (hm : m.Inv) (call : Call Bdd) : Harmless call.exec m := by
  cases call with
  | mkTrue => exact Harmless.of_returns (mkTrue_returns hm)
  | mkFalse => exact Harmless.of_returns (mkFalse_returns hm)
  | mkProj i => exact mkProj_harmless hm i
  | apply f g op => exact apply_harmless hm f g op
  | connective c f g => cases c <;> exact apply_harmless hm f g _
  | not f => exact not_harmless hm f
  | restrict f i v => exact restrict_harmless hm f i v
  | compose f i g => exact compose_harmless hm f i g
  | existsVar f i => exact quantify_harmless .or hm f i
  | forallVar f i => exact quantify_harmless .and hm f i

/-- `path_count` does no harm to arbitrary handles. -/
theorem pathCount_harmless (hm : m.Inv) (f : Bdd) : Harmless (pathCount f) m := by
  unfold pathCount
  refine Harmless.reads_bind (OnlyReads.harmless_bind hm (onlyReads_assert nofun) fun _ hL => ?_)
  refine Harmless.bind (computePaths_harmless hm (of_decide_eq_true hL) f.root) ?_
  intro rootPaths m₁ _ hm₁
  refine OnlyReads.harmless_bind hm₁ (onlyReads_body f.values) fun values _ => ?_
  refine OnlyReads.harmless_bind hm₁ (onlyReads_assert nofun) fun _ _ => ?_
  refine OnlyReads.harmless (Q := fun _ => True) hm₁ ?_
  refine OnlyReads.foldlM (I := fun _ _ => True) trivial ?_
  rintro done ⟨v, exitIdx⟩ acc -
  unfold sumStep
  dsimp only
  split
  · refine OnlyReads.bind (onlyReads_index rootPaths exitIdx) fun paths _ => ?_
    cases checkedAdd acc paths with
    | some sum => exact OnlyReads.pure trivial
    | none => exact OnlyReads.throw nofun
  · exact OnlyReads.pure trivial

end Operations

/-- The manager that a program leaves behind, whether it returns or panics. -/
def leaves {α : Type} (p : ManagerM α) (m : Manager) : Manager :=
  match p m with
  | .ok _ m' => m'
  | .error _ m' => m'

/-- What a program that has several managers does with one of them. -/
inductive Action where
  /-- A query about the diagrams that this manager has returned to such queries. -/
  | own (query : Query)
  /-- A call on any handles. -/
  | foreign (call : Call Bdd)
  /-- `path_count` of any handle. -/
  | foreignCount (f : Bdd)

/-- The query among the actions. -/
def Action.own? : Action → Option Query
  | own query => some query
  | _ => none

namespace Session

/-- The session in which a call on any handles leaves another. What the call returns is not
among the diagrams of the session. -/
def disturb {α : Type} (s : Session) (p : ManagerM α) : Session :=
  ⟨leaves p s.manager, s.returned⟩

/-- The replies to the own queries among the actions, and the session afterwards. -/
def mixed (s : Session) : List Action → List Reply × Session
  | [] => ([], s)
  | .own query :: actions =>
    let (replies, s') := (s.ask query).2.mixed actions
    ((s.ask query).1 :: replies, s')
  | .foreign call :: actions => (s.disturb call.exec).mixed actions
  | .foreignCount f :: actions => (s.disturb (pathCount f)).mixed actions

end Session

/-- A program that makes a manager and runs actions on it. -/
def executeMixed (L : ℕ) (actions : List Action) : Except Panic (List Reply) := do
  let m ← Manager.new L
  return (Session.mixed ⟨m, []⟩ actions).1

/-- The session is what actions leave of a fresh manager of level `L`. -/
def AfterActions (L : ℕ) (s : Session) : Prop :=
  ∃ m actions, Manager.new L = .ok m ∧ s = (Session.mixed ⟨m, []⟩ actions).2

section Sessions

variable {L : ℕ} {s : Session}

/-- A session stays valid when a harmless program has run on its manager. -/
theorem Session.Valid.disturb (hs : s.Valid L) {α : Type} {p : ManagerM α}
    (hp : Harmless p s.manager) :
    s.manager ≤ (s.disturb p).manager ∧ (s.disturb p).Valid L := by
  unfold Harmless Ends at hp
  unfold Session.disturb leaves
  cases hresult : p s.manager with
  | ok a m' =>
    rw [hresult] at hp
    exact ⟨hp.1, hs.grow hp.1 hp.2⟩
  | error e m' =>
    rw [hresult] at hp
    exact ⟨hp.2.1, hs.grow hp.2.1 hp.2.2⟩

/-- The replies to the own queries are those of the machine of functions. -/
theorem Session.Valid.mixed_eq (hs : s.Valid L) (actions : List Action) :
    (s.mixed actions).1 =
        Query.replies L (s.returned.map Returned.function) (actions.filterMap Action.own?) ∧
      (s.mixed actions).2.Valid L := by
  induction actions generalizing s with
  | nil => exact ⟨rfl, hs⟩
  | cons action actions ih =>
    cases action with
    | own query =>
      obtain ⟨hreply, hfunctions, hvalid⟩ := hs.ask_simulates query
      obtain ⟨hreplies, hvalid'⟩ := ih hvalid
      rw [hfunctions] at hreplies
      refine ⟨?_, hvalid'⟩
      rw [Session.mixed, List.filterMap_cons_some (by rfl), Query.replies, ← hreply, ← hreplies]
    | foreign call => exact ih (hs.disturb (exec_harmless hs.inv call)).2
    | foreignCount f => exact ih (hs.disturb (pathCount_harmless hs.inv f)).2

/-- All queries and calls on arbitrary handles keep a session valid. -/
theorem AfterActions.valid (hs : AfterActions L s) : s.Valid L := by
  obtain ⟨m, actions, hnew, rfl⟩ := hs
  exact ((Session.Valid.new hnew).mixed_eq actions).2

/-- **Handles of other managers do no harm:** for every level and every sequence of queries
and of calls on any handles, the replies to the queries are those of the program without the
calls. -/
theorem execute_mixed_eq (L : ℕ) (actions : List Action) :
    executeMixed L actions = execute L (actions.filterMap Action.own?) := by
  unfold executeMixed execute
  cases hnew : Manager.new L with
  | error e => rfl
  | ok m =>
    have hvalid := Session.Valid.new hnew
    change Except.ok _ = Except.ok _
    rw [(hvalid.mixed_eq actions).1, hvalid.replies_eq]

/-- A harmless program leaves a session undisturbed. -/
theorem Session.Valid.harmless (hs : s.Valid L) {α : Type} {p : ManagerM α}
    (hp : Harmless p s.manager) :
    Undisturbed L s (leaves p s.manager) ∧ ∀ m', p s.manager ≠ .error .fuelExhausted m' := by
  refine ⟨hs.undisturbed (hs.disturb hp).1 (hs.disturb hp).2.inv, fun m' herror => ?_⟩
  exact (hp.of_error herror).1 rfl

/-- **A call on any handles ends and leaves the session undisturbed,** whether it returns or
panics, after any queries and calls on any handles. -/
theorem foreign_undisturbed (hs : AfterActions L s) :
    (∀ call : Call Bdd, Undisturbed L s (leaves call.exec s.manager) ∧
      ∀ m', call.exec s.manager ≠ .error .fuelExhausted m') ∧
    ∀ f : Bdd, Undisturbed L s (leaves (pathCount f) s.manager) ∧
      ∀ m', pathCount f s.manager ≠ .error .fuelExhausted m' :=
  ⟨fun call => hs.valid.harmless (exec_harmless hs.valid.inv call),
    fun f => hs.valid.harmless (pathCount_harmless hs.valid.inv f)⟩

/-- A variable is made between calls on indices that the manager has not returned. -/
def sampleActions : List Action :=
  [.foreign (.connective .and ⟨⟨1⟩, ⟨2⟩⟩ ⟨⟨1⟩, ⟨1⟩⟩), .own (.command (.call (.mkProj 0))),
    .foreign (.restrict ⟨⟨1⟩, ⟨2⟩⟩ 1 true), .foreign (.not ⟨⟨40⟩, ⟨40⟩⟩),
    .foreignCount ⟨⟨2⟩, ⟨0⟩⟩, .own (.command (.pathCount 0))]

/-- The operands have the root of the variable. The value map of the first does not fit. -/
theorem foreign_undisturbed_sample :
    Undisturbed 1 (Session.mixed ⟨Manager.fresh 1, []⟩ sampleActions).2
      (leaves (and ⟨⟨2⟩, ⟨0⟩⟩ ⟨⟨2⟩, ⟨2⟩⟩)
        (Session.mixed ⟨Manager.fresh 1, []⟩ sampleActions).2.manager) :=
  ((foreign_undisturbed ⟨_, sampleActions, rfl, rfl⟩).1
    (.connective .and ⟨⟨2⟩, ⟨0⟩⟩ ⟨⟨2⟩, ⟨2⟩⟩)).1

example : (executeMixed 1 sampleActions).toOption = some [.answer .made, .answer (.count 2)] := by
  decide +kernel

end Sessions

end Cflobdd
