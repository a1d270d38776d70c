import Cflobdd.Foreign
import Cflobdd.Footprint
import Cflobdd.ProductSize

/-!
# What the recursions attribute to their results

The recursions build nodes from the bottom up, so that what they add on the way belongs below
the node that they return. `Attribution` lists what this rests on, for any notion of what is
added, and the walk through the programs is made once for all of them. `apply` and `restrict`
run these recursions and then one more reduction.
-/

namespace Cflobdd

open FirstVisit Enumerated Growing

/-- `A roots m m'` says that what `m'` has and `m` lacks belongs below the roots. -/
structure Attribution (A : List NodeId → Manager → Manager → Prop) : Prop where
  refl : ∀ m, A [] m m
  mono : ∀ {roots roots' m m'}, A roots m m' → roots ⊆ roots' → A roots' m m'
  trans : ∀ {roots roots' m m₁ m'}, A roots m m₁ → A roots' m₁ m' → A (roots ++ roots') m m'
  internMap : ∀ b m, Within (A []) (internMap b) m
  observe : ∀ call m, Within (A []) (observe call) m
  /-- Constant nodes belong to nobody. -/
  noDistinction : ∀ k m, Ends (noDistinction k) m (fun _ m' => A [] m m') fun _ _ => True
  /-- A node takes the place of its children. -/
  internInternal : ∀ {roots m₀ m} level numExits {aConn bConns}, A roots m₀ m →
    roots ⊆ aConn.target :: bConns.map Connection.target →
    Ends (internInternal level numExits aConn bConns) m (fun n m' => A [n] m₀ m') fun _ _ => True
  recordReduce : ∀ {m m'} n redId {result}, A [result] m m' →
    A [result] m (recordReduce n redId result m')
  recordPairProduct : ∀ {m m'} n1 n2 {result}, A [result.1] m m' →
    A [result.1] m (recordPairProduct n1 n2 result m')

/-- What the program adds belongs below the node that it returns. -/
abbrev Attributes {α : Type} (A : List NodeId → Manager → Manager → Prop) (root : α → NodeId)
    (p : ManagerM α) (m₀ m : Manager) : Prop :=
  Ends p m (fun a m' => A [root a] m₀ m') fun _ _ => True

namespace Attribution

variable {A : List NodeId → Manager → Manager → Prop} {m₀ m m₁ m' : Manager}
  {roots : List NodeId}

/-- What is attributed to no root is a preorder. -/
theorem isPreorder (hA : Attribution A) : IsPreorder Manager (A []) where
  refl := hA.refl
  trans _ _ _ := hA.trans

/-- What is attributed to no root is attributed to any. -/
theorem of_silent (hA : Attribution A) (h : A [] m m') : A roots m m' :=
  hA.mono h (List.nil_subset _)

/-- A silent program afterwards keeps the roots. -/
theorem silent (hA : Attribution A) (h : A roots m m₁) (h' : A [] m₁ m') : A roots m m' :=
  hA.mono (hA.trans h h') (by simp)

/-- What has been done silently before does not count. -/
theorem after (hA : Attribution A) {α : Type} {root : α → NodeId} {p : ManagerM α}
    (h : A [] m₀ m) (hp : Attributes A root p m m) : Attributes A root p m₀ m :=
  Ends.mono hp (fun _ _ hroot => hA.trans h hroot) fun _ _ h => h

section Product

/-- The product of two nodes is above the products of their children. -/
theorem crossProduct (hA : Attribution A)
    {f : NodeId → NodeId → ManagerM (NodeId × PairProductMap)}
    (hf : ∀ n1 n2 m, Attributes A Prod.fst (f n1 n2) m m) (level : ℕ) (a1 : Connection)
    (b1 : List Connection) (a2 : Connection) (b2 : List Connection) (m : Manager) :
    Attributes A Prod.fst (crossProduct f level a1 b1 a2 b2) m m := by
  have := hA.isPreorder
  unfold Cflobdd.crossProduct debugAssert
  refine Ends.bind (hf _ _ m) ?_
  rintro ⟨aNode, aPairMap⟩ m₁ h₁
  refine Ends.bind_within (hA.internMap _ m₁) fun aReturnMap m₂ h₂ => ?_
  refine Ends.bind_unchanged (within_body _ m₂) fun a1Map => ?_
  refine Ends.bind_unchanged (within_body _ m₂) fun a2Map => ?_
  refine Ends.bind_unchanged (within_assert _ _ m₂) fun _ => ?_
  refine Ends.bind_unchanged (within_assert _ _ m₂) fun _ => ?_
  -- What has been added belongs below the A-target and the targets made so far.
  refine Ends.bind (Ends.foldlM (I := fun (state : CrossState) m' =>
    A (aNode :: state.newBConns.map (·.target)) m m') (hA.silent h₁ h₂) ?_) ?_
  · intro bIdx _ state t ht
    unfold crossStep
    refine Ends.bind_unchanged (within_index _ _ t) fun b1c => ?_
    refine Ends.bind_unchanged (within_index _ _ t) fun b2c => ?_
    refine Ends.bind (hf _ _ t) ?_
    rintro ⟨bNode, bPairMap⟩ t₁ hb
    refine Ends.bind_unchanged (within_body _ t₁) fun b1Map => ?_
    refine Ends.bind_unchanged (within_body _ t₁) fun b2Map => ?_
    refine Ends.bind_within (R := A []) (Within.foldlM (fun c _ state t _ =>
      crossExit_within b1Map b2Map state c t) _) ?_
    rintro ⟨exits, bReturnMap⟩ t₂ h₂
    refine Ends.bind_within (hA.internMap _ t₂) fun bReturnId t₃ h₃ => Ends.pure ?_
    exact hA.mono (hA.silent (hA.silent (hA.trans ht hb) h₂) h₃) (by simp)
  · intro state t ht
    refine Ends.bind (hA.internInternal _ _ ht (List.Subset.refl _)) ?_
    exact fun result t' h => Ends.pure h

/-- What `pair_product` adds belongs below the node that it returns. -/
theorem pairProduct (hA : Attribution A) (fuel : ℕ) (n1 n2 : NodeId) (m : Manager) :
    Attributes A Prod.fst (pairProduct fuel n1 n2) m m := by
  induction fuel generalizing n1 n2 m with
  | zero => exact Ends.throw trivial
  | succ fuel ih =>
    have hpure : ∀ {t} (result : NodeId × PairProductMap), A [] m t → A [result.1] m t :=
      fun _ => hA.of_silent
    have hcompute : Attributes A Prod.fst
        (pairProductUncached (Cflobdd.pairProduct fuel) n1 n2) m m := by
      unfold pairProductUncached debugAssert
      refine Ends.bind_unchanged (within_record n1 m) fun r1 => ?_
      refine Ends.bind_unchanged (within_record n2 m) fun r2 => ?_
      cases r1 with
      | dontCare =>
        cases r2 <;> first | exact Ends.pure (hpure _ (hA.refl m)) | exact Ends.throw trivial
      | fork =>
        cases r2 <;> first | exact Ends.pure (hpure _ (hA.refl m)) | exact Ends.throw trivial
      | internal l1 ne1 a1 b1 =>
        cases r2 with
        | dontCare | fork => exact Ends.throw trivial
        | internal l2 ne2 a2 b2 =>
          refine Ends.bind_unchanged (within_assert _ _ m) fun _ => ?_
          refine Ends.bind_unchanged (within_reads _ m) fun shortcuts => ?_
          split
          · refine Ends.bind (hA.noDistinction l1 m) fun nd m₁ h₁ => ?_
            split_ifs
            · exact Ends.pure (hpure _ h₁)
            · exact Ends.pure (hpure _ h₁)
            · exact Ends.pure (hpure _ h₁)
            · exact hA.after h₁ (hA.crossProduct ih _ _ _ _ _ m₁)
          · exact hA.crossProduct ih _ _ _ _ _ m
    unfold Cflobdd.pairProduct
    refine Ends.memoized (fun _ => hcompute) (fun _ _ _ => hpure _ (hA.refl m)) fun _ _ => ?_
    exact Ends.mono hcompute (fun _ _ => hA.recordPairProduct n1 n2) fun _ _ h => h

end Product

section Reduce

/-- A connection that is looked up is among those kept. -/
theorem targets_position (d : Dedup Connection) (b : Connection) :
    d.seen.map (·.target) ++ [b.target] ⊆ (d.position b).2.seen.map (·.target) := by
  rw [(d.position_spec b).2]
  intro n hn
  rcases List.mem_append.mp hn with hn | hn
  · obtain ⟨c, hc, rfl⟩ := List.mem_map.mp hn
    exact List.mem_map_of_mem (mem_see.mpr (.inl hc))
  · rw [List.mem_singleton.mp hn]
    exact List.mem_map_of_mem (mem_see.mpr (.inr rfl))

/-- `reduce_inner` attributes all its work to the node it makes. -/
theorem reduceInner (hA : Attribution A) {f : NodeId → List ℕ → ℕ → ManagerM NodeId}
    (hf : ∀ n red newNumExits m, Attributes A id (f n red newNumExits) m m) (n : NodeId)
    (red : List ℕ) (newNumExits : ℕ) (m : Manager) :
    Attributes A id (reduceInner f n red newNumExits) m m := by
  have := hA.isPreorder
  unfold Cflobdd.reduceInner debugAssert
  refine Ends.bind_within (hA.observe _ m) fun _ m₁ h₁ => ?_
  refine Ends.bind_unchanged (within_record n m₁) fun r => ?_
  cases r with
  | dontCare =>
    exact Ends.bind_unchanged (within_assert _ _ m₁) fun _ => Ends.pure (hA.of_silent h₁)
  | fork =>
    refine Ends.bind_unchanged (within_assert _ _ m₁) fun _ => ?_
    refine Ends.bind_unchanged (within_index _ _ m₁) fun r0 => ?_
    refine Ends.bind_unchanged (within_index _ _ m₁) fun r1 => ?_
    split <;> exact Ends.pure (hA.of_silent h₁)
  | internal level numExits aConn bConns =>
    -- What has been added belongs below the targets of the connections kept.
    refine Ends.bind (Ends.foldlM (I := fun (state : Dedup Connection × List ℕ) m' =>
      A (state.1.seen.map (·.target)) m m') (hA.of_silent h₁) ?_) ?_
    · intro b _ state t ht
      unfold reduceStep
      refine Ends.bind_unchanged (within_body _ t) fun childMap => ?_
      refine Ends.bind_within (composeAndReduce_within hA.internMap _ _ t) ?_
      rintro ⟨inducedRed, inducedId, inducedNumExits⟩ t₁ ht₁
      refine Ends.bind (hf _ _ _ t₁) fun newTarget t₂ htarget => Ends.pure ?_
      exact hA.mono (hA.trans (hA.silent ht ht₁) htarget)
        (targets_position state.1 ⟨newTarget, inducedId⟩)
    · rintro ⟨newBConns, aRed⟩ m₂ h₂
      refine Ends.bind_unchanged (within_body _ m₂) fun aChildMap => ?_
      refine Ends.bind_within (composeAndReduce_within hA.internMap _ _ m₂) ?_
      rintro ⟨inducedARed, newAReturnMapId, newANumExits⟩ m₃ h₃
      refine Ends.bind (hf _ _ _ m₃) fun newATarget m₄ h₄ => ?_
      refine Ends.bind_unchanged (within_assert _ _ m₄) fun _ => ?_
      refine hA.internInternal _ _ (hA.trans (hA.silent h₂ h₃) h₄) ?_
      exact List.append_subset.mpr ⟨List.subset_cons_self _ _, by simp⟩

/-- What `reduce` adds belongs below the node that it returns. -/
theorem reduce (hA : Attribution A) (fuel : ℕ) (n : NodeId) (red : List ℕ) (newNumExits : ℕ)
    (m : Manager) : Attributes A id (reduce fuel n red newNumExits) m m := by
  induction fuel generalizing n red newNumExits m with
  | zero => exact Ends.throw trivial
  | succ fuel ih =>
    unfold Cflobdd.reduce
    refine Ends.bind_within (hA.observe _ m) fun _ m₁ h₁ => ?_
    refine Ends.bind_unchanged (within_reads _ m₁) fun shortcuts => ?_
    split
    · refine Ends.bind_unchanged (within_record n m₁) fun r => hA.after h₁ ?_
      exact Ends.mono (hA.noDistinction _ m₁) (fun _ _ => hA.of_silent) fun _ _ h => h
    split
    · exact Ends.pure (hA.of_silent h₁)
    refine Ends.bind_within (hA.internMap red m₁) fun redId m₂ h₂ => ?_
    have hcompute := hA.after (hA.silent h₁ h₂) (hA.reduceInner ih n red newNumExits m₂)
    refine Ends.memoized (fun _ => hcompute) (fun _ _ _ => ?_) fun _ _ => ?_
    · exact hA.of_silent (hA.silent h₁ h₂)
    · exact Ends.mono hcompute (fun _ _ => hA.recordReduce n redId) fun _ _ h => h

end Reduce

section Restrict

/-- The A-case attributes its work to the node it makes. -/
theorem restrictACase (hA : Attribution A)
    {f : NodeId → ℕ → Bool → List ℕ → ManagerM (NodeId × List ℕ)}
    (hf : ∀ n i v handle m, Attributes A Prod.fst (f n i v handle) m m) (level : ℕ)
    (aConn : Connection) (bConns : List Connection) (varIndex : ℕ) (value : Bool)
    (mapHandle : List ℕ) (m : Manager) :
    Attributes A Prod.fst (restrictACase f level aConn bConns varIndex value mapHandle) m m := by
  have := hA.isPreorder
  unfold Cflobdd.restrictACase
  refine Ends.bind (hf _ _ _ _ m) ?_
  rintro ⟨newATarget, aMap⟩ m₁ h₁
  refine Ends.bind_unchanged (within_body _ m₁) fun aConnMap => ?_
  refine Ends.bind_unchanged (translateLoop_within _ _ _ m₁) fun bIndices => ?_
  -- The B-connections that are selected keep their targets.
  refine Ends.bind_within (R := A []) (Within.foldlM (fun b _ state t _ => ?_) _) ?_
  · refine within_index_bind fun orig _ => within_body_bind fun origRm => ?_
    exact Within.bind (hA.internMap _ t) fun _ t₁ _ _ => Within.pure _ t₁
  · rintro ⟨newBConns, handle⟩ m₂ h₂
    refine Ends.bind_within (hA.internMap _ m₂) fun newAReturnMap m₃ h₃ => ?_
    refine Ends.bind (hA.internInternal _ _ (hA.silent (hA.silent h₁ h₂) h₃) (by simp)) ?_
    exact fun node t h => Ends.pure h

/-- The B-case attributes its work to the node it makes, that of the reduced A-target included. -/
theorem restrictBCase (hA : Attribution A)
    {f : NodeId → ℕ → Bool → List ℕ → ManagerM (NodeId × List ℕ)}
    (hf : ∀ n i v handle m, Attributes A Prod.fst (f n i v handle) m m) (fuel level : ℕ)
    (aConn : Connection) (bConns : List Connection) (adjIndex : ℕ) (value : Bool)
    (mapHandle : List ℕ) (m : Manager) :
    Attributes A Prod.fst (restrictBCase f fuel level aConn bConns adjIndex value mapHandle)
      m m := by
  unfold Cflobdd.restrictBCase
  refine Ends.bind (Ends.foldlM (I := fun (state : RestrictBState) m' =>
    A (state.newBConns.seen.map (·.target)) m m') (hA.refl m) ?_) ?_
  · intro b _ state t ht
    unfold restrictBStep
    refine Ends.bind (hf _ _ _ _ t) ?_
    rintro ⟨newTarget, bMap⟩ t₁ hb
    refine Ends.bind_unchanged (within_body _ t₁) fun origRm => ?_
    refine Ends.bind_unchanged (translateLoop_within _ _ _ t₁) fun translated => ?_
    refine Ends.bind_within (hA.internMap _ t₁) fun inducedId t₂ h₂ => Ends.pure ?_
    exact hA.mono (hA.silent (hA.trans ht hb) h₂)
      (targets_position state.newBConns ⟨newTarget, inducedId⟩)
  · intro state m₁ h₁
    refine Ends.bind_unchanged (within_body _ m₁) fun aConnRm => ?_
    refine Ends.bind_unchanged (translateLoop_within _ _ _ m₁) fun composedARm => ?_
    refine Ends.bind_within (hA.internMap _ m₁) fun inducedARmId m₂ h₂ => ?_
    refine Ends.bind_unchanged (within_body _ m₂) fun inducedARm => ?_
    refine Ends.bind (hA.reduce fuel _ _ _ m₂) fun reducedATarget m₃ h₃ => ?_
    refine Ends.bind (hA.internInternal _ _ (hA.trans (hA.silent h₁ h₂) h₃) ?_) ?_
    · exact List.append_subset.mpr ⟨List.subset_cons_self _ _, by simp⟩
    · exact fun node t h => Ends.pure h

/-- What `restrict_node` adds belongs below the node that it returns. -/
theorem restrictNode (hA : Attribution A) (fuel : ℕ) (n : NodeId) (varIndex : ℕ) (value : Bool)
    (mapHandle : List ℕ) (m : Manager) :
    Attributes A Prod.fst (restrictNode fuel n varIndex value mapHandle) m m := by
  induction fuel generalizing n varIndex value mapHandle m with
  | zero => exact Ends.throw trivial
  | succ fuel ih =>
    unfold Cflobdd.restrictNode
    refine Ends.bind_unchanged (within_record n m) fun r => ?_
    cases r with
    | dontCare | fork => exact Ends.pure (hA.of_silent (hA.refl m))
    | internal level numExits aConn bConns =>
      have hinternal : ∀ t, Attributes A Prod.fst
          (if varIndex < 2 ^ (level - 1) then
            Cflobdd.restrictACase (Cflobdd.restrictNode fuel) level aConn bConns varIndex value
              mapHandle
          else Cflobdd.restrictBCase (Cflobdd.restrictNode fuel) fuel level aConn bConns
            (varIndex - 2 ^ (level - 1)) value mapHandle) t t := by
        intro t
        split
        · exact hA.restrictACase ih _ _ _ _ _ _ t
        · exact hA.restrictBCase ih _ _ _ _ _ _ _ t
      dsimp only
      refine Ends.bind_unchanged (within_reads _ m) fun shortcuts => ?_
      split
      · refine Ends.bind (hA.noDistinction level m) fun nd m₁ h₁ => ?_
        split
        · exact Ends.pure (hA.of_silent h₁)
        · exact hA.after h₁ (hinternal m₁)
      · exact hinternal m

end Restrict

end Attribution

section Calls

variable {m m' : Manager} {L i : ℕ} {f g : Bdd} {F G : Asg L → Bool}

/-- `p` is the product of two nodes that `pair_product` returns. -/
structure Multiplied (m : Manager) (n1 n2 p : NodeId) (m' : Manager) : Prop where
  run : ∃ pairMap, pairProduct m.depth n1 n2 m = .ok (p, pairMap) m'
  le : m ≤ m'
  inv : m'.Inv
  product : ProductOf m' p n1 n2

/-- A list of values is interned, and then `reduce` returns `result` for the node `n`. -/
structure Reduced (m : Manager) (n result : NodeId) (m' : Manager) : Prop where
  run : ∃ values id m₁ fuel red newNumExits, internMap values m = .ok id m₁ ∧ m₁.Inv ∧
    reduce fuel n red newNumExits m₁ = .ok result m'
  le : m ≤ m'
  inv : m'.Inv
  record : ∃ r, m'.record? result = some r

/-- How `apply` and `restrict` end: equal values are merged. -/
theorem merge_reduces (hm : m.Inv) {k : ℕ} {α : Type} [DecidableEq α] {e : Asg k → α}
    {n : NodeId} (hn : Represents m k e n) {fuel : ℕ} (hfuel : k < fuel) {vals : List ℕ}
    (hlength : vals.length = (visited e).length) {E : Panic → Manager → Prop} :
    Ends (do
      let newValuesId ← internMap (firstSeen vals)
      let reduced ← reduce fuel n (vals.map (rank (firstSeen vals))) (firstSeen vals).length
      return (⟨reduced, newValuesId⟩ : Bdd)) m (fun h m' => Reduced m n h.root m') E := by
  obtain ⟨newValuesId, m₁, hok₁, hle₁, hm₁, -⟩ := internMap_returns hm (firstSeen vals)
  obtain ⟨reduced, m₂, hok₂, hle₂, hm₂, hrecord, -⟩ :=
    reduce_rank_returns hm₁ (hn.mono hle₁) hfuel hlength
  refine Ends.bind_ok hok₁ (Ends.bind_ok hok₂ (Ends.pure ⟨?_, hle₁.trans hle₂, hm₂, hrecord⟩))
  exact ⟨_, _, m₁, _, _, _, hok₁, hm₁, hok₂⟩

/-- `apply` reduces the product of the two roots, if it gets that far. -/
theorem apply_runs (hm : m.Inv) (hL : m.level = L) (hf : Denotes m L f F)
    (hg : Denotes m L g G) (op : BoolOp) :
    Ends (apply f g op) m
      (fun h m' => ∃ p m₁, Multiplied m f.root g.root p m₁ ∧ Reduced m₁ p h.root m')
      fun _ m' => ∃ p, Multiplied m f.root g.root p m' := by
  have hdepth : L < m.depth := Manager.lt_depth hL.ge
  unfold apply
  refine Ends.bind_ok (show reads Manager.depth m = .ok m.depth m from rfl) ?_
  obtain ⟨⟨combined, pairMap⟩, m₁, hok₁, hle₁, hm₁, ⟨hnode, hpairMap⟩, -⟩ :=
    pairProduct_returns hdepth hm hf.root hg.root
  obtain rfl : pairMap = productMap F G := hpairMap
  refine Ends.bind_ok hok₁ ?_
  have hproduct : ProductOf m₁ combined f.root g.root := by
    refine ⟨L, _, _, (hf.root.mono hle₁).numbered, (hg.root.mono hle₁).numbered, ?_⟩
    refine hnode.congr fun a b => ?_
    rw [Prod.mk.injEq, Prod.mk.injEq, number_eq_iff, number_eq_iff]
  have hmultiplied : Multiplied m f.root g.root combined m₁ := ⟨⟨_, hok₁⟩, hle₁, hm₁, hproduct⟩
  refine (onlyReads_body f.values).ends_bind (fun _ _ => ⟨_, hmultiplied⟩) fun fVals _ => ?_
  refine (onlyReads_body g.values).ends_bind (fun _ _ => ⟨_, hmultiplied⟩) fun gVals _ => ?_
  refine (onlyReads_applyLoop op fVals gVals _).ends_bind (fun _ _ => ⟨_, hmultiplied⟩) ?_
  rintro ⟨slots, red⟩ ⟨vals, hlength, houtput, rfl⟩
  dsimp only at houtput ⊢
  rw [houtput]
  have hvals : vals.length = (visited fun a => (F a, G a)).length := by
    rw [hlength, productMap_eq_map, List.length_map]
  refine Ends.mono (merge_reduces hm₁ hnode hdepth hvals) ?_ fun _ _ h => h
  exact fun h m' hreduced => ⟨combined, m₁, hmultiplied, hreduced⟩

/-- `restrict` reduces the restricted node, which is the root of the result already. -/
theorem restrict_runs (hm : m.Inv) (hL : m.level = L) (hf : Denotes m L f F) (hi : i < 2 ^ L)
    (v : Bool) {h : Bdd} (hok : restrict f i v m = .ok h m') :
    ∃ map m₁, restrictNode m.depth f.root i v [] m = .ok (h.root, map) m₁ ∧
      Represents m₁ L (fun a => F (a.set i v)) h.root ∧ Reduced m₁ h.root h.root m' := by
  have hdepth : L < m.depth := Manager.lt_depth hL.ge
  obtain ⟨-, hm', hh⟩ := (restrict_returns hm hL hf hi v).of_ok hok
  have hends : Ends (restrict f i v) m (fun h m' => ∃ n map m₁,
      restrictNode m.depth f.root i v [] m = .ok (n, map) m₁ ∧
        Represents m₁ L (fun a => F (a.set i v)) n ∧ Reduced m₁ n h.root m')
      fun _ _ => True := by
    unfold restrict
    refine Ends.bind_unchanged (within_reads _ m) fun total => ?_
    refine Ends.bind_unchanged (within_assert _ _ m) fun _ => ?_
    refine Ends.bind_ok (show reads Manager.depth m = .ok m.depth m from rfl) ?_
    obtain ⟨⟨newRoot, mapHandle⟩, m₁, hok₁, -, hm₁, ⟨hnode, hexits⟩, -⟩ :=
      restrictNode_returns hdepth i v hm hf.root
    obtain rfl : mapHandle = restrictMap F i v := hexits
    refine Ends.bind_ok hok₁ ?_
    refine (onlyReads_body f.values).ends_bind (fun _ _ => trivial) fun fValues _ => ?_
    refine (onlyReads_translateLoop fValues _).ends_bind (fun _ _ => trivial) fun vals hlength => ?_
    rw [dedupeFirstSeen_eq]
    have hvals : vals.length = (visited fun a : Asg L => F (a.set i v)).length := by
      rw [hlength, restrictMap_eq_map, List.length_map]
    refine Ends.mono (merge_reduces hm₁ hnode hdepth hvals) ?_ fun _ _ h => h
    exact fun h m' hreduced => ⟨newRoot, _, m₁, hok₁, hnode, hreduced⟩
  obtain ⟨n, map, m₁, hok₁, hnode, hreduced⟩ := hends.of_ok hok
  obtain rfl : n = h.root := (hnode.mono hreduced.le).unique hh.root
  exact ⟨map, m₁, hok₁, hnode, hreduced⟩

variable {A : List NodeId → Manager → Manager → Prop} {n n1 n2 p result : NodeId}

/-- The product is stored. -/
theorem Multiplied.record (h : Multiplied m n1 n2 p m') : ∃ r, m'.record? p = some r := by
  obtain ⟨k, e₁, e₂, -, -, hp⟩ := h.product
  exact hp.record.imp fun _ hr => hr.1

/-- The work of a product is attributed to its node. -/
theorem Attribution.multiplied (hA : Attribution A) (h : Multiplied m n1 n2 p m') :
    A [p] m m' := by
  obtain ⟨pairMap, hok⟩ := h.run
  exact (hA.pairProduct m.depth n1 n2 m).of_ok hok

/-- The work of a reduction is attributed to its node. -/
theorem Attribution.reduced (hA : Attribution A) (h : Reduced m n result m') :
    A [result] m m' := by
  obtain ⟨values, id, m₁, fuel, red, newNumExits, hintern, -, hok⟩ := h.run
  exact hA.trans ((hA.internMap values m).of_ok hintern)
    ((hA.reduce fuel n red newNumExits m₁).of_ok hok)

/-- What `restrict` adds belongs below its result. -/
theorem Attribution.restricted (hA : Attribution A) (hm : m.Inv) (hL : m.level = L)
    (hf : Denotes m L f F) (hi : i < 2 ^ L) (v : Bool) {h : Bdd}
    (hok : restrict f i v m = .ok h m') : A [h.root] m m' := by
  obtain ⟨map, m₁, hok₁, -, hreduced⟩ := restrict_runs hm hL hf hi v hok
  have hnode := (hA.restrictNode m.depth f.root i v [] m).of_ok hok₁
  exact hA.mono (hA.trans hnode (hA.reduced hreduced)) (by simp)

end Calls

end Cflobdd
