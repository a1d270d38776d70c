import Cflobdd.Reduction

/-!
# Correctness of products

The product of two nodes represents the pair of their functions, and its pair map
lists the pairs of exits taken together by their first visit. Renaming the values of
both functions changes neither, so the functions may be taken to be the numberings
of the exits themselves.
-/

namespace Cflobdd

open FirstVisit Growing

section ProductMap

variable {k : ℕ} {α β : Type} [DecidableEq α] [DecidableEq β]

/-- The pair map lists the pairs of values taken together, each value by its number. -/
theorem productMap_eq_map (g₁ : Asg k → α) (g₂ : Asg k → β) :
    productMap g₁ g₂ = (visited fun a => (g₁ a, g₂ a)).map fun v =>
      (rank (visited g₁) v.1, rank (visited g₂) v.2) := by
  rw [← visited_comp_of_injOn]
  · rfl
  · rintro _ ⟨a, rfl⟩ _ ⟨b, rfl⟩ h
    obtain ⟨h₁, h₂⟩ := Prod.ext_iff.mp h
    exact Prod.ext ((number_eq_iff g₁ a b).mp h₁) ((number_eq_iff g₂ a b).mp h₂)

/-- Only the numbers of the values matter. -/
theorem productMap_number (g₁ : Asg k → α) (g₂ : Asg k → β) :
    productMap (number g₁) (number g₂) = productMap g₁ g₂ := by
  rw [productMap, number_number, number_number, productMap]

/-- The product of the flipped operands has the flipped pairs. -/
theorem productMap_swap (g₁ : Asg k → α) (g₂ : Asg k → β) :
    (productMap g₂ g₁).map Prod.swap = productMap g₁ g₂ := by
  rw [productMap, ← visited_comp_of_injOn (Prod.swap_injective.injOn), productMap]
  rfl

/-- The inputs of a constant function have number zero. -/
theorem number_of_const {g : Asg k → α} (h : ∀ a b, g a = g b) (a : Asg k) : number g a = 0 := by
  rw [number, visited_of_const a fun b => h b a]
  exact rank_of_getElem? (List.nodup_singleton _) rfl

/-- The product with a constant on the left. -/
theorem productMap_const_left {g₁ : Asg k → α} (h : ∀ a b, g₁ a = g₁ b) (g₂ : Asg k → β) :
    productMap g₁ g₂ = (List.range (visited g₂).length).map fun j => (0, j) := by
  have hinj : Function.Injective fun j : ℕ => ((0 : ℕ), j) := fun i j hij => (Prod.ext_iff.mp hij).2
  rw [productMap, funext (number_of_const h), visited_comp_of_injOn hinj.injOn, visited_number]

/-- The product with a constant on the right. -/
theorem productMap_const_right (g₁ : Asg k → α) {g₂ : Asg k → β} (h : ∀ a b, g₂ a = g₂ b) :
    productMap g₁ g₂ = (List.range (visited g₁).length).map fun j => (j, 0) := by
  rw [← productMap_swap, productMap_const_left h, List.map_map]
  rfl

end ProductMap

section Memo

variable {m m' : Manager} {k : ℕ} {α β : Type} [DecidableEq α] [DecidableEq β] {g₁ : Asg k → α}
  {g₂ : Asg k → β} {n₁ n₂ : NodeId} {result result' : NodeId × PairProductMap}

/-- The result of a product: the node of the pair of functions and its pair map. -/
structure IsProduct (m : Manager) (g₁ : Asg k → α) (g₂ : Asg k → β)
    (result : NodeId × PairProductMap) : Prop where
  node : Represents m k (fun a => (g₁ a, g₂ a)) result.1
  pairMap : result.2 = productMap g₁ g₂

/-- A product stays one when the manager grows. -/
theorem IsProduct.mono (hle : m ≤ m') (h : IsProduct m g₁ g₂ result) : IsProduct m' g₁ g₂ result :=
  ⟨h.node.mono hle, h.pairMap⟩

/-- Node and pair map of a product are determined by the functions. -/
theorem IsProduct.unique (h : IsProduct m g₁ g₂ result) (h' : IsProduct m g₁ g₂ result') :
    result = result' :=
  Prod.ext (h.node.unique h'.node) (h.pairMap.trans h'.pairMap.symm)

/-- The flipped product is the product of the flipped operands. -/
theorem IsProduct.swap (h : IsProduct m g₂ g₁ result) :
    IsProduct m g₁ g₂ (result.1, result.2.map Prod.swap) := by
  refine ⟨h.node.congr fun a b => ?_, ?_⟩
  · rw [Prod.mk.injEq, Prod.mk.injEq]
    exact and_comm
  · rw [h.pairMap, productMap_swap]

/-- The product of the numberings of the exits is the product of the functions. -/
theorem IsProduct.of_number (h : IsProduct m (number g₁) (number g₂) result) :
    IsProduct m g₁ g₂ result := by
  refine ⟨h.node.congr fun a b => ?_, h.pairMap.trans (productMap_number g₁ g₂)⟩
  rw [Prod.mk.injEq, Prod.mk.injEq, number_eq_iff, number_eq_iff]

/-- A memoized product is the product. -/
theorem ProductEntry.isProduct {memo : PairProductMemo} (h : ProductEntry m (n₁, n₂) memo)
    (h₁ : Represents m k g₁ n₁) (h₂ : Represents m k g₂ n₂) :
    IsProduct m g₁ g₂ (memo.node, memo.pairMap) := by
  obtain ⟨k', e₁, e₂, he₁, he₂, hnode, hmap⟩ := h
  obtain rfl : k' = k := he₁.level_unique h₁
  refine ⟨hnode.congr fun a b => ?_, ?_⟩
  · rw [Prod.mk.injEq, Prod.mk.injEq, he₁.eq_iff h₁ a b, he₂.eq_iff h₂ a b]
  · rw [hmap, ← productMap_number, he₁.number_eq h₁, he₂.number_eq h₂, productMap_number]

/-- What the memo table gives, under its key or under the flipped one, is the product. -/
theorem lookupPairProduct_isProduct (hm : m.Inv) (h₁ : Represents m k g₁ n₁)
    (h₂ : Represents m k g₂ n₂) (h : lookupPairProduct n₁ n₂ m = some result) :
    IsProduct m g₁ g₂ result := by
  unfold lookupPairProduct at h
  split at h
  next memo hmemo =>
    obtain rfl := Option.some.inj h
    exact (hm.pairProducts _ _ hmemo).isProduct h₁ h₂
  next =>
    split at h
    next memo hmemo =>
      obtain rfl := Option.some.inj h
      exact ((hm.pairProducts _ _ hmemo).isProduct h₂ h₁).swap
    next => cases h

/-- A product is found when it was recorded under either key. -/
theorem isSome_lookupPairProduct : (lookupPairProduct n₁ n₂ m).isSome = true ↔
    (∃ memo, m.pairProductCache.get? (n₁, n₂) = some memo) ∨
      ∃ memo, m.pairProductCache.get? (n₂, n₁) = some memo := by
  unfold lookupPairProduct
  cases m.pairProductCache.get? (n₁, n₂) with
  | some memo => simp
  | none => cases m.pairProductCache.get? (n₂, n₁) <;> simp

/-- A product that was found is found later, be it under the other key. -/
theorem lookupPairProduct_mono (hle : m ≤ m') (hm : m.Inv) (hm' : m'.Inv)
    (h₁ : Represents m k g₁ n₁) (h₂ : Represents m k g₂ n₂)
    (h : lookupPairProduct n₁ n₂ m = some result) :
    lookupPairProduct n₁ n₂ m' = some result := by
  have hfound : (lookupPairProduct n₁ n₂ m').isSome := by
    have hold : (lookupPairProduct n₁ n₂ m).isSome = true := by rw [h, Option.isSome_some]
    rw [isSome_lookupPairProduct] at hold ⊢
    rcases hold with ⟨memo, hmemo⟩ | ⟨memo, hmemo⟩
    · exact .inl ⟨memo, hle.pairProducts _ _ hmemo⟩
    · exact .inr ⟨memo, hle.pairProducts _ _ hmemo⟩
  obtain ⟨result', hresult'⟩ := Option.isSome_iff_exists.mp hfound
  have hold := (lookupPairProduct_isProduct hm h₁ h₂ h).mono hle
  have hnew := lookupPairProduct_isProduct hm' (h₁.mono hle) (h₂.mono hle) hresult'
  rw [hresult', hold.unique hnew]

/-- A product that is found is found under the flipped key with its pairs flipped. -/
theorem lookupPairProduct_flip (hm : m.Inv) (h₁ : Represents m k g₁ n₁)
    (h₂ : Represents m k g₂ n₂) (h : lookupPairProduct n₁ n₂ m = some result) :
    lookupPairProduct n₂ n₁ m = some (result.1, result.2.map Prod.swap) := by
  have hfound : (lookupPairProduct n₂ n₁ m).isSome := by
    have hold : (lookupPairProduct n₁ n₂ m).isSome = true := by rw [h, Option.isSome_some]
    rw [isSome_lookupPairProduct] at hold ⊢
    exact hold.symm
  obtain ⟨result', hresult'⟩ := Option.isSome_iff_exists.mp hfound
  have hflip := (lookupPairProduct_isProduct hm h₁ h₂ h).swap
  have hproduct := lookupPairProduct_isProduct hm h₂ h₁ hresult'
  rw [hresult', hflip.unique hproduct]

/-- Memoizing a product. -/
theorem recordPairProduct_spec (hm : m.Inv) (h₁ : Represents m k g₁ n₁)
    (h₂ : Represents m k g₂ n₂) (h : IsProduct m g₁ g₂ result) :
    m ≤ recordPairProduct n₁ n₂ result m ∧ (recordPairProduct n₁ n₂ result m).Inv ∧
      lookupPairProduct n₁ n₂ (recordPairProduct n₁ n₂ result m) = some result := by
  have hagree : ∀ memo, m.pairProductCache.get? (n₁, n₂) = some memo →
      memo = ⟨result.1, result.2⟩ := by
    intro memo hmemo
    have heq := ((hm.pairProducts _ _ hmemo).isProduct h₁ h₂).unique h
    rw [← heq]
  have hle : m ≤ recordPairProduct n₁ n₂ result m :=
    { le_refl m with
      pairProducts := fun key memo hmemo => Table.get?_insert_of_agree hagree hmemo }
  refine ⟨hle, ?_, ?_⟩
  · refine hm.grow hle (fun _ _ h => .inl h) rfl (fun _ _ h => .inl h) ?_ (fun _ _ h => .inl h)
      (fun _ _ h => .inl h) (fun _ h => .inl h)
    intro key memo hmemo
    rw [recordPairProduct, Table.get?_insert] at hmemo
    split at hmemo
    next hkey =>
      obtain rfl := Option.some.inj hmemo
      subst hkey
      refine .inr ⟨k, number g₁, number g₂, h₁.numbered.mono hle, h₂.numbered.mono hle, ?_, ?_⟩
      · refine (h.node.mono hle).congr fun a b => ?_
        rw [Prod.mk.injEq, Prod.mk.injEq, number_eq_iff, number_eq_iff]
      · rw [productMap_number]
        exact h.pairMap
    next => exact .inl hmemo
  · unfold lookupPairProduct recordPairProduct
    rw [Table.get?_insert_self]

end Memo

section Leaf

variable {m : Manager} {α β : Type} [DecidableEq α] [DecidableEq β] {g₁ : Asg 0 → α}
  {g₂ : Asg 0 → β} {n₁ n₂ : NodeId}

omit [DecidableEq α] in
/-- A function of one variable with equal values is constant. -/
theorem const_of_leaf {g : Asg 0 → α} (h : g (.leaf false) = g (.leaf true)) (a b : Asg 0) :
    g a = g b := by
  obtain ⟨x⟩ := a
  obtain ⟨y⟩ := b
  cases x <;> cases y <;> simp [h]

/-- The pair map of two forks. -/
theorem productMap_fork (hne₁ : g₁ (.leaf false) ≠ g₁ (.leaf true))
    (hne₂ : g₂ (.leaf false) ≠ g₂ (.leaf true)) : productMap g₁ g₂ = [(0, 0), (1, 1)] := by
  have hpair : (g₁ (.leaf false), g₂ (.leaf false)) ≠ (g₁ (.leaf true), g₂ (.leaf true)) :=
    fun h => hne₁ (Prod.ext_iff.mp h).1
  rw [productMap_eq_map, visited_zero fun a => (g₁ a, g₂ a), if_neg hpair, visited_zero g₁,
    if_neg hne₁, visited_zero g₂, if_neg hne₂]
  simp [rank_pair hne₁, rank_pair hne₂]

/-- The product of two leaves. -/
theorem pairProductUncached_leaf {f : NodeId → NodeId → ManagerM (NodeId × PairProductMap)}
    (hm : m.Inv) (h₁ : Represents m 0 g₁ n₁) (h₂ : Represents m 0 g₂ n₂) :
    Returns (pairProductUncached f n₁ n₂) m fun result m' => IsProduct m' g₁ g₂ result := by
  unfold pairProductUncached
  by_cases heq₁ : g₁ (.leaf false) = g₁ (.leaf true)
  · obtain rfl : n₁ = .dontCare := h₁.trans (if_pos heq₁)
    refine record_bind hm m.record?_dontCare ?_
    by_cases heq₂ : g₂ (.leaf false) = g₂ (.leaf true)
    · obtain rfl : n₂ = .dontCare := h₂.trans (if_pos heq₂)
      refine record_bind hm m.record?_dontCare ?_
      refine Runs.pure hm ⟨Represents.dontCare (by rw [heq₁, heq₂]), ?_⟩
      rw [productMap_const_left (const_of_leaf heq₁), visited_zero g₂, if_pos heq₂]
      rfl
    · obtain rfl : n₂ = .fork := h₂.trans (if_neg heq₂)
      refine record_bind hm m.record?_fork ?_
      refine Runs.pure hm ⟨Represents.fork fun h => heq₂ (Prod.ext_iff.mp h).2, ?_⟩
      rw [productMap_const_left (const_of_leaf heq₁), visited_zero g₂, if_neg heq₂]
      rfl
  · obtain rfl : n₁ = .fork := h₁.trans (if_neg heq₁)
    refine record_bind hm m.record?_fork ?_
    by_cases heq₂ : g₂ (.leaf false) = g₂ (.leaf true)
    · obtain rfl : n₂ = .dontCare := h₂.trans (if_pos heq₂)
      refine record_bind hm m.record?_dontCare ?_
      refine Runs.pure hm ⟨Represents.fork fun h => heq₁ (Prod.ext_iff.mp h).1, ?_⟩
      rw [productMap_const_right g₁ (const_of_leaf heq₂), visited_zero g₁, if_neg heq₁]
      rfl
    · obtain rfl : n₂ = .fork := h₂.trans (if_neg heq₂)
      refine record_bind hm m.record?_fork ?_
      exact Runs.pure hm ⟨Represents.fork fun h => heq₁ (Prod.ext_iff.mp h).1,
        (productMap_fork heq₁ heq₂).symm⟩

end Leaf

section Cross

variable {m : Manager} {k : ℕ}

/-- A program makes the products of nodes of level `k`. -/
def ProductCorrect (f : NodeId → NodeId → ManagerM (NodeId × PairProductMap)) (k : ℕ) : Prop :=
  ∀ {m : Manager} {α β : Type} [DecidableEq α] [DecidableEq β] {g₁ : Asg k → α} {g₂ : Asg k → β}
    {n₁ n₂ : NodeId}, m.Inv → Represents m k g₁ n₁ → Represents m k g₂ n₂ →
    Returns (f n₁ n₂) m fun result m' => IsProduct m' g₁ g₂ result

variable {e₁ e₂ : Asg (k + 1) → ℕ}

/-- The pairs of exits of the parent that one pair of B-connections leads to. -/
theorem crossExit_loop (he₁ : number e₁ = e₁) (he₂ : number e₂ = e₂) (x : Asg k)
    (exits : Dedup (ℕ × ℕ)) :
    ∃ exits', (productMap (row e₁ x) (row e₂ x)).foldlM
        (crossExit ((visited (row e₁ x)).map (rank (visited e₁)))
          ((visited (row e₂ x)).map (rank (visited e₂)))) (exits, []) =
        (pure (exits', (visited (row (fun a => (e₁ a, e₂ a)) x)).map
          (rank (seeAll exits.seen (visited (row (fun a => (e₁ a, e₂ a)) x))))) : ManagerM _) ∧
      exits'.seen = seeAll exits.seen (visited (row (fun a => (e₁ a, e₂ a)) x)) := by
  have hsteps : List.Forall₂ (fun c v => ∀ (d : Dedup (ℕ × ℕ)) out, True →
      ∃ d', crossExit ((visited (row e₁ x)).map (rank (visited e₁)))
            ((visited (row e₂ x)).map (rank (visited e₂))) (d, out) c =
          (pure (d', out ++ [rank (see d.seen v) v]) : ManagerM _) ∧
        d'.seen = see d.seen v ∧ True)
      (productMap (row e₁ x) (row e₂ x)) (visited (row (fun a => (e₁ a, e₂ a)) x)) := by
    rw [productMap_eq_map, List.forall₂_map_left_iff]
    refine List.forall₂_same.mpr ?_
    intro v hv d out _
    obtain ⟨y, rfl⟩ := mem_visited.mp hv
    have hexit : ∀ {e : Asg (k + 1) → ℕ}, number e = e →
        ((visited (row e x)).map (rank (visited e)))[rank (visited (row e x)) (row e x y)]? =
          some (row e x y) := by
      intro e he
      rw [List.getElem?_map, getElem?_rank (mem_visited_self _ y), Option.map_some]
      exact congrArg some (congrFun he (.node x y))
    obtain ⟨hpos, hseen⟩ := d.position_spec (row e₁ x y, row e₂ x y)
    refine ⟨(d.position (row e₁ x y, row e₂ x y)).2, ?_, hseen, trivial⟩
    rw [crossExit, index_of_some (hexit he₁), pure_bind, index_of_some (hexit he₂), pure_bind,
      ← hpos]
  obtain ⟨exits', hloop, hseen, -⟩ := foldlM_numbers Dedup.seen (fun _ => True) hsteps trivial []
  exact ⟨exits', hloop, hseen⟩

/-- One pair of B-connections gives the B-connection of its row. -/
theorem crossStep_returns {f : NodeId → NodeId → ManagerM (NodeId × PairProductMap)}
    (hf : ProductCorrect f k) (hm : m.Inv) (he₁ : number e₁ = e₁) (he₂ : number e₂ = e₂)
    {b₁ b₂ : List Connection}
    (hb₁ : List.Forall₂ (fun r b => Represents m k r b.target ∧
      m.body? b.returnMap = some ((visited r).map (rank (visited e₁)))) (visited (row e₁)) b₁)
    (hb₂ : List.Forall₂ (fun r b => Represents m k r b.target ∧
      m.body? b.returnMap = some ((visited r).map (rank (visited e₂)))) (visited (row e₂)) b₂)
    {done rest : List (Asg k → ℕ × ℕ)} {x : Asg k}
    (hrows : visited (row fun a => (e₁ a, e₂ a)) =
      done ++ row (fun a => (e₁ a, e₂ a)) x :: rest)
    {state : CrossState}
    (hstate : BuiltRows m (fun a => (e₁ a, e₂ a)) done state.newBConns state.exits.seen) :
    Returns (crossStep f b₁ b₂ state (number (row e₁) x, number (row e₂) x)) m fun state' m' =>
      BuiltRows m' (fun a => (e₁ a, e₂ a)) (done ++ [row (fun a => (e₁ a, e₂ a)) x])
        state'.newBConns state'.exits.seen := by
  obtain ⟨b1c, hindex₁, hnode₁, hmap₁⟩ := Represents.bConn_of_row hb₁ x
  obtain ⟨b2c, hindex₂, hnode₂, hmap₂⟩ := Represents.bConn_of_row hb₂ x
  unfold crossStep
  refine index_bind hindex₁ (index_bind hindex₂ ?_)
  refine Runs.bind (hf hm hnode₁ hnode₂) ?_
  rintro ⟨bNode, bPairMap⟩ m₁ hle₁ hm₁ ⟨hbNode, hbPairMap⟩
  obtain rfl : bPairMap = productMap (row e₁ x) (row e₂ x) := hbPairMap
  refine body_bind hm₁ (Manager.body?_mono hle₁ hmap₁) ?_
  refine body_bind hm₁ (Manager.body?_mono hle₁ hmap₂) ?_
  obtain ⟨exits', hloop, hseen⟩ := crossExit_loop he₁ he₂ x state.exits
  dsimp only
  rw [hloop, pure_bind]
  refine Runs.bind (internMap_returns hm₁ _) ?_
  intro bReturnId m₂ hle₂ hm₂ hid
  refine Runs.pure hm₂ ?_
  rw [hseen]
  exact hstate.concat (hle₁.trans hle₂) hrows (hbNode.mono hle₂) hid

/-- Two rows of a pair of functions are equal exactly if both components are. -/
theorem row_pair_eq_iff (x x' : Asg k) :
    row (fun a => (e₁ a, e₂ a)) x = row (fun a => (e₁ a, e₂ a)) x' ↔
      row e₁ x = row e₁ x' ∧ row e₂ x = row e₂ x' := by
  constructor
  · intro h
    exact ⟨funext fun y => (Prod.ext_iff.mp (congrFun h y)).1,
      funext fun y => (Prod.ext_iff.mp (congrFun h y)).2⟩
  · rintro ⟨hrow₁, hrow₂⟩
    exact funext fun y => Prod.ext (congrFun hrow₁ y) (congrFun hrow₂ y)

/-- The pairs of A-exits are the rows of the pair of functions. -/
theorem productMap_rows (e₁ e₂ : Asg (k + 1) → ℕ) :
    productMap (row e₁) (row e₂) = (visited (row fun a => (e₁ a, e₂ a))).map fun r =>
      (rank (visited (row e₁)) fun y => (r y).1, rank (visited (row e₂)) fun y => (r y).2) := by
  have hinj : Set.InjOn (fun r : Asg k → ℕ × ℕ => (rank (visited (row e₁)) fun y => (r y).1,
      rank (visited (row e₂)) fun y => (r y).2)) (Set.range (row fun a => (e₁ a, e₂ a))) := by
    rintro _ ⟨x, rfl⟩ _ ⟨x', rfl⟩ h
    obtain ⟨hfst, hsnd⟩ := Prod.ext_iff.mp h
    exact (row_pair_eq_iff x x').mpr
      ⟨(number_eq_iff (row e₁) x x').mp hfst, (number_eq_iff (row e₂) x x').mp hsnd⟩
  exact visited_comp_of_injOn hinj

/-- The parts that the cross product interns are those of the pair of functions. -/
theorem crossProduct_returns {f : NodeId → NodeId → ManagerM (NodeId × PairProductMap)}
    (hf : ProductCorrect f k) (hm : m.Inv) (hk : k + 1 ≤ m.level) (he₁ : number e₁ = e₁)
    (he₂ : number e₂ = e₂) {a₁ a₂ : Connection} {b₁ b₂ : List Connection}
    (h₁ : Parts m e₁ a₁ b₁) (h₂ : Parts m e₂ a₂ b₂) :
    Returns (crossProduct f (k + 1) a₁ b₁ a₂ b₂) m fun result m' => IsProduct m' e₁ e₂ result := by
  unfold crossProduct
  refine Runs.bind (hf hm h₁.aTarget h₂.aTarget) ?_
  rintro ⟨aNode, aPairMap⟩ m₁ hle₁ hm₁ ⟨haNode, haPairMap⟩
  obtain rfl : aPairMap = productMap (row e₁) (row e₂) := haPairMap
  have haNode' : Represents m₁ k (row fun a => (e₁ a, e₂ a)) aNode := by
    refine haNode.congr fun x x' => ?_
    rw [Prod.mk.injEq, row_pair_eq_iff]
  refine Runs.bind (identity_returns hm₁ _) ?_
  intro aReturnMap m₂ hle₂ hm₂ haMap
  rw [productMap_rows, List.length_map] at haMap
  have hle₁₂ := hle₁.trans hle₂
  refine body_bind hm₂ (Manager.body?_mono hle₁₂ h₁.aMap) ?_
  refine body_bind hm₂ (Manager.body?_mono hle₁₂ h₂.aMap) ?_
  refine debugAssert_bind (isIdentity_range _) (debugAssert_bind (isIdentity_range _) ?_)
  -- The loop over the pairs of A-exits makes a B-connection for each row.
  have hpairs : List.Forall₂ (fun r c => c = (rank (visited (row e₁)) fun y => (r y).1,
      rank (visited (row e₂)) fun y => (r y).2)) (visited (row fun a => (e₁ a, e₂ a)))
      (productMap (row e₁) (row e₂)) := by
    rw [productMap_rows, List.forall₂_map_right_iff, List.forall₂_same]
    exact fun _ _ => rfl
  refine Runs.bind (Runs.foldlM_forall₂ (I := fun done state m' => BuiltRows m'
    (fun a => (e₁ a, e₂ a)) done state.newBConns state.exits.seen) hpairs hm₂ (.nil _ _) ?_) ?_
  · rintro done r rest _ state m₃ hrows rfl hle₃ hm₃ hstate
    have hr : r ∈ visited (row fun a => (e₁ a, e₂ a)) := by simp [hrows]
    obtain ⟨x, rfl⟩ := mem_visited.mp hr
    have hle := hle₁₂.trans hle₃
    exact crossStep_returns hf hm₃ he₁ he₂ (h₁.mono hle).bConns (h₂.mono hle).bConns hrows hstate
  intro state m₃ hle₃ hm₃ hstate
  have hk₃ : k + 1 ≤ m₃.level := by rwa [(hle₁₂.trans hle₃).level]
  rw [hstate.exits_eq]
  refine Runs.bind (internInternal_returns hm₃ hk₃ rfl ⟨haNode'.mono (hle₂.trans hle₃),
    Manager.body?_mono hle₃ haMap, hstate.bConns⟩) ?_
  intro n m₄ _ hm₄ hn
  refine Runs.pure hm₄ ⟨hn, ?_⟩
  rw [productMap, he₁, he₂]

/-- The product of two internal nodes, by the cross product or past it. -/
theorem pairProductUncached_internal {f : NodeId → NodeId → ManagerM (NodeId × PairProductMap)}
    (hf : ProductCorrect f k) (hm : m.Inv) (he₁ : number e₁ = e₁) (he₂ : number e₂ = e₂)
    {n₁ n₂ : NodeId} (h₁ : Represents m (k + 1) e₁ n₁) (h₂ : Represents m (k + 1) e₂ n₂) :
    Returns (pairProductUncached f n₁ n₂) m fun result m' => IsProduct m' e₁ e₂ result := by
  obtain ⟨a₁, b₁, hr₁, hparts₁⟩ := h₁.parts
  obtain ⟨a₂, b₂, hr₂, hparts₂⟩ := h₂.parts
  have hk : k + 1 ≤ m.level := (hm.exists_represents hr₁).1
  unfold pairProductUncached
  refine record_bind hm hr₁ (record_bind hm hr₂ ?_)
  refine debugAssert_bind (beq_self_eq_true _) ?_
  refine shortcutsOn_bind hm ?_
  split
  · -- The product with the constant node is the other node.
    refine Runs.bind (noDistinction_returns hm hk) ?_
    intro nd m₁ hle₁ hm₁ hnd
    have hconst : ∀ {e : Asg (k + 1) → ℕ}, Represents m (k + 1) e nd → ∀ a b, e a = e b :=
      fun he a b => ((he.mono hle₁).eq_iff hnd a b).mpr rfl
    split_ifs with hboth hleft hright
    · obtain ⟨rfl, rfl⟩ := hboth
      refine Runs.pure hm₁ ⟨hnd.congr fun a b => ?_, ?_⟩
      · simp [hconst h₁ a b, hconst h₂ a b]
      · rw [productMap_const_left (hconst h₁),
          visited_of_const (.allFalse _) fun b => hconst h₂ b _]
        rfl
    · subst hleft
      refine Runs.pure hm₁ ⟨(h₂.mono hle₁).congr fun a b => ?_,
        (productMap_const_left (hconst h₁) e₂).symm⟩
      simp [hconst h₁ a b]
    · subst hright
      refine Runs.pure hm₁ ⟨(h₁.mono hle₁).congr fun a b => ?_,
        (productMap_const_right e₁ (hconst h₂)).symm⟩
      simp [hconst h₂ a b]
    · exact crossProduct_returns hf hm₁ (by rwa [hle₁.level]) he₁ he₂ (hparts₁.mono hle₁)
        (hparts₂.mono hle₁)
  · exact crossProduct_returns hf hm hk he₁ he₂ hparts₁ hparts₂

/-- The product of two nodes, when the products of their children are right. -/
theorem pairProductUncached_returns {f : NodeId → NodeId → ManagerM (NodeId × PairProductMap)}
    (hf : ∀ j, k = j + 1 → ProductCorrect f j) {m : Manager} {α β : Type} [DecidableEq α]
    [DecidableEq β] {g₁ : Asg k → α} {g₂ : Asg k → β} {n₁ n₂ : NodeId} (hm : m.Inv)
    (h₁ : Represents m k g₁ n₁) (h₂ : Represents m k g₂ n₂) :
    Returns (pairProductUncached f n₁ n₂) m fun result m' => IsProduct m' g₁ g₂ result := by
  cases k with
  | zero => exact pairProductUncached_leaf hm h₁ h₂
  | succ k =>
    refine (pairProductUncached_internal (hf k rfl) hm (number_number g₁) (number_number g₂)
      h₁.numbered h₂.numbered).mono ?_
    intro result m' _ _ hresult
    exact hresult.of_number

/-- **Correctness of `pair_product`:** it gives the node of the pair of functions, and
the pairs of exits in the order of their first visit. While the memo is on, the memo
table has the product afterwards. -/
theorem pairProduct_found {fuel : ℕ} (hfuel : k < fuel) {m : Manager} {α β : Type}
    [DecidableEq α] [DecidableEq β] {g₁ : Asg k → α} {g₂ : Asg k → β} {n₁ n₂ : NodeId}
    (hm : m.Inv) (h₁ : Represents m k g₁ n₁) (h₂ : Represents m k g₂ n₂) :
    Returns (pairProduct fuel n₁ n₂) m fun result m' =>
      IsProduct m' g₁ g₂ result ∧ (memoOn m = true → lookupPairProduct n₁ n₂ m' = some result) := by
  induction fuel generalizing m k α β n₁ n₂ with
  | zero => omega
  | succ fuel ih =>
    unfold pairProduct
    refine Runs.memoized_found hm (fun t hle => hle.memo) ?_ ?_ ?_ ?_
    · intro t u result hmt htu ht hu hlookup
      exact lookupPairProduct_mono htu ht hu (h₁.mono hmt) (h₂.mono hmt) hlookup
    · intro result hlookup
      exact lookupPairProduct_isProduct hm h₁ h₂ hlookup
    · refine pairProductUncached_returns ?_ hm h₁ h₂
      rintro j rfl _ _ _ _ _ _ _ _ _ hm' h₁' h₂'
      exact (ih (by omega) hm' h₁' h₂').mono fun _ _ _ _ h => h.1
    · intro result t hle ht hresult
      obtain ⟨hle', hinv, hlookup⟩ :=
        recordPairProduct_spec ht (h₁.mono hle) (h₂.mono hle) hresult
      exact ⟨hle', hinv, hresult.mono hle', hlookup⟩

/-- `pair_product` is right at every level, with a unit of fuel for each. -/
theorem pairProduct_returns {fuel : ℕ} (hfuel : k < fuel) : ProductCorrect (pairProduct fuel) k :=
  fun hm h₁ h₂ => (pairProduct_found hfuel hm h₁ h₂).mono fun _ _ _ _ h => h.1

end Cross

section Apply

namespace BoolOp

/-- All entries of the table are zero or one. -/
def IsBool (op : BoolOp) : Prop := op[0][0] < 2 ∧ op[0][1] < 2 ∧ op[1][0] < 2 ∧ op[1][1] < 2

instance (op : BoolOp) : Decidable op.IsBool := inferInstanceAs (Decidable (_ ∧ _))

/-- The boolean operation of a table of zeros and ones. -/
def eval (op : BoolOp) : Bool → Bool → Bool
  | false, false => op[0][0] == 1
  | false, true => op[0][1] == 1
  | true, false => op[1][0] == 1
  | true, true => op[1][1] == 1

/-- The table with the operands exchanged. -/
def transpose (op : BoolOp) : BoolOp := #v[#v[op[0][0], op[1][0]], #v[op[0][1], op[1][1]]]

/-- The test of a zero or one. -/
theorem toNat_beq_one {v : ℕ} (h : v < 2) : (v == 1).toNat = v := by
  obtain rfl | rfl : v = 0 ∨ v = 1 := by omega
  · rfl
  · rfl

/-- The entry of the table at two booleans. -/
def entry (op : BoolOp) : Bool → Bool → ℕ
  | false, false => op[0][0]
  | false, true => op[0][1]
  | true, false => op[1][0]
  | true, true => op[1][1]

/-- A table as a boolean operation. -/
theorem eval_eq (op : BoolOp) (a b : Bool) : op.eval a b = (op.entry a b == 1) := by
  cases a <;> cases b <;> rfl

/-- An entry zero or one is the value of the operation. -/
theorem toNat_eval {op : BoolOp} {a b : Bool} (h : op.entry a b < 2) :
    (op.eval a b).toNat = op.entry a b := by
  rw [eval_eq, toNat_beq_one h]

/-- The entries of a table of zeros and ones. -/
theorem IsBool.entry_lt {op : BoolOp} (h : op.IsBool) (a b : Bool) : op.entry a b < 2 := by
  obtain ⟨h₀₀, h₀₁, h₁₀, h₁₁⟩ := h
  cases a <;> cases b <;> assumption

/-- Indexing the table by two booleans gives the entry. -/
theorem exists_row (op : BoolOp) (a b : Bool) :
    ∃ row, op.toList[a.toNat]? = some row ∧ row.toList[b.toNat]? = some (op.entry a b) := by
  cases a <;> cases b <;> simp [entry]

/-- The transposed table has zeros and ones too. -/
theorem IsBool.transpose {op : BoolOp} (h : op.IsBool) : op.transpose.IsBool :=
  ⟨h.1, h.2.2.1, h.2.1, h.2.2.2⟩

/-- The transposed table flips the operands. -/
theorem eval_transpose (op : BoolOp) (a b : Bool) : op.transpose.eval a b = op.eval b a := by
  cases a <;> cases b <;> rfl

end BoolOp

variable {m : Manager} {L : ℕ} {f g : Bdd} {F G : Asg L → Bool}

/-- One pair of exits in `apply`: the values that the pair stands for are looked up, and the
position of the entry is asked for. -/
theorem applyStep_eq (op : BoolOp) (F G : Asg L → Bool) (a : Asg L) (d : Slots) (out : List ℕ) :
    (applyStep op ((visited F).map Bool.toNat) ((visited G).map Bool.toNat) (d, out)
        (number F a, number G a) : ManagerM _) =
      match d.position (op.entry (F a) (G a)) with
      | some (pos, newVals) => pure (newVals, out ++ [pos])
      | none => throw .indexOutOfBounds := by
  have hvalue : ∀ H : Asg L → Bool,
      ((visited H).map Bool.toNat)[number H a]? = some (H a).toNat := by
    intro H
    rw [List.getElem?_map, getElem?_number, Option.map_some]
  have hoperands : decide ((F a).toNat < 2 ∧ (G a).toNat < 2) = true :=
    decide_eq_true ⟨Bool.toNat_lt _, Bool.toNat_lt _⟩
  obtain ⟨row, hrow, hentry⟩ := op.exists_row (F a) (G a)
  rw [applyStep, index_of_some (hvalue F), pure_bind, index_of_some (hvalue G), pure_bind,
    debugAssert_of_true hoperands, pure_bind, index_of_some hrow, pure_bind,
    index_of_some hentry]
  exact pure_bind _ _

/-- An entry zero or one gets its position among the values met. -/
theorem applyStep_of_lt {op : BoolOp} {F G : Asg L → Bool} {a : Asg L}
    (hop : op.entry (F a) (G a) < 2) (d : Slots) (out : List ℕ) (hd : d.slot.length = 2) :
    ∃ d', (applyStep op ((visited F).map Bool.toNat) ((visited G).map Bool.toNat) (d, out)
        (number F a, number G a) : ManagerM _) =
        pure (d', out ++ [rank (see d.output (op.eval (F a) (G a)).toNat)
          (op.eval (F a) (G a)).toNat]) ∧
      d'.output = see d.output (op.eval (F a) (G a)).toNat ∧ d'.slot.length = 2 := by
  rw [BoolOp.toNat_eval hop]
  obtain ⟨d', hposition, houtput, hslot⟩ := d.position_spec (hd ▸ hop)
  exact ⟨d', by rw [applyStep_eq, hposition], houtput, hslot.trans hd⟩

/-- The loop of `apply` numbers the values of the operation, when the entries of the table
that are reached are zeros and ones. -/
theorem applyLoop {op : BoolOp} {F G : Asg L → Bool} (hop : ∀ a, op.entry (F a) (G a) < 2) :
    ∃ newVals : Slots,
      newVals.output = (visited fun a => op.eval (F a) (G a)).map Bool.toNat ∧
      (productMap F G).foldlM (applyStep op ((visited F).map Bool.toNat)
        ((visited G).map Bool.toNat)) (.new 2, []) =
        (pure (newVals, reduction (fun a => (F a, G a)) fun v => op.eval v.1 v.2) :
          ManagerM _) := by
  have hsteps : List.Forall₂ (fun c v => ∀ (d : Slots) out, d.slot.length = 2 →
      ∃ d', applyStep op ((visited F).map Bool.toNat) ((visited G).map Bool.toNat) (d, out) c =
          (pure (d', out ++ [rank (see d.output v) v]) : ManagerM _) ∧
        d'.output = see d.output v ∧ d'.slot.length = 2)
      (productMap F G)
      ((visited fun a => (F a, G a)).map fun v => (op.eval v.1 v.2).toNat) := by
    rw [productMap_eq_map, List.forall₂_map_left_iff, List.forall₂_map_right_iff]
    refine List.forall₂_same.mpr ?_
    intro v hv d out hd
    obtain ⟨a, rfl⟩ := mem_visited.mp hv
    exact applyStep_of_lt (hop a) d out hd
  have hinj : Set.InjOn Bool.toNat (Set.range fun a => op.eval (F a) (G a)) :=
    fun b _ b' _ h => by cases b <;> cases b' <;> simp_all
  obtain ⟨newVals, hloop, houtput, -⟩ :=
    foldlM_numbers Slots.output (fun d => d.slot.length = 2) hsteps (d := .new 2)
      List.length_replicate []
  refine ⟨newVals, houtput.trans ?_, hloop.trans ?_⟩
  · exact firstSeen_renamed (g := fun a => (F a, G a)) (ρ := fun v => op.eval v.1 v.2) hinj
  · rw [← map_rank_renamed (g := fun a => (F a, G a)) (ρ := fun v => op.eval v.1 v.2) hinj]
    rfl

/-- **Correctness of `apply`:** it gives the diagram of the pointwise operation, and the
product of the roots is found in the memo table from then on. -/
theorem apply_found (hm : m.Inv) (hL : m.level = L) (hf : Denotes m L f F)
    (hg : Denotes m L g G) {op : BoolOp} (hop : ∀ a, op.entry (F a) (G a) < 2) :
    Returns (apply f g op) m fun h m' => (Denotes m' L h fun a => op.eval (F a) (G a)) ∧
      (memoOn m = true → ∃ result, lookupPairProduct f.root g.root m' = some result) := by
  have hdepth : L < m.depth := Manager.lt_depth hL.ge
  unfold apply
  refine depth_bind hm ?_
  refine Runs.bind (pairProduct_found hdepth hm hf.root hg.root) ?_
  rintro ⟨combined, pairMap⟩ m₁ hle₁ hm₁ ⟨⟨hcombined, hpairMap⟩, hfound⟩
  obtain rfl : pairMap = productMap F G := hpairMap
  refine body_bind hm₁ (Manager.body?_mono hle₁ hf.values) ?_
  refine body_bind hm₁ (Manager.body?_mono hle₁ hg.values) ?_
  obtain ⟨newVals, houtput, hloop⟩ := applyLoop hop
  dsimp only
  rw [hloop, pure_bind]
  dsimp only
  rw [houtput, List.length_map]
  refine Runs.bind (internMap_returns hm₁ _) ?_
  intro newValuesId m₂ hle₂ hm₂ hvalues
  refine Runs.bind (reduce_returns (g := fun a => (F a, G a)) hm₂ (hcombined.mono hle₂) hdepth
    fun v => op.eval v.1 v.2) ?_
  intro reduced m₃ hle₃ hm₃ hreduced
  refine Runs.pure hm₃ ⟨⟨hreduced, Manager.body?_mono hle₃ hvalues⟩, fun hmemo => ?_⟩
  exact ⟨_, lookupPairProduct_mono (hle₂.trans hle₃) hm₁ hm₃ (hf.root.mono hle₁)
    (hg.root.mono hle₁) (hfound hmemo)⟩

/-- `apply` returns the diagram of the entries. -/
theorem apply_returns (hm : m.Inv) (hL : m.level = L) (hf : Denotes m L f F)
    (hg : Denotes m L g G) {op : BoolOp} (hop : op.IsBool) :
    Returns (apply f g op) m fun h m' => Denotes m' L h fun a => op.eval (F a) (G a) :=
  (apply_found hm hL hf hg fun _ => hop.entry_lt _ _).mono fun _ _ _ _ h => h.1

/-- **Failure of `apply`:** when the table has an entry above one where it is reached, the call
panics after the product has been made. What it leaves behind satisfies the invariant. -/
theorem apply_panics (hm : m.Inv) (hL : m.level = L) (hf : Denotes m L f F) (hg : Denotes m L g G)
    {op : BoolOp} (hop : ∃ a, 2 ≤ op.entry (F a) (G a)) :
    ∃ m', apply f g op m = .error .indexOutOfBounds m' ∧ m ≤ m' ∧ m'.Inv := by
  have hdepth : L < m.depth := Manager.lt_depth hL.ge
  obtain ⟨⟨combined, pairMap⟩, m₁, hproduct, hle, hm₁, ⟨-, hpairMap⟩, -⟩ :=
    pairProduct_returns hdepth hm hf.root hg.root
  obtain rfl : pairMap = productMap F G := hpairMap
  have hloop : (productMap F G).foldlM (applyStep op ((visited F).map Bool.toNat)
      ((visited G).map Bool.toNat)) (.new 2, []) = (throw .indexOutOfBounds : ManagerM _) := by
    refine foldlM_throw (fun state => state.1.slot.length = 2) ?_ ?_ List.length_replicate
    · intro pair hpair state hstate
      obtain ⟨a, rfl⟩ := mem_visited.mp hpair
      by_cases hentry : op.entry (F a) (G a) < 2
      · obtain ⟨d', hstep, -, hd'⟩ := applyStep_of_lt hentry state.1 state.2 hstate
        exact .inr ⟨_, hstep, hd'⟩
      · left
        rw [applyStep_eq, state.1.position_of_le (by omega)]
    · obtain ⟨a, ha⟩ := hop
      refine ⟨_, mem_visited_self _ a, fun state hstate => ?_⟩
      rw [applyStep_eq, state.1.position_of_le (by omega)]
  have hread : reads Manager.depth m = .ok m.depth m := rfl
  refine ⟨m₁, ?_, hle, hm₁⟩
  unfold apply
  rw [bind_ok hread, bind_ok hproduct]
  dsimp only
  rw [bind_ok (body_ok (Manager.body?_mono hle hf.values)),
    bind_ok (body_ok (Manager.body?_mono hle hg.values)), hloop]
  rfl

/-- Negation is injective. -/
theorem injOn_not (s : Set Bool) : Set.InjOn Bool.not s := fun _ _ _ _ h => Bool.not_inj h

/-- The flipped value map lists the flipped values by their first visit. -/
theorem flipLoop (F : Asg L → Bool) :
    ((visited F).map Bool.toNat).foldlM flipValue [] =
      (pure ((visited fun a => !F a).map Bool.toNat) : ManagerM _) := by
  rw [visited_comp_of_injOn (injOn_not _) (g := F), List.map_map]
  refine foldlM_collect ?_ []
  rw [List.forall₂_map_left_iff, List.forall₂_map_right_iff]
  refine List.forall₂_same.mpr ?_
  intro b _ out
  cases b <;> rfl

/-- The named operations. -/
inductive Connective where
  | and
  | or
  | xor
  | iff
  | implies
  | nand
  | nor
  deriving DecidableEq, Repr

namespace Connective

/-- The program of a named operation. -/
def exec : Connective → Bdd → Bdd → ManagerM Bdd
  | and => Cflobdd.and
  | or => Cflobdd.or
  | xor => Cflobdd.xor
  | iff => Cflobdd.iff
  | implies => Cflobdd.implies
  | nand => Cflobdd.nand
  | nor => Cflobdd.nor

/-- The table of a named operation. -/
def op : Connective → BoolOp
  | and => .and
  | or => .or
  | xor => .xor
  | iff => .iff
  | implies => .implies
  | nand => .nand
  | nor => .nor

/-- The operation on booleans that the name stands for. -/
def eval : Connective → Bool → Bool → Bool
  | and, a, b => a && b
  | or, a, b => a || b
  | xor, a, b => a ^^ b
  | iff, a, b => a == b
  | implies, a, b => !a || b
  | nand, a, b => !(a && b)
  | nor, a, b => !(a || b)

/-- The named operations are `apply` with their tables. -/
theorem exec_eq (c : Connective) (f g : Bdd) : c.exec f g = apply f g c.op := by cases c <;> rfl

/-- Their tables have zeros and ones. -/
theorem isBool_op (c : Connective) : c.op.IsBool := by cases c <;> decide

/-- Their tables are those of the connectives. -/
theorem eval_op (c : Connective) (a b : Bool) : c.op.eval a b = c.eval a b := by
  cases c <;> cases a <;> cases b <;> rfl

/-- **Correctness of the named operations.** -/
theorem returns (c : Connective) (hm : m.Inv) (hL : m.level = L) (hf : Denotes m L f F)
    (hg : Denotes m L g G) :
    Returns (c.exec f g) m fun h m' => Denotes m' L h fun a => c.eval (F a) (G a) := by
  have h := apply_returns hm hL hf hg c.isBool_op
  simp only [eval_op] at h
  rwa [exec_eq]

end Connective

/-- **Correctness of `not`:** flipping the value map gives the canonical diagram of the
negation, since the order of the values is that of their first visit on both sides. -/
theorem not_returns (hm : m.Inv) (hf : Denotes m L f F) :
    Returns (not f) m fun h m' => Denotes m' L h fun a => !F a := by
  unfold not
  refine body_bind hm hf.values ?_
  rw [flipLoop, pure_bind]
  refine Runs.bind (internMap_returns hm _) ?_
  intro newId m₁ hle₁ hm₁ hvalues
  exact Runs.pure hm₁ ⟨(hf.root.mono hle₁).comp (injOn_not _), hvalues⟩

end Apply

end Cflobdd
