import Cflobdd.Semantics

/-!
# Repeated calls

Nothing is removed from the stores. Repeating a call at any later point gives the same
result, and everything that it interns is found in the stores, so that they do not grow.
The same holds for `apply` with the operands exchanged and the table transposed: it takes
the product from the memo table under the flipped key, and is the same call from there on.
-/

namespace Cflobdd

open FirstVisit Growing

/-- The program returns `a` and leaves both stores as large as they are. -/
def Repeats {α : Type} (f : ManagerM α) (a : α) (m : Manager) : Prop :=
  ∃ m', f m = .ok a m' ∧ m'.nodeCount = m.nodeCount ∧ m'.returnMapCount = m.returnMapCount

/-- A program that was run repeats its result in every later state. -/
theorem Repeats.of_returns {α : Type} {f : ManagerM α} {a : α} {m m' t : Manager}
    {Q : α → Manager → Prop} (h : Returns f m Q) (hok : f m = .ok a m') (ht : t.Inv)
    (hle : m' ≤ t) : Repeats f a t := by
  obtain ⟨t', hokt, hle₁, hle₂, -⟩ := h.repeats hok ht hle
  refine ⟨t', hokt, ?_, ?_⟩
  · exact Nat.le_antisymm hle₂.nodes.length_le hle₁.nodes.length_le
  · exact Nat.le_antisymm hle₂.returnMaps.length_le hle₁.returnMaps.length_le

section Transpose

variable {m : Manager} {L : ℕ} {f g : Bdd} {F G : Asg L → Bool} {op : BoolOp}

/-- What `apply` does after the product of the roots. -/
def finishApply (depth : ℕ) (combined : NodeId) (newVals reduction : List ℕ) : ManagerM Bdd := do
  let newValuesId ← internMap newVals
  let reduced ← reduce depth combined reduction newVals.length
  return ⟨reduced, newValuesId⟩

/-- `apply` on a product that is found. -/
theorem apply_of_found (hm : m.Inv) (hmemo : memoOn m = true) (hf : Denotes m L f F)
    (hg : Denotes m L g G) (hop : op.IsBool) {result : NodeId × PairProductMap}
    (hfound : lookupPairProduct f.root g.root m = some result) :
    apply f g op m = finishApply m.depth result.1
      ((visited fun a => op.eval (F a) (G a)).map Bool.toNat)
      (reduction (fun a => (F a, G a)) fun v => op.eval v.1 v.2) m := by
  obtain ⟨combined, pairMap⟩ := result
  obtain rfl : pairMap = productMap F G :=
    (lookupPairProduct_isProduct hm hf.root hg.root hfound).pairMap
  have hproduct : pairProduct m.depth f.root g.root m = .ok (combined, productMap F G) m :=
    memoized_hit hmemo hfound
  obtain ⟨newVals, houtput, hloop⟩ := applyLoop (F := F) (G := G) fun _ => hop.entry_lt _ _
  have hdepth : reads Manager.depth m = .ok m.depth m := rfl
  unfold apply finishApply
  rw [bind_ok hdepth, bind_ok hproduct]
  dsimp only
  rw [bind_ok (body_ok hf.values), bind_ok (body_ok hg.values), hloop, pure_bind]
  dsimp only
  rw [houtput]

/-- With the operands exchanged and the table transposed `apply` does the same, once the
product is in the memo table. -/
theorem apply_transpose_eq (hm : m.Inv) (hmemo : memoOn m = true) (hf : Denotes m L f F)
    (hg : Denotes m L g G) (hop : op.IsBool) {result : NodeId × PairProductMap}
    (hfound : lookupPairProduct f.root g.root m = some result) :
    apply g f op.transpose m = apply f g op m := by
  have hflip := lookupPairProduct_flip hm hf.root hg.root hfound
  have hvalues : (fun a => op.transpose.eval (G a) (F a)) = fun a => op.eval (F a) (G a) :=
    funext fun a => op.eval_transpose (G a) (F a)
  have hreduction : (reduction (fun a => (G a, F a)) fun v => op.transpose.eval v.1 v.2) =
      reduction (fun a => (F a, G a)) fun v => op.eval v.1 v.2 := by
    refine (reduction_comp (φ := Prod.swap) (g := fun a => (F a, G a))
      Prod.swap_injective.injOn _).trans ?_
    congr 1
    funext v
    exact op.eval_transpose v.2 v.1
  rw [apply_of_found hm hmemo hg hf hop.transpose hflip, apply_of_found hm hmemo hf hg hop hfound,
    hvalues, hreduction]

end Transpose

section Calls

variable {L : ℕ} {s s' : Session}

/-- A public call repeats its result after any number of further calls. -/
theorem Session.Valid.exec_repeats (hs : s.Valid L) {call : Call Returned} {f : Bdd}
    {m₁ : Manager} (hargs : ∀ x ∈ call.args, x ∈ s.returned) (hrange : call.InRange L)
    (hok : (call.map Returned.bdd).exec s.manager = .ok f m₁)
    (hlater : Steps L ⟨m₁, s.returned ++ [⟨f, (call.map Returned.function).describe⟩]⟩ s') :
    Repeats (call.map Returned.bdd).exec f s'.manager := by
  have hvalid := Step.valid hs (.call call hargs hrange hok)
  exact .of_returns (hs.exec_returns call hargs hrange) hok (Steps.valid hvalid hlater).inv
    (Steps.grows hvalid hlater).1

/-- A repeated `path_count` gives the same count at any later point. -/
theorem Session.Valid.pathCount_repeats (hs : s.Valid L) {f : Returned} (hf : f ∈ s.returned)
    {count : ℕ} {m₁ : Manager} (hok : pathCount f.bdd s.manager = .ok count m₁)
    (hlater : Steps L ⟨m₁, s.returned⟩ s') : Repeats (pathCount f.bdd) count s'.manager := by
  have hL : L ≤ 6 := hs.level ▸ level_le_of_pathCount hok
  have hvalid := Step.valid hs (.pathCount hf hok)
  exact .of_returns (hs.pathCount_returns hf hL) hok (Steps.valid hvalid hlater).inv
    (Steps.grows hvalid hlater).1

/-- After `apply` the transposed call repeats its result. -/
theorem Session.Valid.apply_transpose_repeats (hs : s.Valid L) {f g : Returned} {op : BoolOp}
    (hf : f ∈ s.returned) (hg : g ∈ s.returned) (hop : op.IsBool) {h : Bdd} {m₁ : Manager}
    (hok : apply f.bdd g.bdd op s.manager = .ok h m₁)
    (hlater : Steps L
      ⟨m₁, s.returned ++ [⟨h, fun a => op.eval (f.function a) (g.function a)⟩]⟩ s') :
    Repeats (apply g.bdd f.bdd op.transpose) h s'.manager := by
  have hargs : ∀ x ∈ (Call.apply f g op).args, x ∈ s.returned := by
    intro x hx
    rcases List.mem_cons.mp hx with rfl | hx
    · exact hf
    · rwa [List.mem_singleton.mp hx]
  have hvalid := Step.valid hs (.call (.apply f g op) hargs hop hok)
  have hvalid' := Steps.valid hvalid hlater
  have hle := (Steps.grows hvalid hlater).1
  have hreturns := apply_found hs.inv hs.level (hs.returned f hf) (hs.returned g hg)
    fun _ => hop.entry_lt _ _
  obtain ⟨hgrows, hinv, -, hfound⟩ := hreturns.of_ok hok
  obtain ⟨result, hresult⟩ := hfound hs.memo
  have hf' := (hs.returned f hf).mono (hgrows.trans hle)
  have hg' := (hs.returned g hg).mono (hgrows.trans hle)
  have hlookup := lookupPairProduct_mono hle hinv hvalid'.inv
    ((hs.returned f hf).mono hgrows).root ((hs.returned g hg).mono hgrows).root hresult
  obtain ⟨m₂, hm₂, hnodes, hmaps⟩ := Repeats.of_returns hreturns hok hvalid'.inv hle
  refine ⟨m₂, ?_, hnodes, hmaps⟩
  rw [apply_transpose_eq hvalid'.inv hvalid'.memo hf' hg' hop hlookup, hm₂]

/-- **Repeating a call never grows the stores:** after any further calls, every public call
returns what it returned before and leaves the numbers of nodes and return maps unchanged,
and so does a transposed `apply`. No record or return map is ever changed. -/
theorem repeated_call (hs : Reachable L s) :
    (∀ (call : Call Returned) f m₁ s', (∀ x ∈ call.args, x ∈ s.returned) → call.InRange L →
      (call.map Returned.bdd).exec s.manager = .ok f m₁ →
      Steps L ⟨m₁, s.returned ++ [⟨f, (call.map Returned.function).describe⟩]⟩ s' →
      Repeats (call.map Returned.bdd).exec f s'.manager) ∧
    (∀ f ∈ s.returned, ∀ count m₁ s', pathCount f.bdd s.manager = .ok count m₁ →
      Steps L ⟨m₁, s.returned⟩ s' → Repeats (pathCount f.bdd) count s'.manager) ∧
    (∀ f ∈ s.returned, ∀ a : List Bool, a.length = 2 ^ L → ∀ s', Steps L s s' →
      s'.manager.evaluate f.bdd a = s.manager.evaluate f.bdd a) ∧
    (∀ f ∈ s.returned, ∀ g ∈ s.returned, ∀ (op : BoolOp) h m₁ s', op.IsBool →
      apply f.bdd g.bdd op s.manager = .ok h m₁ →
      Steps L ⟨m₁, s.returned ++ [⟨h, fun a => op.eval (f.function a) (g.function a)⟩]⟩ s' →
      Repeats (apply g.bdd f.bdd op.transpose) h s'.manager) ∧
    ∀ s', Steps L s s' →
      (∀ id r, s.manager.record? id = some r → s'.manager.record? id = some r) ∧
        ∀ id b, s.manager.body? id = some b → s'.manager.body? id = some b := by
  refine ⟨?_, ?_, ?_, ?_, ?_⟩
  · intro call f m₁ s' hargs hrange hok hlater
    exact hs.valid.exec_repeats hargs hrange hok hlater
  · intro f hf count m₁ s' hok hlater
    exact hs.valid.pathCount_repeats hf hok hlater
  · intro f hf a ha s' hlater
    have hf' := (Steps.grows hs.valid hlater).2.subset hf
    rw [hs.valid.evaluate hf ha, (Steps.valid hs.valid hlater).evaluate hf' ha]
  · intro f hf g hg op h m₁ s' hop hok hlater
    exact hs.valid.apply_transpose_repeats hf hg hop hok hlater
  · intro s' hlater
    have hle := (Steps.grows hs.valid hlater).1
    exact ⟨fun _ _ => Manager.record?_mono hle, fun _ _ => Manager.body?_mono hle⟩

theorem repeated_call_sample :
    (∀ (call : Call Returned) f m₁ s', (∀ x ∈ call.args, x ∈ sampleLiterals.returned) →
      call.InRange 1 → (call.map Returned.bdd).exec sampleLiterals.manager = .ok f m₁ →
      Steps 1 ⟨m₁, sampleLiterals.returned ++
        [⟨f, (call.map Returned.function).describe⟩]⟩ s' →
      Repeats (call.map Returned.bdd).exec f s'.manager) ∧
    (∀ f ∈ sampleLiterals.returned, ∀ count m₁ s',
      pathCount f.bdd sampleLiterals.manager = .ok count m₁ →
      Steps 1 ⟨m₁, sampleLiterals.returned⟩ s' → Repeats (pathCount f.bdd) count s'.manager) ∧
    (∀ f ∈ sampleLiterals.returned, ∀ a : List Bool, a.length = 2 ^ 1 → ∀ s',
      Steps 1 sampleLiterals s' →
      s'.manager.evaluate f.bdd a = sampleLiterals.manager.evaluate f.bdd a) ∧
    (∀ f ∈ sampleLiterals.returned, ∀ g ∈ sampleLiterals.returned, ∀ (op : BoolOp) h m₁ s',
      op.IsBool → apply f.bdd g.bdd op sampleLiterals.manager = .ok h m₁ →
      Steps 1 ⟨m₁, sampleLiterals.returned ++
        [⟨h, fun a => op.eval (f.function a) (g.function a)⟩]⟩ s' →
      Repeats (apply g.bdd f.bdd op.transpose) h s'.manager) ∧
    ∀ s', Steps 1 sampleLiterals s' →
      (∀ id r, sampleLiterals.manager.record? id = some r → s'.manager.record? id = some r) ∧
        ∀ id b, sampleLiterals.manager.body? id = some b → s'.manager.body? id = some b :=
  repeated_call sampleLiterals_reachable.1

end Calls

end Cflobdd
