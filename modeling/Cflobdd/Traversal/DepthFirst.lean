import Mathlib.Data.List.Nodup
import Mathlib.Logic.Relation

/-!
# Depth-first traversal of a shared acyclic graph

A depth-first traversal that skips the nodes it has seen visits exactly the reachable
nodes, each of them once. A node is marked before its children are visited, so the set of
marked nodes is not closed under children while the traversal is under way; it is closed
below the level of the node at work.
-/

namespace Traversal

variable {V : Type*}

/-- `w` is reached from `v` by going to children. -/
abbrev Reach (children : V → List V) : V → V → Prop :=
  Relation.ReflTransGen fun v c => c ∈ children v

/-- Add the nodes reachable from a node to those seen. -/
def visit [DecidableEq V] (children : V → List V) : ℕ → V → List V → List V
  | 0, _, seen => seen
  | fuel + 1, v, seen =>
    if v ∈ seen then seen
    else (children v).foldl (fun seen c => visit children fuel c seen) (v :: seen)

/-- Below level `k` the nodes seen are closed under children. -/
def Closed (children : V → List V) (level : V → ℕ) (k : ℕ) (seen : List V) : Prop :=
  ∀ v ∈ seen, level v < k → ∀ c ∈ children v, c ∈ seen

/-- What visiting the nodes `vs` makes of the nodes seen. -/
structure Visited (children : V → List V) (level : V → ℕ) (vs seen seen' : List V) : Prop where
  subset : ∀ x ∈ seen, x ∈ seen'
  mem : ∀ v ∈ vs, v ∈ seen'
  nodup : seen.Nodup → seen'.Nodup
  reach : ∀ x ∈ seen', x ∈ seen ∨ ∃ v ∈ vs, Reach children v x
  closed : ∀ k, (∀ v ∈ vs, level v < k) → Closed children level k seen →
    Closed children level k seen'

section Steps

variable {children : V → List V} {level : V → ℕ} {v : V} {vs seen seen' seen'' : List V}

/-- A visit to nothing. -/
theorem Visited.nil (seen : List V) : Visited children level [] seen seen where
  subset _ hx := hx
  mem _ hv := absurd hv List.not_mem_nil
  nodup h := h
  reach _ hx := .inl hx
  closed _ _ h := h

/-- A vertex that was seen is not visited again. -/
theorem Visited.of_mem (h : v ∈ seen) : Visited children level [v] seen seen where
  subset _ hx := hx
  mem w hw := by rwa [List.mem_singleton.mp hw]
  nodup h := h
  reach _ hx := .inl hx
  closed _ _ h := h

/-- One node is visited, and then the others. -/
theorem Visited.cons (h : Visited children level [v] seen seen')
    (h' : Visited children level vs seen' seen'') :
    Visited children level (v :: vs) seen seen'' where
  subset x hx := h'.subset x (h.subset x hx)
  mem w hw := by
    rcases List.mem_cons.mp hw with rfl | hw
    · exact h'.subset w (h.mem w (.head _))
    · exact h'.mem w hw
  nodup hseen := h'.nodup (h.nodup hseen)
  reach x hx := by
    rcases h'.reach x hx with hx | ⟨w, hw, hreach⟩
    · rcases h.reach x hx with hx | ⟨w, hw, hreach⟩
      · exact .inl hx
      · rw [List.mem_singleton.mp hw] at hreach
        exact .inr ⟨v, .head _, hreach⟩
    · exact .inr ⟨w, .tail _ hw, hreach⟩
  closed k hk hseen := by
    refine h'.closed k (fun w hw => hk w (.tail _ hw)) (h.closed k ?_ hseen)
    intro w hw
    rw [List.mem_singleton.mp hw]
    exact hk v (.head _)

/-- What is reached is no higher. -/
theorem level_le_of_reach (hlevel : ∀ v c, c ∈ children v → level c < level v) {x : V}
    (h : Reach children v x) : level x ≤ level v := by
  induction h with
  | refl => exact Nat.le_refl _
  | tail _ hstep ih =>
    have hlt := hlevel _ _ hstep
    omega

/-- A node is marked and then its children are visited. -/
theorem Visited.node (hlevel : ∀ v c, c ∈ children v → level c < level v) (hv : v ∉ seen)
    (h : Visited children level (children v) (v :: seen) seen') :
    Visited children level [v] seen seen' where
  subset x hx := h.subset x (.tail _ hx)
  mem w hw := by
    rw [List.mem_singleton.mp hw]
    exact h.subset v (.head _)
  nodup hseen := h.nodup (List.nodup_cons.mpr ⟨hv, hseen⟩)
  reach x hx := by
    rcases h.reach x hx with hx | ⟨c, hc, hreach⟩
    · rcases List.mem_cons.mp hx with rfl | hx
      · exact .inr ⟨x, .head _, .refl⟩
      · exact .inl hx
    · exact .inr ⟨v, .head _, .head hc hreach⟩
  closed k hk hseen := by
    have hvk : level v < k := hk v (.head _)
    -- Below the level of `v` nothing is open, and above it nothing is added.
    have hbelow : Closed children level (level v) seen' := by
      refine h.closed (level v) (hlevel v) fun x hx hxv c hc => ?_
      rcases List.mem_cons.mp hx with rfl | hx
      · exact absurd hxv (Nat.lt_irrefl _)
      · exact .tail _ (hseen x hx (Nat.lt_trans hxv hvk) c hc)
    intro x hx hxk c hc
    rcases h.reach x hx with hx | ⟨w, hw, hreach⟩
    · rcases List.mem_cons.mp hx with rfl | hx
      · exact h.mem c hc
      · exact h.subset c (.tail _ (hseen x hx hxk c hc))
    · have hle := level_le_of_reach hlevel hreach
      exact hbelow x hx (Nat.lt_of_le_of_lt hle (hlevel v w hw)) c hc

/-- Visits one after the other. -/
theorem Visited.foldl {f : List V → V → List V}
    (hf : ∀ v ∈ vs, ∀ seen, Visited children level [v] seen (f seen v)) (seen : List V) :
    Visited children level vs seen (vs.foldl f seen) := by
  induction vs generalizing seen with
  | nil => exact .nil seen
  | cons v vs ih =>
    exact (hf v (.head _) seen).cons (ih (fun w hw => hf w (.tail _ hw)) (f seen v))

variable [DecidableEq V]

/-- A depth-first search visits what is reached and was not seen, by induction on the fuel, of
which each level needs one. -/
theorem visit_visited (hlevel : ∀ v c, c ∈ children v → level c < level v) {fuel : ℕ}
    (hfuel : level v < fuel) (seen : List V) :
    Visited children level [v] seen (visit children fuel v seen) := by
  induction fuel generalizing v seen with
  | zero => omega
  | succ fuel ih =>
    unfold visit
    split
    next h => exact .of_mem h
    next h =>
      refine .node hlevel h (.foldl (fun c hc seen => ih ?_ seen) _)
      have := hlevel v c hc
      omega

/-- A traversal visits no node twice. -/
theorem nodup_visit (hlevel : ∀ v c, c ∈ children v → level c < level v) {fuel : ℕ}
    (hfuel : level v < fuel) : (visit children fuel v []).Nodup :=
  (visit_visited hlevel hfuel []).nodup List.nodup_nil

/-- **A traversal visits exactly the reachable nodes.** -/
theorem mem_visit (hlevel : ∀ v c, c ∈ children v → level c < level v) {fuel : ℕ}
    (hfuel : level v < fuel) {x : V} :
    x ∈ visit children fuel v [] ↔ Reach children v x := by
  have hvisited := visit_visited hlevel hfuel []
  constructor
  · intro hx
    rcases hvisited.reach x hx with hx | ⟨w, hw, hreach⟩
    · exact absurd hx List.not_mem_nil
    · rwa [List.mem_singleton.mp hw] at hreach
  · intro hreach
    have hclosed : Closed children level (level v + 1) (visit children fuel v []) := by
      refine hvisited.closed _ (fun w hw => ?_) fun w hw => absurd hw List.not_mem_nil
      rw [List.mem_singleton.mp hw]
      exact Nat.lt_succ_self _
    induction hreach with
    | refl => exact hvisited.mem v (.head _)
    | tail hsteps hstep ih =>
      exact hclosed _ ih (Nat.lt_succ_of_le (level_le_of_reach hlevel hsteps)) _ hstep

/-- A list that holds the root and the children of its nodes, and nothing that is not reached,
is what a traversal visits. -/
theorem visit_perm (hlevel : ∀ v c, c ∈ children v → level c < level v) {fuel : ℕ}
    (hfuel : level v < fuel) {nodes : List V} (hnodup : nodes.Nodup) (hroot : v ∈ nodes)
    (hchildren : ∀ x ∈ nodes, ∀ c ∈ children x, c ∈ nodes)
    (hreach : ∀ x ∈ nodes, Reach children v x) : (visit children fuel v []).Perm nodes := by
  refine (List.perm_ext_iff_of_nodup (nodup_visit hlevel hfuel) hnodup).mpr fun x => ?_
  rw [mem_visit hlevel hfuel]
  refine ⟨fun h => ?_, hreach x⟩
  induction h with
  | refl => exact hroot
  | tail _ hstep ih => exact hchildren _ ih _ hstep

end Steps

end Traversal
