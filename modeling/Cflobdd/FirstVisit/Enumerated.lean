import Cflobdd.FirstVisit.FirstSeen
import Mathlib.Data.List.Perm.Basic

/-!
# Functions on an enumerated domain

A function on a domain that is listed in a fixed order visits its values in that
order. `visited` lists them by their first visit. A function on pairs can be read
row by row: this file shows that its values are then visited row by row, and that
a row met before visits nothing new.
-/

namespace FirstVisit

/-- A type whose elements are listed, each once, in a fixed order. -/
class Enumerated (X : Type*) where
  /-- All elements in order. -/
  all : List X
  /-- No element is listed twice. -/
  nodup_all : all.Nodup
  /-- Every element is listed. -/
  mem_all : ∀ x, x ∈ all

namespace Enumerated

variable {X Y Z : Type*} {α : Type*}

/-- Functions on an enumerated domain are compared point by point. -/
instance decidableEqFun [Enumerated X] [DecidableEq α] : DecidableEq (X → α) := fun f g =>
  decidable_of_iff (∀ x ∈ all, f x = g x)
    ⟨fun h => funext fun x => h x (mem_all x), fun h x _ => congrFun h x⟩

/-- What is decided at every point is decided for all. -/
instance decidableForall [Enumerated X] {p : X → Prop} [DecidablePred p] : Decidable (∀ x, p x) :=
  decidable_of_iff (∀ x ∈ all, p x) ⟨fun h x => h x (mem_all x), fun h x _ => h x⟩

/-- The list of all pairs, the first component being the more significant one. -/
def pairs [Enumerated X] [Enumerated Y] (pair : X → Y → Z) : List Z :=
  all.flatMap fun x => all.map (pair x)

variable [Enumerated X] [Enumerated Y] {pair : X → Y → Z}

/-- Every pair is listed. -/
theorem mem_pairs (x : X) (y : Y) : pair x y ∈ pairs pair :=
  List.mem_flatMap.mpr ⟨x, mem_all x, List.mem_map.mpr ⟨y, mem_all y, rfl⟩⟩

/-- No pair is listed twice. -/
theorem nodup_pairs (hpair : ∀ x y x' y', pair x y = pair x' y' → x = x' ∧ y = y') :
    (pairs pair).Nodup := by
  refine List.nodup_flatMap.mpr ⟨?_, ?_⟩
  · intro x _
    exact nodup_all.map fun y y' h => (hpair x y x y' h).2
  · refine nodup_all.imp ?_
    intro x x' hne z hz hz'
    obtain ⟨y, -, rfl⟩ := List.mem_map.mp hz
    obtain ⟨y', -, h⟩ := List.mem_map.mp hz'
    exact hne (hpair x' y' x y h).1.symm

end Enumerated

open Enumerated

variable {X : Type*} [Enumerated X] {α β : Type*} [DecidableEq α] [DecidableEq β]

/-- The values of a function in the order of their first visit. -/
def visited (g : X → α) : List α := firstSeen (all.map g)

/-- The values visited are those taken. -/
theorem mem_visited {g : X → α} {v : α} : v ∈ visited g ↔ ∃ x, g x = v := by
  rw [visited, mem_firstSeen, List.mem_map]
  constructor
  · rintro ⟨x, -, h⟩
    exact ⟨x, h⟩
  · rintro ⟨x, h⟩
    exact ⟨x, mem_all x, h⟩

/-- The value at an input is visited. -/
theorem mem_visited_self (g : X → α) (x : X) : g x ∈ visited g := mem_visited.mpr ⟨x, rfl⟩

/-- No value is visited twice. -/
theorem nodup_visited (g : X → α) : (visited g).Nodup := nodup_firstSeen _

/-- The number of a function's value in the order of the visits. -/
def number (g : X → α) (x : X) : ℕ := rank (visited g) (g x)

/-- A number is a position among the values. -/
theorem number_lt (g : X → α) (x : X) : number g x < (visited g).length :=
  rank_lt (mem_visited_self g x)

/-- At the number of an input is its value. -/
theorem getElem?_number (g : X → α) (x : X) : (visited g)[number g x]? = some (g x) :=
  getElem?_rank (mem_visited_self g x)

/-- Inputs have one number exactly if they have one value. -/
theorem number_eq_iff (g : X → α) (x y : X) : number g x = number g y ↔ g x = g y := by
  constructor
  · intro h
    exact rank_injOn _ (mem_visited_self g x) (mem_visited_self g y) h
  · intro h
    rw [number, number, h]

/-- Some value is visited. -/
theorem length_visited_pos (g : X → α) (x : X) : 0 < (visited g).length :=
  List.length_pos_of_mem (mem_visited_self g x)

/-- After a further function, the first visits are found among the first visits. -/
theorem visited_comp (φ : α → β) (g : X → α) :
    visited (fun x => φ (g x)) = firstSeen ((visited g).map φ) := by
  rw [visited, visited, firstSeen_map_firstSeen, List.map_map]
  rfl

/-- An injective renaming of the values keeps the order of the visits. -/
theorem visited_comp_of_injOn {φ : α → β} {g : X → α} (hφ : Set.InjOn φ (Set.range g)) :
    visited (fun x => φ (g x)) = (visited g).map φ := by
  rw [visited_comp]
  refine firstSeen_of_nodup (List.Nodup.map_on ?_ (nodup_visited g))
  intro v hv w hw h
  exact hφ (mem_visited.mp hv) (mem_visited.mp hw) h

/-- An injective renaming keeps the numbers. -/
theorem rank_comp_of_injOn {φ : α → β} {g : X → α} (hφ : Set.InjOn φ (Set.range g)) {v : α}
    (hv : v ∈ visited g) : rank (visited fun x => φ (g x)) (φ v) = rank (visited g) v := by
  rw [visited_comp_of_injOn hφ]
  refine rank_map_of_injOn ?_ (nodup_visited g) hv
  intro v hv w hw h
  exact hφ (mem_visited.mp hv) (mem_visited.mp hw) h

/-- Different values have different numbers. -/
theorem rank_visited_injOn (g : X → α) : Set.InjOn (rank (visited g)) (Set.range g) := by
  rintro _ ⟨x, rfl⟩ _ ⟨y, rfl⟩ h
  exact rank_injOn _ (mem_visited_self g x) (mem_visited_self g y) h

/-- The numbers of a function's values are visited in the order `0, 1, 2, ...`. -/
theorem visited_number (g : X → α) : visited (number g) = List.range (visited g).length := by
  rw [← map_rank_self (nodup_visited g), ← visited_comp_of_injOn (rank_visited_injOn g)]
  rfl

/-- Numbering twice changes nothing. -/
theorem number_number (g : X → α) : number (number g) = number g := by
  funext x
  rw [number, visited_number, rank_range (number_lt g x)]

/-- A function and a further one: the new number of each old number. -/
def reduction (g : X → α) (ρ : α → β) : List ℕ :=
  (visited g).map fun v => rank (visited fun x => ρ (g x)) (ρ v)

/-- A reduction map has an entry for each value. -/
@[simp] theorem length_reduction (g : X → α) (ρ : α → β) :
    (reduction g ρ).length = (visited g).length := List.length_map ..

/-- The entry for a value is the number of its image. -/
theorem getElem?_reduction (g : X → α) (ρ : α → β) (x : X) :
    (reduction g ρ)[number g x]? = some (number (fun x => ρ (g x)) x) := by
  rw [reduction, List.getElem?_map, getElem?_number]
  rfl

/-- The reduction is known by its entries. -/
theorem eq_reduction {g : X → α} {ρ : α → β} {red : List ℕ}
    (hlen : red.length = (visited g).length)
    (hred : ∀ x, red[number g x]? = some (number (fun x => ρ (g x)) x)) :
    red = reduction g ρ := by
  refine List.ext_getElem? fun i => ?_
  by_cases hi : i < (visited g).length
  · obtain ⟨x, hx⟩ := mem_visited.mp (List.getElem_mem hi)
    have hnumber : number g x = i := by rw [number, hx, rank_getElem (nodup_visited g) hi]
    rw [← hnumber, hred, getElem?_reduction]
  · rw [List.getElem?_eq_none (by omega), List.getElem?_eq_none (by simp; omega)]

/-- An injective renaming of the values leaves the numbers as they are. -/
theorem number_comp_of_injOn {φ : α → β} {g : X → α} (hφ : Set.InjOn φ (Set.range g)) (x : X) :
    number (fun x => φ (g x)) x = number g x :=
  rank_comp_of_injOn hφ (mem_visited_self g x)

/-- A reduction does not depend on the names of the values. -/
theorem reduction_comp {γ : Type*} [DecidableEq γ] {φ : α → γ} {g : X → α}
    (hφ : Set.InjOn φ (Set.range g)) (ρ : γ → β) :
    reduction (fun x => φ (g x)) ρ = reduction g fun v => ρ (φ v) := by
  refine eq_reduction ?_ fun x => ?_
  · rw [length_reduction, visited_comp_of_injOn hφ, List.length_map]
  · rw [← number_comp_of_injOn hφ x, getElem?_reduction]

/-- Every reduction is a reduction of the numbers of the values. -/
theorem exists_reduction_number (g : X → α) (ρ : α → β) :
    ∃ σ : ℕ → ℕ, reduction (number g) σ = reduction g ρ ∧
      (fun x => σ (number g x)) = number fun x => ρ (g x) := by
  have hσ : (fun x => (reduction g ρ)[number g x]?.getD 0) = number fun x => ρ (g x) := by
    funext x
    rw [getElem?_reduction, Option.getD_some]
  refine ⟨fun i => (reduction g ρ)[i]?.getD 0, (eq_reduction ?_ fun x => ?_).symm, hσ⟩
  · rw [length_reduction, visited_number, List.length_range]
  · rw [hσ, number_number, number_number, getElem?_reduction]

/-- The new numbers appear in a reduction in the order `0, 1, 2, ...`. -/
theorem firstSeen_reduction (g : X → α) (ρ : α → β) :
    firstSeen (reduction g ρ) = List.range (visited fun x => ρ (g x)).length := by
  have h := firstSeen_map_rank ((visited g).map ρ)
  rw [← visited_comp, List.map_map] at h
  exact h

/-- A list with an entry for each value whose entries first appear in the order
`0, 1, 2, ...` is a reduction. -/
theorem exists_reduction_eq {g : X → α} {red : List ℕ} {m : ℕ}
    (hlen : red.length = (visited g).length) (hred : firstSeen red = List.range m) :
    ∃ ρ : α → ℕ, reduction g ρ = red ∧ visited (fun x => ρ (g x)) = List.range m := by
  have hmap : (visited g).map (fun v => red.getD (rank (visited g) v) 0) = red := by
    refine List.ext_getElem (by simp [hlen]) ?_
    intro i hi hi'
    rw [List.getElem_map, rank_getElem (nodup_visited g), List.getD_eq_getElem?_getD,
      List.getElem?_eq_getElem hi', Option.getD_some]
  have hvisited : visited (fun x => red.getD (rank (visited g) (g x)) 0) = List.range m := by
    rw [visited_comp (fun v => red.getD (rank (visited g) v) 0) g, hmap, hred]
  refine ⟨fun v => red.getD (rank (visited g) v) 0, ?_, hvisited⟩
  rw [reduction, hvisited]
  conv_rhs => rw [← map_rank_of_firstSeen_range hred, ← hmap, List.map_map]
  rfl

/-- The second of two reductions after the first is the reduction by both functions. -/
theorem reduction_trans {γ : Type*} [DecidableEq γ] (g : X → α) (ρ : α → β) (σ : β → γ) :
    (reduction g ρ).map (fun i => (reduction (fun x => ρ (g x)) σ).getD i 0) =
      reduction g fun v => σ (ρ v) := by
  refine eq_reduction (by simp) fun x => ?_
  rw [List.getElem?_map, getElem?_reduction, Option.map_some, List.getD_eq_getElem?_getD,
    getElem?_reduction, Option.getD_some]

/-- A further function that merges no values changes no numbers. -/
theorem reduction_of_injOn {g : X → α} {ρ : α → β} (hρ : Set.InjOn ρ (Set.range g)) :
    reduction g ρ = List.range (visited g).length := by
  rw [← map_rank_self (nodup_visited g), reduction]
  exact List.map_congr_left fun v hv => rank_comp_of_injOn hρ hv

section Renamed

variable {γ : Type*} [DecidableEq γ] {g : X → α} {ρ : α → β} {φ : β → γ}

/-- The merged values, renamed and freed of repetitions, are the visits of the merged function. -/
theorem firstSeen_renamed (hφ : Set.InjOn φ (Set.range fun x => ρ (g x))) :
    firstSeen ((visited g).map fun v => φ (ρ v)) = (visited fun x => ρ (g x)).map φ := by
  rw [← visited_comp_of_injOn hφ]
  exact (visited_comp (fun v => φ (ρ v)) g).symm

/-- The positions of the merged values, under whatever names, are the reduction. -/
theorem map_rank_renamed (hφ : Set.InjOn φ (Set.range fun x => ρ (g x))) :
    ((visited g).map fun v => φ (ρ v)).map
        (rank (firstSeen ((visited g).map fun v => φ (ρ v)))) = reduction g ρ := by
  rw [firstSeen_renamed hφ, List.map_map, reduction]
  refine List.map_congr_left fun v hv => ?_
  obtain ⟨x, rfl⟩ := mem_visited.mp hv
  refine rank_map_of_injOn ?_ (nodup_visited _) (mem_visited_self (fun x => ρ (g x)) x)
  exact hφ.mono fun w hw => mem_visited.mp hw

end Renamed

omit [Enumerated X] [DecidableEq α] [DecidableEq β] in
/-- Two functions with the same equalities between values are renamings of each other. -/
theorem exists_comp_of_eq_iff [Nonempty β] {g : X → α} {g' : X → β}
    (h : ∀ x y, g x = g y ↔ g' x = g' y) :
    ∃ φ : α → β, Set.InjOn φ (Set.range g) ∧ g' = fun x => φ (g x) := by
  have hfactors : g'.FactorsThrough g := fun x y hxy => (h x y).mp hxy
  obtain ⟨φ, hφ⟩ := (Function.factorsThrough_iff (f := g) g').mp hfactors
  refine ⟨φ, ?_, hφ⟩
  rintro _ ⟨x, rfl⟩ _ ⟨y, rfl⟩ hxy
  refine (h x y).mpr ?_
  rw [hφ]
  exact hxy

/-- A function that repeats no value visits its values in the order of the arguments. -/
theorem visited_of_injective {g : X → α} (hg : Function.Injective g) : visited g = all.map g :=
  firstSeen_of_nodup (nodup_all.map hg)

/-- A constant function visits one value. -/
theorem visited_of_const {g : X → α} (x : X) (h : ∀ y, g y = g x) : visited g = [g x] := by
  have hall : ∀ v ∈ visited g, v = g x := by
    intro v hv
    obtain ⟨y, rfl⟩ := mem_visited.mp hv
    exact h y
  have hnodup := nodup_visited g
  have hpos := length_visited_pos g x
  match hvisited : visited g with
  | [] => simp [hvisited] at hpos
  | [v] => rw [hall v (by simp [hvisited])]
  | v :: w :: rest =>
    rw [hvisited, List.nodup_cons] at hnodup
    have hv := hall v (by simp [hvisited])
    have hw := hall w (by simp [hvisited])
    exact absurd (by rw [hv, hw]; simp) hnodup.1

/-- A function that visits one value is constant. -/
theorem const_of_length_visited {g : X → α} (h : (visited g).length = 1) (x y : X) :
    g x = g y := by
  obtain ⟨v, hv⟩ := List.length_eq_one_iff.mp h
  have hx := mem_visited_self g x
  have hy := mem_visited_self g y
  rw [hv, List.mem_singleton] at hx hy
  rw [hx, hy]

/-- A function on pairs visits its values row by row, and only rows met for the first
time visit new ones. -/
theorem visited_pairs {Y Z : Type*} [Enumerated Y] [Enumerated Z] {pair : X → Y → Z}
    (hall : (all : List Z) = pairs pair) (g : Z → α) :
    visited g = firstSeen ((visited fun x y => g (pair x y)).flatMap visited) := by
  have hrows : (all.map g : List α) = (all.map fun x y => g (pair x y)).flatMap all.map := by
    rw [hall, pairs, List.map_flatMap, List.flatMap_map]
    simp only [List.map_map, Function.comp_def]
  rw [visited, hrows]
  unfold visited
  rw [firstSeen_flatMap_firstSeen, firstSeen_flatMap_inner]

end FirstVisit
