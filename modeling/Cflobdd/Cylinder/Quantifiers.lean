import Mathlib.Order.BooleanAlgebra.Basic
import Mathlib.Order.Heyting.Basic

/-!
# Boolean functions of variables

A point assigns a truth value to every variable, and its variables can be set one by one.
On the boolean functions of points there are then the operations that fix a variable, that
substitute a function for it, and that quantify over it. This file has their laws. The
quantifiers are the two adjoints of weakening, that is of the inclusion of the functions
that do not depend on the variable.
-/

namespace Cylinder

/-- Points with variables that are read and set. -/
class Valuation (ι : outParam Type*) (X : Type*) where
  /-- The value of a variable. -/
  get : X → ι → Bool
  /-- The point with one variable changed. -/
  set : X → ι → Bool → X
  get_set : ∀ x i v, get (set x i v) i = v
  set_get : ∀ x i, set x i (get x i) = x
  set_set : ∀ x i v w, set (set x i v) i w = set x i w
  set_comm : ∀ x {i j}, i ≠ j → ∀ v w, set (set x i v) j w = set (set x j w) i v

open Cylinder.Valuation

variable {ι X : Type*} [Valuation ι X]

/-- The function with a variable fixed. -/
def fix (i : ι) (v : Bool) (F : X → Bool) : X → Bool := fun x => F (set x i v)

/-- The function with another one in the place of a variable. -/
def subst (i : ι) (G F : X → Bool) : X → Bool := fun x => F (set x i (G x))

/-- The function does not depend on the variable. -/
def Independent (i : ι) (F : X → Bool) : Prop := fix i true F = fix i false F

/-- Some value of the variable makes the function true. -/
def existsAt (i : ι) (F : X → Bool) : X → Bool := fix i true F ⊔ fix i false F

/-- Both values of the variable make the function true. -/
def forallAt (i : ι) (F : X → Bool) : X → Bool := fix i true F ⊓ fix i false F

variable {i j : ι} {F G H : X → Bool}

section Fix

/-- The value that is fixed does not matter. -/
theorem Independent.fix_eq (h : Independent i F) (v w : Bool) : fix i v F = fix i w F := by
  cases v <;> cases w
  · rfl
  · exact h.symm
  · exact h
  · rfl

/-- The value of the coordinate does not matter. -/
theorem Independent.set_eq (h : Independent i F) (x : X) (v : Bool) : F (set x i v) = F x := by
  have hfix := congrFun (h.fix_eq v (get x i)) x
  rw [fix, fix, set_get] at hfix
  exact hfix

/-- A function with the coordinate fixed does not depend on it. -/
theorem independent_fix (i : ι) (v : Bool) (F : X → Bool) : Independent i (fix i v F) := by
  funext x
  simp only [fix, set_set]

/-- Fixing a variable changes nothing exactly if the function does not depend on it. -/
theorem fix_eq_self_iff (v : Bool) : fix i v F = F ↔ Independent i F := by
  constructor
  · intro h
    rw [← h]
    exact independent_fix i v F
  · intro h
    funext x
    exact h.set_eq x v

/-- Different coordinates may be fixed in either order. -/
theorem fix_comm (hij : i ≠ j) (v w : Bool) (F : X → Bool) :
    fix j w (fix i v F) = fix i v (fix j w F) := by
  funext x
  simp only [fix, set_comm x hij]

end Fix

section Subst

/-- Substituting one after the other for two variables, the function put in second not
depending on the variable replaced first. -/
theorem subst_subst (hij : i ≠ j) (hH : Independent i H) (F G : X → Bool) :
    subst j H (subst i G F) = subst i (subst j H G) (subst j H F) := by
  funext x
  simp only [subst, hH.set_eq]
  rw [set_comm x hij]

/-- Substituting a constant is fixing the variable. -/
theorem subst_const (i : ι) (v : Bool) (F : X → Bool) : subst i (fun _ => v) F = fix i v F := rfl

/-- Fixing another coordinate goes into both functions of a substitution. -/
theorem fix_subst (hij : i ≠ j) (v : Bool) (F G : X → Bool) :
    fix j v (subst i G F) = subst i (fix j v G) (fix j v F) :=
  subst_subst (H := fun _ => v) hij rfl F G

/-- Substituting a variable for itself changes nothing. -/
theorem subst_get (i : ι) (F : X → Bool) : subst i (fun x => get x i) F = F := by
  funext x
  rw [subst, set_get]

end Subst

section Quantifiers

/-- A function with the coordinate fixed implies that some value makes it true. -/
theorem fix_le_existsAt (i : ι) (v : Bool) (F : X → Bool) : fix i v F ≤ existsAt i F := by
  cases v
  · exact le_sup_right
  · exact le_sup_left

/-- If all values make a function true, a fixed one does. -/
theorem forallAt_le_fix (i : ι) (v : Bool) (F : X → Bool) : forallAt i F ≤ fix i v F := by
  cases v
  · exact inf_le_right
  · exact inf_le_left

/-- Fixing a coordinate keeps the order. -/
theorem fix_mono (h : F ≤ G) (i : ι) (v : Bool) : fix i v F ≤ fix i v G := fun x => h (set x i v)

/-- A function implies its existential quantification. -/
theorem le_existsAt (i : ι) (F : X → Bool) : F ≤ existsAt i F := by
  intro x
  have h := fix_le_existsAt i (get x i) F x
  rw [fix, set_get] at h
  exact h

/-- A function is implied by its universal quantification. -/
theorem forallAt_le (i : ι) (F : X → Bool) : forallAt i F ≤ F := by
  intro x
  have h := forallAt_le_fix i (get x i) F x
  rw [fix, set_get] at h
  exact h

/-- **`existsAt` is the left adjoint of weakening.** -/
theorem existsAt_le_iff (hG : Independent i G) : existsAt i F ≤ G ↔ F ≤ G := by
  constructor
  · exact (le_existsAt i F).trans
  · intro h
    refine sup_le ?_ ?_
    · exact (fix_mono h i true).trans ((fix_eq_self_iff true).mpr hG).le
    · exact (fix_mono h i false).trans ((fix_eq_self_iff false).mpr hG).le

/-- **`forallAt` is the right adjoint of weakening.** -/
theorem le_forallAt_iff (hG : Independent i G) : G ≤ forallAt i F ↔ G ≤ F := by
  constructor
  · exact fun h => h.trans (forallAt_le i F)
  · intro h
    refine le_inf ?_ ?_
    · exact ((fix_eq_self_iff true).mpr hG).ge.trans (fix_mono h i true)
    · exact ((fix_eq_self_iff false).mpr hG).ge.trans (fix_mono h i false)

/-- Implication holds everywhere exactly if it holds as an inequality. -/
theorem compl_sup_eq_top_iff (F G : X → Bool) : Fᶜ ⊔ G = ⊤ ↔ F ≤ G := by
  rw [sup_comm, ← himp_eq, himp_eq_top_iff]

/-- Fixing a coordinate goes into a disjunction. -/
theorem fix_sup (i : ι) (v : Bool) (F G : X → Bool) : fix i v (F ⊔ G) = fix i v F ⊔ fix i v G := rfl

/-- Fixing a coordinate goes into a conjunction. -/
theorem fix_inf (i : ι) (v : Bool) (F G : X → Bool) : fix i v (F ⊓ G) = fix i v F ⊓ fix i v G := rfl

/-- Fixing a coordinate goes into a negation. -/
theorem fix_compl (i : ι) (v : Bool) (F : X → Bool) : fix i v Fᶜ = (fix i v F)ᶜ := rfl

/-- What is quantified does not depend on the coordinate. -/
theorem independent_existsAt (i : ι) (F : X → Bool) : Independent i (existsAt i F) := by
  rw [Independent, existsAt, fix_sup, fix_sup, (independent_fix i true F).fix_eq true false,
    (independent_fix i false F).fix_eq true false]

/-- Neither does what is quantified universally. -/
theorem independent_forallAt (i : ι) (F : X → Bool) : Independent i (forallAt i F) := by
  rw [Independent, forallAt, fix_inf, fix_inf, (independent_fix i true F).fix_eq true false,
    (independent_fix i false F).fix_eq true false]

/-- The quantifiers are dual. -/
theorem existsAt_eq_compl_forallAt (i : ι) (F : X → Bool) : existsAt i F = (forallAt i Fᶜ)ᶜ := by
  rw [forallAt, fix_compl, fix_compl, ← compl_sup, compl_compl, existsAt]

/-- Existential quantifications commute. -/
theorem existsAt_comm (i j : ι) (F : X → Bool) :
    existsAt j (existsAt i F) = existsAt i (existsAt j F) := by
  rcases eq_or_ne i j with rfl | hij
  · rfl
  · simp only [existsAt, fix_sup, fix_comm hij]
    exact sup_sup_sup_comm _ _ _ _

/-- Universal quantifications commute. -/
theorem forallAt_comm (i j : ι) (F : X → Bool) :
    forallAt j (forallAt i F) = forallAt i (forallAt j F) := by
  rcases eq_or_ne i j with rfl | hij
  · rfl
  · simp only [forallAt, fix_inf, fix_comm hij]
    exact inf_inf_inf_comm _ _ _ _

end Quantifiers

end Cylinder
