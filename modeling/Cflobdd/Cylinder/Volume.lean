import Cflobdd.Cylinder.Quantifiers
import Cflobdd.FirstVisit.Enumerated

/-!
# The volume of a boolean function

On finitely many points a boolean function has a volume, the number of points at which it is
true. Volume is additive, and setting a variable is even: every point is hit as often as the
point in which the variable is flipped.
-/

namespace Cylinder

open FirstVisit Enumerated Cylinder.Valuation

variable {X : Type*} [Enumerated X]

/-- The number of points at which the function is true. -/
def volume (F : X → Bool) : ℕ := (all : List X).countP F

section Additive

variable {F G : X → Bool}

/-- Inclusion and exclusion. -/
theorem volume_sup_add_inf (F G : X → Bool) :
    volume (F ⊔ G) + volume (F ⊓ G) = volume F + volume G := by
  unfold volume
  induction (all : List X) with
  | nil => rfl
  | cons x xs ih =>
    cases hF : F x <;> cases hG : G x <;> simp [hF, hG] <;> omega

/-- Functions that are nowhere true together. -/
theorem volume_add_of_disjoint {F G H : X → Bool} (h : ∀ x, F x = true → G x = false)
    (hH : H = F ⊔ G) : volume H = volume F + volume G := by
  have hinf : F ⊓ G = ⊥ := by
    funext x
    have hx := h x
    cases hF : F x <;> simp_all
  have hbot : volume (⊥ : X → Bool) = 0 := List.countP_eq_zero.mpr fun x _ => by simp
  rw [hH, ← volume_sup_add_inf, hinf, hbot, Nat.add_zero]

/-- A function and its complement share out all inputs. -/
theorem volume_add_compl (F : X → Bool) : volume F + volume Fᶜ = (all : List X).length := by
  rw [volume, volume, List.length_eq_countP_add_countP F]
  congr 2
  funext x
  simp

/-- A function that implies another has no more inputs. -/
theorem volume_mono (h : F ≤ G) : volume F ≤ volume G :=
  List.countP_mono_left fun x _ hx => h x hx

/-- A function below another one of the same volume is this function. -/
theorem volume_eq_iff (h : F ≤ G) : volume F = volume G ↔ F = G := by
  constructor
  · intro heq
    -- The points at which only the larger function is true have no volume.
    have hsplit : volume G = volume F + volume (G ⊓ Fᶜ) := by
      refine volume_add_of_disjoint (fun x hx => by simp [hx]) ?_
      rw [← sdiff_eq, sup_sdiff_cancel_right h]
    have hzero : volume (G ⊓ Fᶜ) = 0 := by omega
    funext x
    have hx := List.countP_eq_zero.mp hzero x (mem_all x)
    have hle : F x = true → G x = true := h x
    cases hF : F x <;> cases hG : G x <;> simp_all
  · rintro rfl
    rfl

end Additive

section Variables

variable {ι : Type*} [Valuation ι X]

/-- The point with one variable flipped. -/
def flip (i : ι) (x : X) : X := set x i (!get x i)

omit [Enumerated X] in
/-- Flipping twice changes nothing. -/
theorem flip_flip (i : ι) (x : X) : flip i (flip i x) = x := by
  rw [flip, flip, get_set, Bool.not_not, set_set, set_get]

/-- Flipping a variable permutes the points. -/
theorem volume_flip (i : ι) (F : X → Bool) : (volume fun x => F (flip i x)) = volume F := by
  have hperm : ((all : List X).map (flip i)).Perm all := by
    refine (List.perm_ext_iff_of_nodup (nodup_all.map ?_) nodup_all).mpr fun x => ?_
    · exact Function.LeftInverse.injective (flip_flip i)
    · exact iff_of_true (List.mem_map.mpr ⟨flip i x, mem_all _, flip_flip i x⟩) (mem_all x)
  exact (List.countP_map ..).symm.trans (hperm.countP_eq F)

/-- The two values of a variable split the volume of a function. -/
theorem volume_fix_add_fix (i : ι) (F : X → Bool) :
    volume (fix i true F) + volume (fix i false F) = 2 * volume F := by
  have hpoint : ∀ x, (fix i true F x = F x ∧ fix i false F x = F (flip i x)) ∨
      fix i true F x = F (flip i x) ∧ fix i false F x = F x := by
    intro x
    cases hx : get x i with
    | true =>
      have hself : set x i true = x := by rw [← hx, set_get]
      exact .inl ⟨by rw [fix, hself], by rw [fix, flip, hx]; rfl⟩
    | false =>
      have hself : set x i false = x := by rw [← hx, set_get]
      exact .inr ⟨by rw [fix, flip, hx]; rfl, by rw [fix, hself]⟩
  have hflip : volume (fix i true F) + volume (fix i false F) =
      volume F + volume fun x => F (flip i x) := by
    unfold volume
    induction (all : List X) with
    | nil => rfl
    | cons x xs ih =>
      simp only [List.countP_cons]
      rcases hpoint x with ⟨h₁, h₂⟩ | ⟨h₁, h₂⟩ <;> rw [h₁, h₂] <;> omega
  rw [hflip, volume_flip, Nat.two_mul]

/-- Both quantifications share out the inputs of the two fixed functions. -/
theorem volume_exists_add_forall (i : ι) (F : X → Bool) :
    volume (existsAt i F) + volume (forallAt i F) = 2 * volume F := by
  rw [existsAt, forallAt, volume_sup_add_inf, volume_fix_add_fix]

/-- A substitution, split by the value of the function that is substituted. -/
theorem volume_subst (i : ι) (G F : X → Bool) :
    volume (subst i G F) = volume (G ⊓ fix i true F) + volume (Gᶜ ⊓ fix i false F) := by
  refine volume_add_of_disjoint (fun x hx => ?_) (funext fun x => ?_)
  · cases hG : G x <;> simp_all
  · cases hG : G x <;> simp [subst, fix, hG]

end Variables

end Cylinder
