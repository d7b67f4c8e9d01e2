-- Signed numbers of a fixed width. A sum or a product that does not fit is
-- reported and wrapped, and a number that is held at the ends of the range
-- instead stays there under further products.
import Mathlib

namespace signed

/-- The least number of `w` bits. -/
def least (w : Nat) : Int := -2 ^ (w - 1)

/-- The greatest number of `w` bits. -/
def greatest (w : Nat) : Int := 2 ^ (w - 1) - 1

def Fits (w : Nat) (x : Int) : Prop := least w ≤ x ∧ x ≤ greatest w

instance (w : Nat) (x : Int) : Decidable (Fits w x) :=
  inferInstanceAs (Decidable (_ ∧ _))

def wrap (w : Nat) (x : Int) : Int := x.bmod (2 ^ w)

/-- A result with the report of its overflow. -/
def checked (w : Nat) (x : Int) : Bool × Int := (!decide (Fits w x), wrap w x)

def mulOverflow (w : Nat) (a b : Int) : Bool × Int := checked w (a * b)

def addOverflow (w : Nat) (a b : Int) : Bool × Int := checked w (a + b)

/-- The number of the range that is nearest to `x`. -/
def clamp (w : Nat) (x : Int) : Int := max (least w) (min x (greatest w))

variable {w : Nat} {x u : Int}

theorem least_neg (w : Nat) : least w < 0 := by
  have hpos : (0 : Int) < 2 ^ (w - 1) := by positivity
  unfold least
  omega

theorem greatest_nonneg (w : Nat) : 0 ≤ greatest w := by
  have hpos : (0 : Int) < 2 ^ (w - 1) := by positivity
  unfold greatest
  omega

theorem wrap_of_fits (hw : 0 < w) (h : Fits w x) : wrap w x = x := by
  obtain ⟨k, rfl⟩ : ∃ k, w = k + 1 := ⟨w - 1, by omega⟩
  obtain ⟨hlow, hhigh⟩ := h
  unfold least at hlow
  unfold greatest at hhigh
  rw [Nat.add_sub_cancel] at hlow hhigh
  unfold wrap
  apply Int.bmod_eq_of_le
  · rw [pow_succ]
    push_cast
    omega
  · rw [pow_succ]
    push_cast
    omega

theorem checked_of_fits (hw : 0 < w) (h : Fits w x) : checked w x = (false, x) := by
  unfold checked
  rw [decide_eq_true h, wrap_of_fits hw h]
  rfl

theorem checked_of_not_fits (h : ¬Fits w x) : (checked w x).1 = true := by
  unfold checked
  rw [decide_eq_false h]
  rfl

theorem clamp_of_fits (h : Fits w x) : clamp w x = x := by
  obtain ⟨hl, hg⟩ := h
  unfold clamp
  omega

theorem clamp_of_gt (h : greatest w < x) : clamp w x = greatest w := by
  have hl := least_neg w
  have hg := greatest_nonneg w
  unfold clamp
  omega

theorem clamp_of_lt (h : x < least w) : clamp w x = least w := by
  have hl := least_neg w
  have hg := greatest_nonneg w
  unfold clamp
  omega

/-- A number that was held at an end before the product is held there after it. -/
theorem clamp_clamp_mul (hu : 1 ≤ u) : clamp w (clamp w x * u) = clamp w (x * u) := by
  by_cases h : Fits w x
  · rw [clamp_of_fits h]
  · by_cases hx : x < least w
    · have hneg := least_neg w
      have hmul : x * u ≤ least w * u := Int.mul_le_mul_of_nonneg_right hx.le (by omega)
      have hend : least w * u ≤ least w := by nlinarith
      rw [clamp_of_lt hx]
      unfold clamp
      omega
    · have hx : greatest w < x := by
        unfold Fits at h
        omega
      have hpos := greatest_nonneg w
      have hmul : greatest w * u ≤ x * u := Int.mul_le_mul_of_nonneg_right hx.le (by omega)
      have hend : greatest w ≤ greatest w * u := by nlinarith
      rw [clamp_of_gt hx]
      unfold clamp
      omega

/-- A number that fits, or else the end of the range on the side of its sign. -/
theorem fits_or_end (w : Nat) {neg : Bool} (hsign : if neg then x ≤ 0 else 0 ≤ x) :
    (if Fits w x then x else if neg then least w else greatest w) = clamp w x := by
  have hl := least_neg w
  have hg := greatest_nonneg w
  by_cases h : Fits w x
  · rw [if_pos h, clamp_of_fits h]
  · rw [if_neg h]
    unfold Fits at h
    cases neg with
    | true =>
      rw [if_pos rfl] at hsign ⊢
      rw [clamp_of_lt (by omega)]
    | false =>
      rw [if_neg (by decide)] at hsign ⊢
      rw [clamp_of_gt (by omega)]

/-- A product that fits, or else the end of the range on the side of its sign, is the product
held in the range. -/
theorem checked_or_end (hw : 0 < w) {neg : Bool} (hsign : if neg then x ≤ 0 else 0 ≤ x) :
    (if (checked w x).1 then (if neg then least w else greatest w) else (checked w x).2) =
      clamp w x := by
  rw [← fits_or_end w hsign]
  by_cases h : Fits w x
  · rw [checked_of_fits hw h, if_pos h]
    rfl
  · rw [checked_of_not_fits h, if_pos rfl, if_neg h]

end signed
