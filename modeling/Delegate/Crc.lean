-- Cyclic redundancy checks over the field of two elements. A register of `w` bits that
-- is shifted by the bits of a message holds the remainder of the message, shifted by
-- `w` places, modulo the generator.
import Mathlib

open Polynomial

namespace crc

/-! ## Registers as polynomials -/

/-- A bit as an element of the field. -/
def bit (b : Bool) : ZMod 2 := if b then 1 else 0

@[simp] theorem bit_false : bit false = 0 := rfl

@[simp] theorem bit_true : bit true = 1 := rfl

theorem bit_xor (a b : Bool) : bit (a ^^ b) = bit a + bit b := by
  cases a
  · cases b
    · rfl
    · rfl
  · cases b
    · rfl
    · decide

section
variable {w : Nat}

/-- The polynomial whose coefficients are the bits of a register. -/
noncomputable def toPoly (c : BitVec w) : (ZMod 2)[X] :=
  ∑ i ∈ Finset.range w, C (bit (c.getLsbD i)) * X ^ i

@[simp] theorem coeff_toPoly (c : BitVec w) (i : Nat) : (toPoly c).coeff i = bit (c.getLsbD i) := by
  unfold toPoly
  simp only [finsetSum_coeff, coeff_C_mul, coeff_X_pow, mul_ite, mul_one, mul_zero]
  rw [Finset.sum_ite_eq]
  split
  · rfl
  · rename_i hi
    rw [BitVec.getLsbD_of_ge c i (by simpa using hi), bit_false]

theorem toPoly_zero : toPoly (0 : BitVec w) = 0 := by
  ext i
  simp

theorem toPoly_xor (c d : BitVec w) : toPoly (c ^^^ d) = toPoly c + toPoly d := by
  ext i
  rw [coeff_add, coeff_toPoly, coeff_toPoly, coeff_toPoly, BitVec.getLsbD_xor, bit_xor]

theorem degree_toPoly_lt (c : BitVec w) : (toPoly c).degree < w := by
  rw [degree_lt_iff_coeff_zero]
  intro i hi
  rw [coeff_toPoly, BitVec.getLsbD_of_ge c i hi, bit_false]

/-- A register that is shifted loses its highest bit. -/
theorem X_mul_toPoly (hw : 0 < w) (c : BitVec w) :
    X * toPoly c = toPoly (c <<< 1) + C (bit c.msb) * X ^ w := by
  ext i
  rw [coeff_add, coeff_toPoly, coeff_C_mul, coeff_X_pow, BitVec.getLsbD_shiftLeft,
    BitVec.msb_eq_getLsbD_last]
  cases i with
  | zero =>
    have hne : ¬0 = w := by omega
    rw [coeff_X_mul_zero, if_neg hne]
    simp
  | succ i =>
    rw [coeff_X_mul, coeff_toPoly]
    by_cases hlt : i + 1 < w
    · have hne : ¬i + 1 = w := by omega
      simp [hlt, hne]
    · by_cases heq : i + 1 = w
      · have hlast : w - 1 = i := by omega
        simp [heq, hlast]
      · have hbeyond := BitVec.getLsbD_of_ge c i (by omega)
        simp [hlt, heq, hbeyond]

/-! ## The register -/

/-- The generator, whose highest term does not stand in the register. -/
noncomputable def generator (g : BitVec w) : (ZMod 2)[X] := X ^ w + toPoly g

theorem generator_monic (g : BitVec w) : (generator g).Monic :=
  monic_X_pow_add (degree_toPoly_lt g)

theorem degree_generator (g : BitVec w) : (generator g).degree = w := by
  unfold generator
  rw [degree_add_eq_left_of_degree_lt, degree_X_pow]
  rw [degree_X_pow]
  exact degree_toPoly_lt g

/-- One bit of the message. -/
def shift (g c : BitVec w) (b : Bool) : BitVec w :=
  if c.msb ^^ b then (c <<< 1) ^^^ g else c <<< 1

theorem toPoly_shift_eq (hw : 0 < w) (g c : BitVec w) (b : Bool) :
    toPoly (shift g c b) + generator g * C (bit (c.msb ^^ b)) =
      X * toPoly c + C (bit b) * X ^ w := by
  have htwo : toPoly g + toPoly g = 0 := CharTwo.add_self_eq_zero _
  rw [X_mul_toPoly hw]
  unfold shift generator
  have hsum := bit_xor c.msb b
  cases hovf : c.msb ^^ b with
  | false =>
    rw [hovf, bit_false] at hsum
    rw [if_neg (by decide), bit_false, C_0, mul_zero, add_zero, add_assoc, ← add_mul, ← C_add,
      ← hsum, C_0, zero_mul, add_zero]
  | true =>
    rw [hovf, bit_true] at hsum
    rw [if_pos rfl, bit_true, C_1, mul_one, toPoly_xor, add_assoc (toPoly (c <<< 1)) _ (C _ * _),
      ← add_mul, ← C_add, ← hsum, C_1, one_mul]
    linear_combination htwo

/-- The register after a bit holds the remainder. -/
theorem toPoly_shift (hw : 0 < w) (g c : BitVec w) (b : Bool) :
    toPoly (shift g c b) = (X * toPoly c + C (bit b) * X ^ w) %ₘ generator g := by
  have hdiv := div_modByMonic_unique (C (bit (c.msb ^^ b))) (toPoly (shift g c b))
    (generator_monic g) ⟨toPoly_shift_eq hw g c b, by
      rw [degree_generator]
      exact degree_toPoly_lt _⟩
  exact hdiv.2.symm

/-! ## Messages -/

/-- The polynomial of the bits of a message, from the highest on. -/
noncomputable def ofBits (bs : List Bool) : (ZMod 2)[X] :=
  bs.foldl (fun p b => X * p + C (bit b)) 0

theorem ofBits_concat (bs : List Bool) (b : Bool) :
    ofBits (bs ++ [b]) = X * ofBits bs + C (bit b) := by
  unfold ofBits
  rw [List.foldl_append]
  rfl

/-- The remainder may be taken before a shift. -/
theorem X_mul_modByMonic (g : BitVec w) (p q : (ZMod 2)[X]) :
    (X * (p %ₘ generator g) + q) %ₘ generator g = (X * p + q) %ₘ generator g := by
  apply modByMonic_eq_of_dvd_sub (generator_monic g)
  refine ⟨-(X * (p /ₘ generator g)), ?_⟩
  linear_combination X * modByMonic_add_div p (generator g)

/-- The register after the bits of a message. -/
theorem toPoly_run (hw : 0 < w) (g c : BitVec w) (bs : List Bool) :
    toPoly (bs.foldl (shift g) c) =
      (X ^ bs.length * toPoly c + ofBits bs * X ^ w) %ₘ generator g := by
  induction bs using List.reverseRecOn with
  | nil =>
    have hsmall : (toPoly c).degree < (generator g).degree := by
      rw [degree_generator]
      exact degree_toPoly_lt c
    have hnone : ofBits [] = 0 := rfl
    rw [List.foldl_nil, List.length_nil, pow_zero, one_mul, hnone, zero_mul, add_zero,
      (modByMonic_eq_self_iff (generator_monic g)).mpr hsmall]
  | append_singleton bs b ih =>
    rw [List.foldl_append, List.foldl_cons, List.foldl_nil, toPoly_shift hw, ih,
      X_mul_modByMonic, ofBits_concat, List.length_append, List.length_singleton]
    congr 1
    ring

/-- The register that begins with zeros holds the remainder of the message. -/
theorem toPoly_message (hw : 0 < w) (g : BitVec w) (bs : List Bool) :
    toPoly (bs.foldl (shift g) 0) = (ofBits bs * X ^ w) %ₘ generator g := by
  rw [toPoly_run hw, toPoly_zero, mul_zero, zero_add]

end

end crc
