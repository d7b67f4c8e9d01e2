-- Numbers as lists of words, most significant word first. The digits are those of
-- Mathlib, read from the other end.
import Mathlib.Data.Nat.Digits.Lemmas
import Mathlib.Tactic.Ring
import Mathlib.Tactic.Linarith

namespace words

variable {w : Nat}

/-- The number that the words stand for. -/
def value (l : List (BitVec w)) : Nat := Nat.ofDigits (2 ^ w) (l.reverse.map BitVec.toNat)

@[simp]
theorem value_nil : value ([] : List (BitVec w)) = 0 := rfl

theorem value_append (l m : List (BitVec w)) :
    value (l ++ m) = value l * 2 ^ (w * m.length) + value m := by
  unfold value
  rw [List.reverse_append, List.map_append, Nat.ofDigits_append, List.length_map,
    List.length_reverse, ← pow_mul]
  ring

theorem value_singleton (x : BitVec w) : value [x] = x.toNat := by
  simp [value]

theorem value_cons (x : BitVec w) (l : List (BitVec w)) :
    value (x :: l) = x.toNat * 2 ^ (w * l.length) + value l := by
  rw [← List.singleton_append, value_append, value_singleton]

theorem value_concat (l : List (BitVec w)) (x : BitVec w) :
    value (l ++ [x]) = value l * 2 ^ w + x.toNat := by
  rw [value_append, value_singleton]
  simp

theorem value_lt (l : List (BitVec w)) : value l < 2 ^ (w * l.length) := by
  induction l with
  | nil => simp
  | cons x l ih =>
    rw [value_cons, List.length_cons, Nat.mul_succ, Nat.add_comm (w * l.length), pow_add]
    have hx : x.toNat + 1 ≤ 2 ^ w := x.isLt
    calc x.toNat * 2 ^ (w * l.length) + value l
        < x.toNat * 2 ^ (w * l.length) + 2 ^ (w * l.length) := by omega
      _ = (x.toNat + 1) * 2 ^ (w * l.length) := by ring
      _ ≤ 2 ^ w * 2 ^ (w * l.length) := Nat.mul_le_mul_right _ hx

@[simp]
theorem value_replicate_zero (n : Nat) : value (List.replicate n (0 : BitVec w)) = 0 := by
  induction n with
  | zero => rfl
  | succ n ih =>
    rw [List.replicate_succ, value_cons, ih]
    simp

/-- Lists of one length are told apart by their numbers. -/
theorem eq_of_value_eq {l m : List (BitVec w)} (hlen : l.length = m.length)
    (h : value l = value m) : l = m := by
  induction l generalizing m with
  | nil => exact (List.length_eq_zero_iff.mp hlen.symm).symm
  | cons x l ih =>
    cases m with
    | nil => simp at hlen
    | cons y m =>
      have hlen : l.length = m.length := by simpa using hlen
      rw [value_cons, value_cons, hlen] at h
      have hl := value_lt l
      have hm := value_lt m
      rw [hlen] at hl
      have hpos : 0 < 2 ^ (w * m.length) := Nat.two_pow_pos _
      have hx : x.toNat = y.toNat := by
        have hdx := Nat.div_eq_of_lt hl
        have hdy := Nat.div_eq_of_lt hm
        have hq : (value l + x.toNat * 2 ^ (w * m.length)) / 2 ^ (w * m.length) =
            (value m + y.toNat * 2 ^ (w * m.length)) / 2 ^ (w * m.length) := by
          rw [Nat.add_comm, h, Nat.add_comm]
        rwa [Nat.add_mul_div_right _ _ hpos, Nat.add_mul_div_right _ _ hpos, hdx, hdy, Nat.zero_add,
          Nat.zero_add] at hq
      rw [hx] at h
      rw [BitVec.eq_of_toNat_eq hx, ih hlen (Nat.add_left_cancel h)]

theorem value_drop (l : List (BitVec w)) (k : Nat) :
    value (l.drop k) = value l % 2 ^ (w * (l.length - k)) := by
  have hsplit : value l = value (l.take k) * 2 ^ (w * (l.length - k)) + value (l.drop k) := by
    rw [← List.length_drop, ← value_append, List.take_append_drop]
  have hlt : value (l.drop k) < 2 ^ (w * (l.length - k)) := by
    rw [← List.length_drop]
    exact value_lt _
  rw [hsplit, Nat.add_comm, Nat.add_mul_mod_self_right, Nat.mod_eq_of_lt hlt]

/-- Leading zeros do not count. -/
theorem value_dropWhile_zero (l : List (BitVec w)) :
    value (l.dropWhile (· == 0)) = value l := by
  induction l with
  | nil => rfl
  | cons x l ih =>
    rw [List.dropWhile_cons]
    by_cases hx : x = 0
    · rw [if_pos (by simp [hx]), ih, value_cons, hx]
      simp
    · rw [if_neg (by simpa using hx)]

end words
