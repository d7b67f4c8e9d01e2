-- The numbers of credhy.cpp: intArray holds 64 words of 32 bits, the most
-- significant one first. Each operation is what it should be on the numbers, as
-- long as nothing is too large.
import Delegate.Words

open words

namespace delegate.credhy

abbrev Word := BitVec 32

abbrev IntArray := List Word

def IWIDTH : Nat := 64

/-! ## Comparing and subtracting -/

/-- `cmp32`. -/
def cmp32 : IntArray → IntArray → Int
  | x :: xs, y :: ys => if y < x then 1 else if x < y then -1 else cmp32 xs ys
  | _, _ => 0

/-- One turn of the loop of `sub32`: the word and the next carry. -/
def subWord (x y carry : Word) : Word × Word :=
  if x = 0 ∧ y = 0 ∧ carry = 0 then (0, carry)
  else
    let womsb := (x &&& 0x7FFFFFFF) - (y &&& 0x7FFFFFFF) - carry
    let womsb : Int := if womsb &&& 0x80000000 ≠ 0 then 1 else 0
    let ncarry := if ((x >>> 31).toNat : Int) - (y >>> 31).toNat - womsb < 0 then 1 else 0
    (x - y - carry, ncarry)

/-- The loop of `sub32`, from the last word to the first. -/
def subLoop : IntArray → IntArray → IntArray × Word
  | x :: xs, y :: ys =>
      let (zs, carry) := subLoop xs ys
      let (z, ncarry) := subWord x y carry
      (z :: zs, ncarry)
  | _, _ => ([], 0)

/-- `sub32`. -/
def sub32 (X Y : IntArray) : IntArray := (subLoop X Y).1

theorem cmp32_spec (X Y : IntArray) (hlen : X.length = Y.length) :
    (cmp32 X Y < 0 ↔ value X < value Y) ∧ (0 ≤ cmp32 X Y ↔ value Y ≤ value X) ∧
      (cmp32 X Y ≤ 0 ↔ value X ≤ value Y) := by
  induction X generalizing Y with
  | nil =>
    have hY := List.length_eq_zero_iff.mp hlen.symm
    subst hY
    simp [cmp32]
  | cons x X ih =>
    cases Y with
    | nil => simp at hlen
    | cons y Y =>
      have hlen : X.length = Y.length := by simpa using hlen
      have hX := value_lt X
      have hY := value_lt Y
      rw [value_cons, value_cons, hlen]
      rw [hlen] at hX
      unfold cmp32
      generalize 2 ^ (32 * Y.length) = B at *
      by_cases hyx : y < x
      · rw [if_pos hyx]
        have hmul : (y.toNat + 1) * B ≤ x.toNat * B := Nat.mul_le_mul_right _ hyx
        have : (y.toNat + 1) * B = y.toNat * B + B := by ring
        refine ⟨⟨fun h => ?_, fun h => ?_⟩, ⟨fun h => ?_, fun h => ?_⟩, ⟨fun h => ?_, fun h => ?_⟩⟩ <;>
          omega
      · rw [if_neg hyx]
        by_cases hxy : x < y
        · rw [if_pos hxy]
          have hmul : (x.toNat + 1) * B ≤ y.toNat * B := Nat.mul_le_mul_right _ hxy
          have : (x.toNat + 1) * B = x.toNat * B + B := by ring
          refine ⟨⟨fun h => ?_, fun h => ?_⟩, ⟨fun h => ?_, fun h => ?_⟩, ⟨fun h => ?_, fun h => ?_⟩⟩ <;>
            omega
        · rw [if_neg hxy]
          have hx : x = y := BitVec.le_antisymm (BitVec.not_lt.mp hyx) (BitVec.not_lt.mp hxy)
          rw [hx]
          have := ih Y hlen
          omega

theorem toNat_and_low (x : Word) : (x &&& 0x7FFFFFFF).toNat = x.toNat % 2 ^ 31 := by
  rw [BitVec.toNat_and]
  exact Nat.and_two_pow_sub_one_eq_mod x.toNat 31

theorem and_high_ne (x : Word) : x &&& 0x80000000 ≠ 0 ↔ 2 ^ 31 ≤ x.toNat := by
  have htop : (0x80000000 : Word) = BitVec.twoPow 32 31 := by decide
  rw [htop, BitVec.and_twoPow]
  have hmsb : x.getLsbD 31 = decide (2 ^ 31 ≤ x.toNat) := by
    have hx := BitVec.msb_eq_decide x
    rwa [BitVec.msb_eq_getLsbD_last] at hx
  rw [hmsb]
  by_cases h : 2 ^ 31 ≤ x.toNat
  · rw [if_pos (decide_eq_true h)]
    exact ⟨fun _ => h, fun _ => by decide⟩
  · rw [if_neg (by simpa using h)]
    exact ⟨fun hne => absurd rfl hne, fun hle => absurd hle h⟩

theorem subWord_spec (x y carry : Word) (hc : carry.toNat ≤ 1) :
    x.toNat + (subWord x y carry).2.toNat * 2 ^ 32 =
        (subWord x y carry).1.toNat + y.toNat + carry.toNat ∧
      (subWord x y carry).2.toNat ≤ 1 := by
  unfold subWord
  split
  · rename_i h
    obtain ⟨hx, hy, hcarry⟩ := h
    simp [hx, hy, hcarry]
  · dsimp only
    have hx := x.isLt
    have hy := y.isLt
    have hsub : (x - y - carry).toNat = (x.toNat + 2 ^ 32 - y.toNat + 2 ^ 32 - carry.toNat) % 2 ^ 32 := by
      rw [BitVec.toNat_sub, BitVec.toNat_sub]
      omega
    have hwomsb : ((x &&& 0x7FFFFFFF) - (y &&& 0x7FFFFFFF) - carry).toNat =
        (x.toNat % 2 ^ 31 + 2 ^ 32 - y.toNat % 2 ^ 31 + 2 ^ 32 - carry.toNat) % 2 ^ 32 := by
      rw [BitVec.toNat_sub, BitVec.toNat_sub, toNat_and_low, toNat_and_low]
      omega
    rw [hsub]
    simp only [and_high_ne, hwomsb, BitVec.toNat_ushiftRight, Nat.shiftRight_eq_div_pow]
    split <;> split <;> simp <;> omega

theorem subLoop_spec (X Y : IntArray) (hlen : X.length = Y.length) :
    value X + (subLoop X Y).2.toNat * 2 ^ (32 * X.length) = value (subLoop X Y).1 + value Y ∧
      (subLoop X Y).2.toNat ≤ 1 ∧ (subLoop X Y).1.length = X.length := by
  induction X generalizing Y with
  | nil =>
    have hY := List.length_eq_zero_iff.mp hlen.symm
    subst hY
    simp [subLoop]
  | cons x X ih =>
    cases Y with
    | nil => simp at hlen
    | cons y Y =>
      have hlen : X.length = Y.length := by simpa using hlen
      obtain ⟨hval, hcarry, hlenZ⟩ := ih Y hlen
      obtain ⟨hword, hnext⟩ := subWord_spec x y (subLoop X Y).2 hcarry
      unfold subLoop
      dsimp only
      refine ⟨?_, hnext, ?_⟩
      · rw [value_cons, value_cons, value_cons, hlenZ, List.length_cons, hlen, Nat.mul_succ, pow_add]
        rw [hlen] at hval
        generalize 2 ^ (32 * Y.length) = B at *
        generalize 2 ^ 32 = C at *
        generalize (subWord x y (subLoop X Y).2).1.toNat = z at *
        generalize (subWord x y (subLoop X Y).2).2.toNat = n at *
        calc x.toNat * B + value X + n * (B * C)
            = (x.toNat + n * C) * B + value X := by ring
          _ = (z + y.toNat + (subLoop X Y).2.toNat) * B + value X := by rw [hword]
          _ = (z + y.toNat) * B + (value X + (subLoop X Y).2.toNat * B) := by ring
          _ = (z + y.toNat) * B + (value (subLoop X Y).1 + value Y) := by rw [hval]
          _ = z * B + value (subLoop X Y).1 + (y.toNat * B + value Y) := by ring
      · rw [List.length_cons, hlenZ, List.length_cons]

theorem length_sub32 {X Y : IntArray} (hlen : X.length = Y.length) :
    (sub32 X Y).length = X.length :=
  (subLoop_spec X Y hlen).2.2

theorem value_sub32 {X Y : IntArray} (hlen : X.length = Y.length) (hle : value Y ≤ value X) :
    value (sub32 X Y) = value X - value Y := by
  obtain ⟨hval, hcarry, hlenZ⟩ := subLoop_spec X Y hlen
  have hZ := value_lt (subLoop X Y).1
  rw [hlenZ] at hZ
  have hzero : (subLoop X Y).2.toNat = 0 := by
    by_contra hne
    have hone : (subLoop X Y).2.toNat = 1 := by omega
    rw [hone] at hval
    omega
  rw [hzero] at hval
  unfold sub32
  omega

/-! ## Shifting -/

/-- The loop of `shiftR32`, after the word `prev`. -/
def shiftRLoop (l : Nat) (prev : Word) : IntArray → IntArray
  | [] => []
  | z :: zs => ((z >>> l) ||| (prev <<< (32 - l))) :: shiftRLoop l z zs

/-- `shiftR32`. -/
def shiftR32 (Z : IntArray) (l : Nat) : IntArray :=
  match Z with
  | [] => []
  | z :: zs => (z >>> l) :: shiftRLoop l z zs

/-- The shift by less than a word in `shiftL32N`. -/
def shiftLLoop (l : Nat) : IntArray → IntArray
  | [] => []
  | [z] => [z <<< l]
  | z :: z' :: zs => ((z <<< l) ||| (z' >>> (32 - l))) :: shiftLLoop l (z' :: zs)

/-- `shiftL32N`. -/
def shiftL32N (X : IntArray) (s : Nat) : IntArray :=
  let k := s / 32
  let l := s % 32
  let Z := X.drop k ++ List.replicate (IWIDTH - (X.drop k).length) 0
  if 0 < l then shiftLLoop l Z else Z

theorem toNat_shiftR_or (z prev : Word) {l : Nat} (hl : l ≤ 32) :
    ((z >>> l) ||| (prev <<< (32 - l))).toNat =
      z.toNat / 2 ^ l + prev.toNat % 2 ^ l * 2 ^ (32 - l) := by
  have hpow : 2 ^ 32 = 2 ^ l * 2 ^ (32 - l) := by
    rw [← pow_add]
    congr 1
    omega
  have hz : z.toNat / 2 ^ l < 2 ^ (32 - l) := by
    apply Nat.div_lt_of_lt_mul
    rw [← hpow]
    exact z.isLt
  rw [BitVec.toNat_or, BitVec.toNat_ushiftRight, BitVec.toNat_shiftLeft, Nat.shiftRight_eq_div_pow,
    Nat.shiftLeft_eq, hpow, Nat.mul_mod_mul_right, ← Nat.shiftLeft_eq, Nat.or_comm,
    ← Nat.shiftLeft_add_eq_or_of_lt hz, Nat.add_comm]

theorem length_shiftRLoop (l : Nat) (prev : Word) (Z : IntArray) :
    (shiftRLoop l prev Z).length = Z.length := by
  induction Z generalizing prev with
  | nil => rfl
  | cons z Z ih => simp [shiftRLoop, ih]

theorem length_shiftR32 (Z : IntArray) (l : Nat) : (shiftR32 Z l).length = Z.length := by
  cases Z with
  | nil => rfl
  | cons z Z => simp [shiftR32, length_shiftRLoop]

theorem value_shiftRLoop {l : Nat} (hl : l ≤ 32) (prev : Word) (Z : IntArray) :
    value (shiftRLoop l prev Z) =
      (prev.toNat % 2 ^ l * 2 ^ (32 * Z.length) + value Z) / 2 ^ l := by
  induction Z generalizing prev with
  | nil =>
    have hlt : prev.toNat % 2 ^ l < 2 ^ l := Nat.mod_lt _ (Nat.two_pow_pos l)
    simp [shiftRLoop, Nat.div_eq_of_lt hlt]
  | cons z Z ih =>
    unfold shiftRLoop
    rw [value_cons, value_cons, ih, toNat_shiftR_or z prev hl, length_shiftRLoop, List.length_cons,
      Nat.mul_succ, pow_add]
    have hpow : 2 ^ 32 = 2 ^ l * 2 ^ (32 - l) := by
      rw [← pow_add]
      congr 1
      omega
    have hz := Nat.div_add_mod z.toNat (2 ^ l)
    rw [hpow]
    generalize 2 ^ (32 * Z.length) = B
    generalize 2 ^ (32 - l) = C
    have hpos : 0 < 2 ^ l := Nat.two_pow_pos l
    generalize prev.toNat % 2 ^ l = p
    generalize z.toNat % 2 ^ l = r at *
    generalize z.toNat / 2 ^ l = q at *
    generalize 2 ^ l = L at *
    have hnum : p * (B * (L * C)) + (z.toNat * B + value Z) =
        L * ((q + p * C) * B) + (r * B + value Z) := by
      rw [← hz]
      ring
    rw [hnum, Nat.mul_add_div hpos]

/-- Shifting to the right divides. -/
theorem value_shiftR32 {l : Nat} (hl : l ≤ 32) (Z : IntArray) :
    value (shiftR32 Z l) = value Z / 2 ^ l := by
  have hzero : shiftR32 Z l = shiftRLoop l 0 Z := by
    cases Z with
    | nil => rfl
    | cons z Z => simp [shiftR32, shiftRLoop]
  rw [hzero, value_shiftRLoop hl]
  simp

theorem length_shiftLLoop (l : Nat) (Z : IntArray) : (shiftLLoop l Z).length = Z.length := by
  induction Z with
  | nil => rfl
  | cons z Z ih =>
    cases Z with
    | nil => rfl
    | cons z' Z => simp [shiftLLoop, ih]

theorem toNat_shiftL (z : Word) {l : Nat} (hl : l ≤ 32) :
    (z <<< l).toNat + z.toNat / 2 ^ (32 - l) * 2 ^ 32 = z.toNat * 2 ^ l := by
  have hpow : 2 ^ 32 = 2 ^ (32 - l) * 2 ^ l := by
    rw [← pow_add]
    congr 1
    omega
  rw [BitVec.toNat_shiftLeft, Nat.shiftLeft_eq, hpow, Nat.mul_mod_mul_right, ← Nat.mul_assoc,
    ← Nat.add_mul, Nat.mul_comm (z.toNat / _), Nat.mod_add_div]

theorem toNat_shiftL_or (z z' : Word) {l : Nat} (hl : l ≤ 32) :
    ((z <<< l) ||| (z' >>> (32 - l))).toNat = (z <<< l).toNat + z'.toNat / 2 ^ (32 - l) := by
  have hpow : 2 ^ 32 = 2 ^ (32 - l) * 2 ^ l := by
    rw [← pow_add]
    congr 1
    omega
  have hz : z'.toNat / 2 ^ (32 - l) < 2 ^ l := by
    apply Nat.div_lt_of_lt_mul
    rw [← hpow]
    exact z'.isLt
  rw [BitVec.toNat_or, BitVec.toNat_ushiftRight, BitVec.toNat_shiftLeft, Nat.shiftRight_eq_div_pow,
    Nat.shiftLeft_eq, hpow, Nat.mul_mod_mul_right, ← Nat.shiftLeft_eq,
    ← Nat.shiftLeft_add_eq_or_of_lt hz]

/-- What the shift to the left loses is at the top of the first word. -/
theorem value_shiftLLoop {l : Nat} (hl : l ≤ 32) (z : Word) (Z : IntArray) :
    value (shiftLLoop l (z :: Z)) + z.toNat / 2 ^ (32 - l) * 2 ^ (32 * (Z.length + 1)) =
      value (z :: Z) * 2 ^ l := by
  induction Z generalizing z with
  | nil =>
    unfold shiftLLoop
    rw [value_singleton, value_singleton, List.length_nil, Nat.zero_add, Nat.mul_one,
      toNat_shiftL z hl]
  | cons z' Z ih =>
    unfold shiftLLoop
    have hz := toNat_shiftL z hl
    have hrest := ih z'
    rw [value_cons, value_cons z, toNat_shiftL_or z z' hl, length_shiftLLoop, List.length_cons,
      Nat.mul_succ 32 (Z.length + 1), pow_add]
    generalize 2 ^ (32 * (Z.length + 1)) = B at *
    generalize 2 ^ 32 = C at *
    generalize (z <<< l).toNat = s at *
    generalize z'.toNat / 2 ^ (32 - l) = t at *
    generalize z.toNat / 2 ^ (32 - l) = u at *
    calc (s + t) * B + value (shiftLLoop l (z' :: Z)) + u * (B * C)
        = (s + u * C) * B + (value (shiftLLoop l (z' :: Z)) + t * B) := by ring
      _ = z.toNat * 2 ^ l * B + value (z' :: Z) * 2 ^ l := by rw [hz, hrest]
      _ = (z.toNat * B + value (z' :: Z)) * 2 ^ l := by ring

theorem value_shiftLLoop_of_lt {l : Nat} (hl : l ≤ 32) (Z : IntArray)
    (hlt : value Z * 2 ^ l < 2 ^ (32 * Z.length)) : value (shiftLLoop l Z) = value Z * 2 ^ l := by
  cases Z with
  | nil => simp [shiftLLoop]
  | cons z Z =>
    have hval := value_shiftLLoop hl z Z
    rw [List.length_cons] at hlt
    generalize 2 ^ (32 * (Z.length + 1)) = B at *
    have hzero : z.toNat / 2 ^ (32 - l) = 0 := by
      by_contra hne
      have hle : B ≤ z.toNat / 2 ^ (32 - l) * B := Nat.le_mul_of_pos_left B (Nat.pos_of_ne_zero hne)
      omega
    rw [hzero] at hval
    omega

theorem length_shiftL32N {X : IntArray} (hlen : X.length = IWIDTH) (s : Nat) :
    (shiftL32N X s).length = IWIDTH := by
  have hbody : (X.drop (s / 32) ++ List.replicate (IWIDTH - (X.drop (s / 32)).length) 0).length =
      IWIDTH := by
    simp only [List.length_append, List.length_drop, List.length_replicate, hlen]
    omega
  unfold shiftL32N
  dsimp only
  split
  · rw [length_shiftLLoop, hbody]
  · exact hbody

/-- Shifting to the left multiplies, if there is room. -/
theorem value_shiftL32N {X : IntArray} (hlen : X.length = IWIDTH) {s : Nat} (hs : s ≤ 32 * IWIDTH)
    (hlt : value X * 2 ^ s < 2 ^ (32 * IWIDTH)) : value (shiftL32N X s) = value X * 2 ^ s := by
  have hsplit : 2 ^ s = 2 ^ (32 * (s / 32)) * 2 ^ (s % 32) := by
    rw [← pow_add, Nat.div_add_mod]
  have hk : s / 32 ≤ IWIDTH := by omega
  have hroom : IWIDTH - (X.drop (s / 32)).length = s / 32 := by
    rw [List.length_drop, hlen]
    omega
  have hpow : 2 ^ (32 * IWIDTH) = 2 ^ (32 * (IWIDTH - s / 32)) * 2 ^ (32 * (s / 32)) := by
    rw [← pow_add, ← Nat.mul_add]
    congr 2
    omega
  have hword : value X * 2 ^ (32 * (s / 32)) < 2 ^ (32 * IWIDTH) := by
    refine lt_of_le_of_lt ?_ hlt
    rw [hsplit, ← Nat.mul_assoc]
    exact Nat.le_mul_of_pos_right _ (Nat.two_pow_pos _)
  have hsmall : value X < 2 ^ (32 * (IWIDTH - s / 32)) := by
    rw [hpow] at hword
    exact Nat.lt_of_mul_lt_mul_right hword
  have hbody : value (X.drop (s / 32) ++ List.replicate (s / 32) 0) =
      value X * 2 ^ (32 * (s / 32)) := by
    rw [value_append, value_replicate_zero, value_drop, hlen, Nat.mod_eq_of_lt hsmall,
      List.length_replicate, Nat.add_zero]
  unfold shiftL32N
  dsimp only
  rw [hroom]
  split
  · rw [value_shiftLLoop_of_lt (by omega), hbody, hsplit, Nat.mul_assoc]
    rw [hbody, Nat.mul_assoc, ← hsplit, List.length_append, List.length_drop, List.length_replicate,
      hlen, Nat.sub_add_cancel hk]
    exact hlt
  · have hzero : s % 32 = 0 := by omega
    rw [hbody, hsplit, hzero, pow_zero, Nat.mul_one]

/-! ## The remainder -/

/-- The inner loop of `zerobits`: the first bit of the word that is set. -/
def maskLoop (x mask : Word) (l : Nat) : Nat → Option Nat
  | 0 => none
  | n + 1 => if mask &&& x ≠ 0 then some l else maskLoop x (mask >>> 1) (l + 1) n

/-- The loop of `zerobits`, from the word `k`. -/
def zerobitsLoop (k : Nat) : IntArray → Nat
  | [] => k * 32
  | x :: xs =>
      if x = 0 then zerobitsLoop (k + 1) xs
      else
        match maskLoop x 0x80000000 0 32 with
        | some l => k * 32 + l
        | none => zerobitsLoop (k + 1) xs

/-- `zerobits`. -/
def zerobits (X : IntArray) : Nat := zerobitsLoop 0 X

/-- The loop of `mod32`. -/
def modLoop : Nat → IntArray → IntArray → IntArray
  | 0, Z, _ => Z
  | s + 1, Z, M => modLoop s (if 0 ≤ cmp32 Z M then sub32 Z M else Z) (shiftR32 M 1)

/-- `mod32`. -/
def mod32 (X Y : IntArray) : IntArray :=
  let sX := zerobits X
  let sY := zerobits Y
  if sY ≤ sX then
    if cmp32 X Y < 0 then X else sub32 X Y
  else
    let sM := sY - sX
    modLoop (sM + 1) X (shiftL32N Y sM)

theorem and_twoPow_ne (x : Word) {i : Nat} (hi : i < 32) :
    BitVec.twoPow 32 i &&& x ≠ 0 ↔ x.toNat.testBit i = true := by
  rw [BitVec.and_comm, BitVec.and_twoPow, ← BitVec.testBit_toNat]
  have hne : BitVec.twoPow 32 i ≠ 0 := by
    intro h
    have hnat := congrArg BitVec.toNat h
    rw [BitVec.toNat_twoPow, Nat.mod_eq_of_lt (Nat.pow_lt_pow_right (by decide) hi)] at hnat
    exact absurd hnat (Nat.two_pow_pos i).ne'
  cases x.toNat.testBit i with
  | true => simpa using hne
  | false => simp

theorem maskLoop_spec (x : Word) (hx : x ≠ 0) (n l : Nat) (hl : l + n = 32)
    (hlt : x.toNat < 2 ^ n) :
    ∃ r, maskLoop x (BitVec.twoPow 32 (n - 1)) l n = some r ∧ r < 32 ∧
      2 ^ (31 - r) ≤ x.toNat ∧ x.toNat < 2 ^ (32 - r) := by
  induction n generalizing l with
  | zero =>
    exfalso
    apply hx
    apply BitVec.eq_of_toNat_eq
    simpa using hlt
  | succ n ih =>
    unfold maskLoop
    rw [Nat.add_sub_cancel]
    have hlow : 32 - l = n + 1 := by omega
    have htop : 31 - l = n := by omega
    by_cases hbit : x.toNat.testBit n = true
    · rw [if_pos ((and_twoPow_ne x (by omega)).mpr hbit)]
      refine ⟨l, rfl, by omega, ?_, ?_⟩
      · rw [htop]
        exact Nat.ge_two_pow_of_testBit hbit
      · rw [hlow]
        exact hlt
    · rw [if_neg (fun h => hbit ((and_twoPow_ne x (by omega)).mp h))]
      have hsmall : x.toNat < 2 ^ n := by
        apply Nat.lt_pow_two_of_testBit
        intro i hi
        by_cases heq : i = n
        · rw [heq]
          simpa using hbit
        · apply Nat.testBit_lt_two_pow
          exact lt_of_lt_of_le hlt (Nat.pow_le_pow_right (by decide) (by omega))
      have hnext : BitVec.twoPow 32 n >>> 1 = BitVec.twoPow 32 (n - 1) ∨ n = 0 := by
        rcases Nat.eq_zero_or_pos n with hzero | hpos
        · exact .inr hzero
        · refine .inl ?_
          apply BitVec.eq_of_toNat_eq
          rw [BitVec.toNat_ushiftRight, BitVec.toNat_twoPow, BitVec.toNat_twoPow,
            Nat.mod_eq_of_lt (Nat.pow_lt_pow_right (by decide) (by omega)),
            Nat.mod_eq_of_lt (Nat.pow_lt_pow_right (by decide) (by omega)),
            Nat.shiftRight_eq_div_pow, Nat.pow_div hpos (by decide)]
      rcases hnext with hnext | hzero
      · rw [hnext]
        exact ih (l + 1) (by omega) hsmall
      · subst hzero
        exfalso
        apply hx
        apply BitVec.eq_of_toNat_eq
        simpa using hsmall

theorem zerobitsLoop_spec (k : Nat) (X : IntArray) :
    ∃ z, zerobitsLoop k X = k * 32 + z ∧ z ≤ 32 * X.length ∧ value X < 2 ^ (32 * X.length - z) ∧
      (z < 32 * X.length → 2 ^ (32 * X.length - z - 1) ≤ value X) := by
  induction X generalizing k with
  | nil => exact ⟨0, rfl, by simp, by simp, by simp⟩
  | cons x X ih =>
    unfold zerobitsLoop
    rw [List.length_cons, value_cons]
    by_cases hx : x = 0
    · rw [if_pos hx, hx]
      obtain ⟨z, hz, hle, hlt, hge⟩ := ih (k + 1)
      have hzero : (0 : Word).toNat * 2 ^ (32 * X.length) + value X = value X := by simp
      rw [hzero]
      have hdiff : 32 * (X.length + 1) - (z + 32) = 32 * X.length - z := by omega
      refine ⟨z + 32, by rw [hz]; omega, by omega, ?_, ?_⟩
      · rw [hdiff]
        exact hlt
      · rw [hdiff]
        exact fun h => hge (by omega)
    · rw [if_neg hx]
      obtain ⟨r, hr, hrlt, hge, hlt⟩ := maskLoop_spec x hx 32 0 rfl x.isLt
      have hmask : (0x80000000 : Word) = BitVec.twoPow 32 (32 - 1) := by decide
      rw [hmask, hr]
      dsimp only
      have hX := value_lt X
      refine ⟨r, rfl, by omega, ?_, fun _ => ?_⟩
      · have hpow : 2 ^ (32 * (X.length + 1) - r) = 2 ^ (32 - r) * 2 ^ (32 * X.length) := by
          rw [← pow_add]
          congr 1
          omega
        rw [hpow]
        have hmul : (x.toNat + 1) * 2 ^ (32 * X.length) ≤ 2 ^ (32 - r) * 2 ^ (32 * X.length) :=
          Nat.mul_le_mul_right _ hlt
        have : (x.toNat + 1) * 2 ^ (32 * X.length) =
            x.toNat * 2 ^ (32 * X.length) + 2 ^ (32 * X.length) := by ring
        omega
      · have hpow : 2 ^ (32 * (X.length + 1) - r - 1) = 2 ^ (31 - r) * 2 ^ (32 * X.length) := by
          rw [← pow_add]
          congr 1
          omega
        rw [hpow]
        have hmul : 2 ^ (31 - r) * 2 ^ (32 * X.length) ≤ x.toNat * 2 ^ (32 * X.length) :=
          Nat.mul_le_mul_right _ hge
        omega

theorem zerobits_spec {X : IntArray} (hlen : X.length = IWIDTH) :
    zerobits X ≤ 32 * IWIDTH ∧ value X < 2 ^ (32 * IWIDTH - zerobits X) ∧
      (zerobits X < 32 * IWIDTH → 2 ^ (32 * IWIDTH - zerobits X - 1) ≤ value X) := by
  obtain ⟨z, hz, hle, hlt, hge⟩ := zerobitsLoop_spec 0 X
  rw [hlen] at hle hlt hge
  unfold zerobits
  rw [hz, Nat.zero_mul, Nat.zero_add]
  exact ⟨hle, hlt, hge⟩

/-- The turns of the loop of `mod32`, where `M` is `y` shifted by one bit less in each. -/
theorem modLoop_spec (s : Nat) (Z M : IntArray) (y : Nat) (hlen : Z.length = M.length)
    (hM : value M = y * 2 ^ s) (hZ : value Z < 2 * value M) :
    value (modLoop (s + 1) Z M) = value Z % y ∧ (modLoop (s + 1) Z M).length = Z.length := by
  induction s generalizing Z M with
  | zero =>
    rw [pow_zero, Nat.mul_one] at hM
    rw [hM] at hZ
    unfold modLoop modLoop
    obtain ⟨-, hge, -⟩ := cmp32_spec Z M hlen
    split
    · rename_i hcmp
      have hle := hge.mp hcmp
      rw [value_sub32 hlen hle, hM, length_sub32 hlen]
      rw [hM] at hle
      rw [Nat.mod_eq_sub_mod hle, Nat.mod_eq_of_lt (by omega)]
      exact ⟨rfl, rfl⟩
    · rename_i hcmp
      have hlt := Nat.lt_of_not_le fun hle => hcmp (hge.mpr hle)
      rw [hM] at hlt
      exact ⟨(Nat.mod_eq_of_lt hlt).symm, rfl⟩
  | succ s ih =>
    unfold modLoop
    have hhalf : value (shiftR32 M 1) = y * 2 ^ s := by
      rw [value_shiftR32 (by decide), hM, pow_succ, ← Nat.mul_assoc, pow_one,
        Nat.mul_div_cancel _ (by decide)]
    have hdouble : value M = 2 * value (shiftR32 M 1) := by
      rw [hhalf, hM, pow_succ]
      ring
    obtain ⟨-, hge, -⟩ := cmp32_spec Z M hlen
    split
    · rename_i hcmp
      have hle := hge.mp hcmp
      have hsub := value_sub32 hlen hle
      obtain ⟨hval, hlength⟩ := ih (sub32 Z M) (shiftR32 M 1)
        (by rw [length_sub32 hlen, length_shiftR32, hlen]) hhalf (by omega)
      rw [hval, hlength, length_sub32 hlen, hsub, hM]
      refine ⟨?_, rfl⟩
      rw [Nat.sub_mul_mod (by rw [← hM]; exact hle)]
    · rename_i hcmp
      have hlt := Nat.lt_of_not_le fun hle => hcmp (hge.mpr hle)
      exact ih Z (shiftR32 M 1) (by rw [length_shiftR32, hlen]) hhalf (by omega)

theorem mod32_spec {X Y : IntArray} (hX : X.length = IWIDTH) (hY : Y.length = IWIDTH)
    (hpos : 0 < value Y) :
    value (mod32 X Y) = value X % value Y ∧ (mod32 X Y).length = IWIDTH := by
  have hlen : X.length = Y.length := hX.trans hY.symm
  obtain ⟨hXle, hXlt, hXge⟩ := zerobits_spec hX
  obtain ⟨hYle, hYlt, hYge⟩ := zerobits_spec hY
  have hYbits : zerobits Y < 32 * IWIDTH := by
    by_contra hno
    have hzero : 32 * IWIDTH - zerobits Y = 0 := by omega
    rw [hzero, pow_zero] at hYlt
    omega
  have hYge := hYge hYbits
  have hdouble : 2 ^ (32 * IWIDTH - zerobits Y) = 2 * 2 ^ (32 * IWIDTH - zerobits Y - 1) := by
    rw [← pow_succ']
    congr 1
    omega
  unfold mod32
  dsimp only
  split
  · rename_i hsmall
    have hXY : value X < 2 * value Y := by
      have hmono : 2 ^ (32 * IWIDTH - zerobits X) ≤ 2 ^ (32 * IWIDTH - zerobits Y) :=
        Nat.pow_le_pow_right (by decide) (by omega)
      omega
    obtain ⟨hcmp, -, -⟩ := cmp32_spec X Y hlen
    split
    · rename_i hlt
      exact ⟨(Nat.mod_eq_of_lt (hcmp.mp hlt)).symm, hX⟩
    · rename_i hge
      have hle : value Y ≤ value X := Nat.le_of_not_lt fun h => hge (hcmp.mpr h)
      rw [value_sub32 hlen hle, length_sub32 hlen, Nat.mod_eq_sub_mod hle,
        Nat.mod_eq_of_lt (by omega)]
      exact ⟨rfl, hX⟩
  · rename_i hlarge
    have hXge := hXge (by omega)
    have hbits : 32 * IWIDTH - zerobits X = (32 * IWIDTH - zerobits Y) + (zerobits Y - zerobits X) := by
      omega
    have hroom : value Y * 2 ^ (zerobits Y - zerobits X) < 2 ^ (32 * IWIDTH - zerobits X) := by
      rw [hbits, pow_add]
      exact Nat.mul_lt_mul_of_pos_right hYlt (Nat.two_pow_pos _)
    have hM : value (shiftL32N Y (zerobits Y - zerobits X)) =
        value Y * 2 ^ (zerobits Y - zerobits X) := by
      apply value_shiftL32N hY (by omega)
      exact lt_of_lt_of_le hroom (Nat.pow_le_pow_right (by decide) (by omega))
    have hZ : value X < 2 * value (shiftL32N Y (zerobits Y - zerobits X)) := by
      rw [hM]
      calc value X < 2 ^ (32 * IWIDTH - zerobits X) := hXlt
        _ = 2 * 2 ^ (32 * IWIDTH - zerobits Y - 1) * 2 ^ (zerobits Y - zerobits X) := by
            rw [← hdouble, ← pow_add, ← hbits]
        _ = 2 * (2 ^ (32 * IWIDTH - zerobits Y - 1) * 2 ^ (zerobits Y - zerobits X)) :=
            Nat.mul_assoc _ _ _
        _ ≤ 2 * (value Y * 2 ^ (zerobits Y - zerobits X)) :=
            Nat.mul_le_mul_left _ (Nat.mul_le_mul_right _ hYge)
    obtain ⟨hval, hlength⟩ := modLoop_spec _ X _ (value Y)
      (by rw [hX, length_shiftL32N hY]) hM hZ
    exact ⟨hval, hlength.trans hX⟩

/-! ## The product -/

abbrev Short := BitVec 16

def IW2 : Nat := IWIDTH * 2

/-- The words cut in two. -/
def halves : IntArray → List Short
  | [] => []
  | x :: xs => (x >>> 16).setWidth 16 :: x.setWidth 16 :: halves xs

def joined : List Short → IntArray
  | a :: b :: rest => ((a.setWidth 32 <<< 16) ||| b.setWidth 32) :: joined rest
  | _ => []

/-- `v` is added to `z[tx]`, and the carry to those before it. -/
def addAt : List Short → Nat → Word → List Short × Word
  | [], _, v => ([], v)
  | z :: zs, 0, v =>
      let nv1 := z.setWidth 32 + v
      (nv1.setWidth 16 :: zs, nv1 >>> 16)
  | z :: zs, tx + 1, v =>
      let (zs', carry) := addAt zs tx v
      if carry = 0 then (z :: zs', carry)
      else
        let nv2 := z.setWidth 32 + carry
        (nv2.setWidth 16 :: zs', nv2 >>> 16)

/-- The inner loop of `mul32`, over `y` from its end. The state is `z` with the last carry. -/
def mulRow (x : Short) (i : Nat) : List Short → Nat → List Short × Word → List Short × Word
  | [], _, st => st
  | y :: ys, j, st =>
      let st' :=
        if y = 0 ∨ IW2 ≤ i + j then st
        else addAt st.1 (IW2 - 1 - (i + j)) (x.setWidth 32 * y.setWidth 32)
      mulRow x i ys (j + 1) st'

/-- The outer loop of `mul32`, over `x` from its end. -/
def mulLoop (y : List Short) : List Short → Nat → List Short × Word → List Short × Word
  | [], _, st => st
  | x :: xs, i, st => mulLoop y xs (i + 1) (if x = 0 then st else mulRow x i y 0 st)

/-- `mul32` with the value it returns. `junk` is what `carry` has in it before it is set. -/
def mul32 (junk : Word) (X Y : IntArray) : IntArray × Word :=
  let st := mulLoop (halves Y).reverse (halves X).reverse 0 (List.replicate IW2 0, junk)
  (joined st.1, st.2)

theorem length_halves (X : IntArray) : (halves X).length = 2 * X.length := by
  induction X with
  | nil => rfl
  | cons x X ih =>
    simp only [halves, List.length_cons, ih]
    omega

theorem value_halves (X : IntArray) : value (halves X) = value X := by
  induction X with
  | nil => rfl
  | cons x X ih =>
    unfold halves
    have hhigh : ((x >>> 16).setWidth 16).toNat = x.toNat / 2 ^ 16 := by
      have hx := x.isLt
      rw [BitVec.toNat_setWidth, BitVec.toNat_ushiftRight, Nat.shiftRight_eq_div_pow]
      exact Nat.mod_eq_of_lt (by omega)
    have hlow : (x.setWidth 16).toNat = x.toNat % 2 ^ 16 := BitVec.toNat_setWidth 16 x
    have hx := Nat.div_add_mod x.toNat (2 ^ 16)
    have hexp : 2 ^ (16 * (2 * X.length)) = 2 ^ (32 * X.length) := by
      congr 1
      omega
    rw [value_cons, value_cons, value_cons, hhigh, hlow, ih, List.length_cons, length_halves,
      Nat.mul_succ 16, pow_add, hexp]
    generalize 2 ^ (32 * X.length) = B
    generalize x.toNat / 2 ^ 16 = q at *
    generalize x.toNat % 2 ^ 16 = r at *
    generalize 2 ^ 16 = C at *
    rw [← hx]
    ring

/-- Every list of shorts with an even length is the halves of its words. -/
theorem halves_joined (n : Nat) (l : List Short) (h : l.length = 2 * n) :
    halves (joined l) = l ∧ (joined l).length = n := by
  induction n generalizing l with
  | zero =>
    have hl := List.length_eq_zero_iff.mp h
    subst hl
    exact ⟨rfl, rfl⟩
  | succ n ih =>
    match l, h with
    | a :: b :: l, h =>
      obtain ⟨hhalves, hlen⟩ := ih l (by simp only [List.length_cons] at h; omega)
      unfold joined
      refine ⟨?_, by rw [List.length_cons, hlen]⟩
      unfold halves
      rw [hhalves]
      have ha := a.isLt
      have hb := b.isLt
      have hword : ((a.setWidth 32 <<< 16) ||| b.setWidth 32).toNat = a.toNat * 2 ^ 16 + b.toNat := by
        rw [BitVec.toNat_or, BitVec.toNat_shiftLeft, BitVec.toNat_setWidth, BitVec.toNat_setWidth,
          Nat.mod_eq_of_lt (by omega), Nat.mod_eq_of_lt (by omega), Nat.shiftLeft_eq,
          Nat.mod_eq_of_lt (by omega), ← Nat.shiftLeft_eq, ← Nat.shiftLeft_add_eq_or_of_lt hb]
      congr 1
      · apply BitVec.eq_of_toNat_eq
        rw [BitVec.toNat_setWidth, BitVec.toNat_ushiftRight, hword, Nat.shiftRight_eq_div_pow]
        omega
      · congr 1
        apply BitVec.eq_of_toNat_eq
        rw [BitVec.toNat_setWidth, hword]
        omega

theorem toNat_extend (z : Short) : (z.setWidth 32 : Word).toNat = z.toNat := by
  have hz := z.isLt
  rw [BitVec.toNat_setWidth]
  exact Nat.mod_eq_of_lt (by omega)

theorem toNat_mul_short (x y : Short) :
    (x.setWidth 32 * y.setWidth 32 : Word).toNat = x.toNat * y.toNat ∧
      x.toNat * y.toNat ≤ 0xFFFF * 0xFFFF := by
  have hx := x.isLt
  have hy := y.isLt
  have hle : x.toNat * y.toNat ≤ 0xFFFF * 0xFFFF := Nat.mul_le_mul (by omega) (by omega)
  rw [BitVec.toNat_mul, toNat_extend, toNat_extend]
  exact ⟨Nat.mod_eq_of_lt (by omega), hle⟩

/-- A short and what is added to it, as the new short and the carry. -/
theorem toNat_add_split (z : Short) (v : Word) (hv : v.toNat ≤ 0xFFFF * 0xFFFF) :
    ((z.setWidth 32 + v).setWidth 16 : Short).toNat + ((z.setWidth 32 + v) >>> 16).toNat * 2 ^ 16 =
        z.toNat + v.toNat ∧
      ((z.setWidth 32 + v) >>> 16).toNat ≤ 0xFFFF := by
  have hz := z.isLt
  have hsum : (z.setWidth 32 + v).toNat = z.toNat + v.toNat := by
    rw [BitVec.toNat_add, toNat_extend]
    exact Nat.mod_eq_of_lt (by omega)
  rw [BitVec.toNat_setWidth, BitVec.toNat_ushiftRight, hsum, Nat.shiftRight_eq_div_pow]
  omega

theorem addAt_spec (z : List Short) (t : Nat) (v : Word) (ht : t < z.length)
    (hv : v.toNat ≤ 0xFFFF * 0xFFFF) :
    value (addAt z t v).1 + (addAt z t v).2.toNat * 2 ^ (16 * z.length) =
        value z + v.toNat * 2 ^ (16 * (z.length - 1 - t)) ∧
      (addAt z t v).1.length = z.length ∧ (addAt z t v).2.toNat ≤ 0xFFFF := by
  induction z generalizing t with
  | nil => simp at ht
  | cons z zs ih =>
    rw [List.length_cons, Nat.add_sub_cancel, Nat.mul_succ, pow_add]
    cases t with
    | zero =>
      obtain ⟨hsum, hcarry⟩ := toNat_add_split z v hv
      unfold addAt
      dsimp only
      rw [value_cons, value_cons, Nat.sub_zero]
      refine ⟨?_, rfl, hcarry⟩
      generalize 2 ^ (16 * zs.length) = B at *
      generalize 2 ^ 16 = C at *
      generalize ((z.setWidth 32 + v).setWidth 16 : Short).toNat = a at *
      generalize ((z.setWidth 32 + v) >>> 16).toNat = c at *
      calc a * B + value zs + c * (B * C) = (a + c * C) * B + value zs := by ring
        _ = (z.toNat + v.toNat) * B + value zs := by rw [hsum]
        _ = z.toNat * B + value zs + v.toNat * B := by ring
    | succ t =>
      obtain ⟨hval, hlen, hcarry⟩ := ih t (by simpa using ht)
      have hexp : zs.length - (t + 1) = zs.length - 1 - t := by omega
      rw [hexp]
      unfold addAt
      dsimp only
      split
      · rename_i hzero
        have hzero : (addAt zs t v).2.toNat = 0 := by
          rw [hzero]
          rfl
        rw [hzero, Nat.zero_mul, Nat.add_zero] at hval
        rw [value_cons, value_cons, hlen]
        refine ⟨?_, by rw [List.length_cons, hlen], hcarry⟩
        rw [hzero, Nat.zero_mul, Nat.add_zero, hval, Nat.add_assoc]
      · obtain ⟨hsum, hnext⟩ := toNat_add_split z (addAt zs t v).2 (by omega)
        rw [value_cons, value_cons, hlen]
        refine ⟨?_, by rw [List.length_cons, hlen], hnext⟩
        generalize 2 ^ (16 * zs.length) = B at *
        generalize 2 ^ (16 * (zs.length - 1 - t)) = D at *
        generalize 2 ^ 16 = C at *
        generalize ((z.setWidth 32 + (addAt zs t v).2).setWidth 16 : Short).toNat = a at *
        generalize ((z.setWidth 32 + (addAt zs t v).2) >>> 16).toNat = c at *
        calc a * B + value (addAt zs t v).1 + c * (B * C)
            = (a + c * C) * B + value (addAt zs t v).1 := by ring
          _ = (z.toNat + (addAt zs t v).2.toNat) * B + value (addAt zs t v).1 := by rw [hsum]
          _ = z.toNat * B + (value (addAt zs t v).1 + (addAt zs t v).2.toNat * B) := by ring
          _ = z.toNat * B + (value zs + v.toNat * D) := by rw [hval]
          _ = z.toNat * B + value zs + v.toNat * D := by ring

/-- An addition that fits leaves no carry. -/
theorem addAt_fits {z : List Short} (hlen : z.length = IW2) {k : Nat} (hk : k < IW2) {v : Word}
    (hv : v.toNat ≤ 0xFFFF * 0xFFFF) (hfit : value z + v.toNat * 2 ^ (16 * k) < 2 ^ (16 * IW2)) :
    value (addAt z (IW2 - 1 - k) v).1 = value z + v.toNat * 2 ^ (16 * k) ∧
      (addAt z (IW2 - 1 - k) v).1.length = IW2 ∧ (addAt z (IW2 - 1 - k) v).2 = 0 := by
  obtain ⟨hval, hlength, -⟩ := addAt_spec z (IW2 - 1 - k) v (by omega) hv
  have hback : z.length - 1 - (IW2 - 1 - k) = k := by omega
  rw [hback, hlen] at hval
  have hzero : (addAt z (IW2 - 1 - k) v).2.toNat = 0 := by
    by_contra hne
    have hle := Nat.le_mul_of_pos_left (2 ^ (16 * IW2)) (Nat.pos_of_ne_zero hne)
    omega
  rw [hzero, Nat.zero_mul, Nat.add_zero] at hval
  exact ⟨hval, hlength.trans hlen, BitVec.eq_of_toNat_eq hzero⟩

/-- A row adds `x` times `ys` where it belongs. The carry is 0 unless nothing was added. -/
theorem mulRow_spec {x : Short} (hx : x ≠ 0) (i : Nat) (ys : List Short) (j : Nat)
    (st : List Short × Word) (hlen : st.1.length = IW2)
    (hfit : value st.1 + x.toNat * value ys.reverse * 2 ^ (16 * (i + j)) < 2 ^ (16 * IW2)) :
    value (mulRow x i ys j st).1 =
        value st.1 + x.toNat * value ys.reverse * 2 ^ (16 * (i + j)) ∧
      (mulRow x i ys j st).1.length = IW2 ∧
      ((mulRow x i ys j st).2 = 0 ∨ mulRow x i ys j st = st) := by
  induction ys generalizing j st with
  | nil => simp [mulRow, hlen]
  | cons y ys ih =>
    unfold mulRow
    rw [List.reverse_cons, value_concat] at hfit ⊢
    have hdist : x.toNat * (value ys.reverse * 2 ^ 16 + y.toNat) * 2 ^ (16 * (i + j)) =
        x.toNat * y.toNat * 2 ^ (16 * (i + j)) +
          x.toNat * value ys.reverse * 2 ^ (16 * (i + (j + 1))) := by
      rw [← Nat.add_assoc, Nat.mul_succ 16, pow_add]
      ring
    rw [hdist, ← Nat.add_assoc] at hfit ⊢
    by_cases hskip : y = 0 ∨ IW2 ≤ i + j
    · have hy : y = 0 := by
        rcases hskip with hy | hout
        · exact hy
        · by_contra hy
          have hprod : 0 < x.toNat * y.toNat := by
            apply Nat.mul_pos <;> apply Nat.pos_of_ne_zero
            · exact fun h => hx (BitVec.eq_of_toNat_eq h)
            · exact fun h => hy (BitVec.eq_of_toNat_eq h)
          have hpow : 2 ^ (16 * IW2) ≤ 2 ^ (16 * (i + j)) := Nat.pow_le_pow_right (by decide) (by omega)
          have hle := Nat.le_mul_of_pos_left (2 ^ (16 * (i + j))) hprod
          omega
      have hzero : y.toNat = 0 := by
        rw [hy]
        rfl
      rw [hzero, Nat.mul_zero, Nat.zero_mul, Nat.add_zero] at hfit ⊢
      rw [if_pos hskip]
      exact ih (j + 1) st hlen hfit
    · rw [if_neg hskip]
      obtain ⟨hmul, hbound⟩ := toNat_mul_short x y
      have hv : (x.setWidth 32 * y.setWidth 32 : Word).toNat ≤ 0xFFFF * 0xFFFF := by
        rw [hmul]
        exact hbound
      obtain ⟨hval, hlength, hcarry⟩ := addAt_fits hlen (by omega : i + j < IW2) hv
        (by rw [hmul]; omega)
      rw [hmul] at hval
      obtain ⟨hrow, hrowlen, hrowcarry⟩ := ih (j + 1) _ hlength (by rw [hval]; exact hfit)
      rw [hrow, hval]
      refine ⟨rfl, hrowlen, .inl ?_⟩
      rcases hrowcarry with hzero | hsame
      · exact hzero
      · rw [hsame]
        exact hcarry

theorem mulLoop_spec (ys xs : List Short) (i : Nat) (st : List Short × Word)
    (hlen : st.1.length = IW2)
    (hfit : value st.1 + value xs.reverse * value ys.reverse * 2 ^ (16 * i) < 2 ^ (16 * IW2)) :
    value (mulLoop ys xs i st).1 = value st.1 + value xs.reverse * value ys.reverse * 2 ^ (16 * i) ∧
      (mulLoop ys xs i st).1.length = IW2 ∧
      ((mulLoop ys xs i st).2 = 0 ∨ mulLoop ys xs i st = st) := by
  induction xs generalizing i st with
  | nil => simp [mulLoop, hlen]
  | cons x xs ih =>
    unfold mulLoop
    rw [List.reverse_cons, value_concat] at hfit ⊢
    have hdist : (value xs.reverse * 2 ^ 16 + x.toNat) * value ys.reverse * 2 ^ (16 * i) =
        x.toNat * value ys.reverse * 2 ^ (16 * (i + 0)) +
          value xs.reverse * value ys.reverse * 2 ^ (16 * (i + 1)) := by
      rw [Nat.mul_succ 16, pow_add, Nat.add_zero]
      ring
    rw [hdist, ← Nat.add_assoc] at hfit ⊢
    by_cases hx : x = 0
    · have hzero : x.toNat = 0 := by
        rw [hx]
        rfl
      rw [hzero, Nat.zero_mul, Nat.zero_mul, Nat.add_zero] at hfit ⊢
      rw [if_pos hx]
      exact ih (i + 1) st hlen hfit
    · rw [if_neg hx]
      obtain ⟨hrow, hrowlen, hrowcarry⟩ := mulRow_spec hx i ys 0 st hlen (by omega)
      obtain ⟨hval, hlength, hcarry⟩ := ih (i + 1) _ hrowlen (by rw [hrow]; exact hfit)
      rw [hval, hrow]
      refine ⟨rfl, hlength, ?_⟩
      rcases hcarry with hzero | hsame
      · exact .inl hzero
      · rw [hsame]
        exact hrowcarry

/-- A product that fits is right, and there is no carry. -/
theorem mul32_spec (junk : Word) {X Y : IntArray}
    (hfit : value X * value Y < 2 ^ (32 * IWIDTH)) :
    value (mul32 junk X Y).1 = value X * value Y ∧ (mul32 junk X Y).1.length = IWIDTH ∧
      (0 < value X * value Y → (mul32 junk X Y).2 = 0) := by
  have hexp : 16 * IW2 = 32 * IWIDTH := rfl
  obtain ⟨hval, hlen, hcarry⟩ := mulLoop_spec (halves Y).reverse (halves X).reverse 0
    (List.replicate IW2 0, junk) List.length_replicate (by
      rw [value_replicate_zero, List.reverse_reverse, List.reverse_reverse, value_halves,
        value_halves, hexp]
      simpa using hfit)
  rw [value_replicate_zero, List.reverse_reverse, List.reverse_reverse, value_halves,
    value_halves, Nat.mul_zero, pow_zero, Nat.mul_one, Nat.zero_add] at hval
  obtain ⟨hhalves, hjoined⟩ := halves_joined IWIDTH _ (hlen.trans (Nat.mul_comm IWIDTH 2))
  unfold mul32
  dsimp only
  refine ⟨?_, hjoined, fun hpos => ?_⟩
  · rw [← value_halves, hhalves, hval]
  · rcases hcarry with hzero | hsame
    · exact hzero
    · rw [hsame, value_replicate_zero] at hval
      omega

end delegate.credhy
