-- The scanners of numbers that stay at the ends of their ranges: `scanint` with the
-- overflow checks of its loop, and `kmxatoi` with its units (rary/String.cpp).
import Delegate.Saturate
import Delegate.StringScan

open ctext signed

namespace delegate.number

/-! ## The pure model -/

/-- The loop of `scanint`. -/
def scanint.digits (val : Int) : Text → Int × Text
  | [] => (val, [])
  | ch :: sp =>
    if ch.isDigit then
      let mul := mulOverflow 32 val 10
      let add := addOverflow 32 mul.2 (ch.toNat - '0'.toNat : Nat)
      digits (if mul.1 || add.1 then greatest 32 else add.2) sp
    else (val, ch :: sp)

/-- `scanint`: the number, and the text from the pointer that is returned on. -/
def scanint (str : Text) : Int × Text := scanint.digits 0 str

/-- `Isnumber`: the text behind the number. -/
def Isnumber (str : Text) : Option Text :=
  let str :=
    if (str.head? = some '-' ∨ str.head? = some '+') ∧ str.tail.head?.any Char.isDigit
    then str.tail else str
  if str.head?.any Char.isDigit then some (str.dropWhile Char.isDigit) else none

/-- What `std::from_chars` gives. -/
inductive FromChars
  | value (n : Int)
  | result_out_of_range
  | invalid_argument

/-- `std::from_chars` of a number of 64 bits: a minus sign and digits. -/
def from_chars (s : Text) : FromChars :=
  let neg := s.head? = some '-'
  let ds := (if neg then s.tail else s).takeWhile Char.isDigit
  let v := (Nat.ofDigitChars 10 ds 0 : Int)
  let n := if neg then -v else v
  if ds = [] then .invalid_argument
  else if Fits 64 n then .value n else .result_out_of_range

/-- The unit of the character behind the number. -/
def unit (dp : Text) : Int :=
  match dp.head? with
  | some 'k' | some 'K' => 1024
  | some 'm' | some 'M' => 1024 * 1024
  | some 'g' | some 'G' => 1024 * 1024 * 1024
  | _ => 1

def kmxatoi (ai : Text) : Int :=
  let neg : Bool := decide (ai.head? = some '-')
  match Isnumber ai with
  | none => 0
  | some dp =>
    let bp := if ai.head? = some '+' then ai.tail else ai
    let n := match from_chars (bp.take (bp.length - dp.length)) with
      | .value n => n
      | .result_out_of_range => if neg then least 64 else greatest 64
      | .invalid_argument => 0
    let mul := mulOverflow 64 n (unit dp)
    if mul.1 then (if neg then least 64 else greatest 64) else mul.2

/-! ## What the texts say -/

/-- The value of the digits that a text begins with. -/
def digitsValue (s : Text) : Nat := Nat.ofDigitChars 10 (s.takeWhile Char.isDigit) 0

/-- What stands behind the sign. -/
def unsigned : Text → Text
  | '-' :: s => s
  | '+' :: s => s
  | s => s

/-- The value of a sign and digits that a text begins with, and the text behind them. -/
def signedRun (ai : Text) : Option (Int × Text) :=
  if (unsigned ai).head?.any Char.isDigit then
    some (if ai.head? = some '-' then -(digitsValue (unsigned ai) : Int)
      else digitsValue (unsigned ai), (unsigned ai).dropWhile Char.isDigit)
  else none

theorem unsigned_minus (s : Text) : unsigned ('-' :: s) = s := rfl

theorem unsigned_plus (s : Text) : unsigned ('+' :: s) = s := rfl

theorem unsigned_plain {ai : Text} (hm : ai.head? ≠ some '-') (hp : ai.head? ≠ some '+') :
    unsigned ai = ai := by
  unfold unsigned
  split
  · exact absurd rfl hm
  · exact absurd rfl hp
  · rfl

/-! ## `scanint` -/

/-- One digit more: the number stays at the end of its range once it is there. -/
theorem digit_step (v d : Nat) (hd : d ≤ 9) {val : Int} (hval : val = min (v : Int) (greatest 32)) :
    (let mul := mulOverflow 32 val 10
     let add := addOverflow 32 mul.2 d
     if mul.1 || add.1 then greatest 32 else add.2) =
      min ((v * 10 + d : Nat) : Int) (greatest 32) := by
  have hg : greatest 32 = 2147483647 := rfl
  have hl : least 32 = -2147483648 := rfl
  rw [hg] at hval
  dsimp only
  unfold mulOverflow addOverflow
  by_cases hmul : Fits 32 (val * 10)
  · rw [checked_of_fits (by decide) hmul]
    dsimp only
    obtain ⟨-, hle⟩ := hmul
    rw [hg] at hle
    by_cases hadd : Fits 32 (val * 10 + d)
    · rw [checked_of_fits (by decide) hadd]
      obtain ⟨-, hle'⟩ := hadd
      rw [hg] at hle' ⊢
      simp only [Bool.or_self, Bool.false_eq_true, if_false]
      omega
    · rw [checked_of_not_fits hadd, Bool.or_true, if_pos rfl]
      unfold Fits at hadd
      rw [hg, hl] at hadd
      rw [hg]
      omega
  · rw [checked_of_not_fits hmul, Bool.true_or, if_pos rfl]
    unfold Fits at hmul
    rw [hg, hl] at hmul
    rw [hg]
    omega

theorem digit_le {c : Char} (h : c.isDigit = true) : c.toNat - '0'.toNat ≤ 9 := by
  simp only [Char.isDigit, Bool.and_eq_true, decide_eq_true_eq] at h
  have h9 : c.toNat ≤ 57 := h.2
  have h0 : '0'.toNat = 48 := rfl
  omega

theorem scanint.digits_eq (str : Text) (v : Nat) :
    scanint.digits (min (v : Int) (greatest 32)) str =
      (min (Nat.ofDigitChars 10 (str.takeWhile Char.isDigit) v : Int) (greatest 32),
        str.dropWhile Char.isDigit) := by
  induction str generalizing v with
  | nil => rfl
  | cons ch sp ih =>
    rw [digits, List.takeWhile_cons, List.dropWhile_cons]
    split
    · rename_i hdigit
      have hstep := digit_step v _ (digit_le hdigit) rfl
      dsimp only at hstep ⊢
      rw [hstep, ih, Nat.ofDigitChars_cons, Nat.mul_comm v 10]
    · rfl

theorem scanint_value (str : Text) :
    scanint str = (min (digitsValue str : Int) (greatest 32), str.dropWhile Char.isDigit) :=
  scanint.digits_eq str 0

/-- The scan by the checked numbers is the scan by numbers without an end that is held at
`INT_MAX`. -/
theorem scanint_eq_string (str : Text) :
    scanint str = (((string.scanint str).1 : Int), (string.scanint str).2) := by
  have h := @string.scanint_append (str.takeWhile Char.isDigit) (str.dropWhile Char.isDigit)
    (fun c hc => List.mem_takeWhile_imp hc) (head_dropWhile _ _)
  rw [List.takeWhile_append_dropWhile] at h
  rw [h, scanint_value, Nat.cast_min]
  rfl

/-! ## `kmxatoi` -/

theorem unit_pos (dp : Text) : 1 ≤ unit dp := by
  unfold unit
  split <;> decide

theorem takeWhile_idem (s : Text) :
    (s.takeWhile Char.isDigit).takeWhile Char.isDigit = s.takeWhile Char.isDigit := by
  rw [List.takeWhile_takeWhile]
  simp

/-- The text up to the pointer behind the digits. -/
theorem take_run (s : Text) :
    s.take (s.length - (s.dropWhile Char.isDigit).length) = s.takeWhile Char.isDigit := by
  have hsplit : s.length = (s.takeWhile Char.isDigit).length + (s.dropWhile Char.isDigit).length := by
    rw [← List.length_append, List.takeWhile_append_dropWhile]
  have htake := @List.take_left _ (s.takeWhile Char.isDigit) (s.dropWhile Char.isDigit)
  rw [hsplit, Nat.add_sub_cancel]
  rwa [List.takeWhile_append_dropWhile] at htake

theorem takeWhile_ne_nil {s : Text} (h : s.head?.any Char.isDigit = true) :
    s.takeWhile Char.isDigit ≠ [] := by
  cases s with
  | nil => cases h
  | cons c s =>
    rw [List.takeWhile_cons, if_pos (by simpa using h)]
    exact List.cons_ne_nil _ _

theorem head_of_any {s : Text} (h : s.head?.any Char.isDigit = true) :
    ∃ c r, s = c :: r ∧ c.isDigit = true := by
  cases s with
  | nil => cases h
  | cons c r => exact ⟨c, r, rfl, by simpa using h⟩

theorem from_chars_digits {s : Text} (h : s.head?.any Char.isDigit = true) :
    from_chars (s.takeWhile Char.isDigit) = if Fits 64 (digitsValue s : Int)
      then .value (digitsValue s) else .result_out_of_range := by
  have hminus : (s.takeWhile Char.isDigit).head? ≠ some '-' := by
    obtain ⟨c, r, rfl, hc⟩ := head_of_any h
    rw [List.takeWhile_cons, if_pos hc]
    rintro ⟨⟩
    cases hc
  unfold from_chars
  dsimp only
  rw [if_neg hminus, if_neg hminus, takeWhile_idem, if_neg (takeWhile_ne_nil h)]
  rfl

theorem from_chars_minus {s : Text} (h : s.head?.any Char.isDigit = true) :
    from_chars ('-' :: s.takeWhile Char.isDigit) = if Fits 64 (-(digitsValue s : Int))
      then .value (-(digitsValue s : Int)) else .result_out_of_range := by
  have hminus : ('-' :: s.takeWhile Char.isDigit).head? = some '-' := rfl
  unfold from_chars
  dsimp only
  rw [if_pos hminus, if_pos hminus, List.tail_cons, takeWhile_idem, if_neg (takeWhile_ne_nil h)]
  rfl

/-- The number that is read is held at the ends of its range, and so is its product. -/
theorem kmxatoi_of_run {ai dp : Text} {v : Int} (hnum : Isnumber ai = some dp)
    (hfrom : from_chars ((if ai.head? = some '+' then ai.tail else ai).take
        ((if ai.head? = some '+' then ai.tail else ai).length - dp.length)) =
      if Fits 64 v then .value v else .result_out_of_range)
    (hsign : if decide (ai.head? = some '-') then v ≤ 0 else 0 ≤ v) :
    kmxatoi ai = clamp 64 (v * unit dp) := by
  have hunit := unit_pos dp
  have hread : (match (if Fits 64 v then FromChars.value v else .result_out_of_range) with
      | .value n => n
      | .result_out_of_range =>
        if decide (ai.head? = some '-') then least 64 else greatest 64
      | .invalid_argument => 0) = clamp 64 v := by
    rw [← fits_or_end 64 hsign]
    by_cases hfits : Fits 64 v
    · rw [if_pos hfits, if_pos hfits]
    · rw [if_neg hfits, if_neg hfits]
  have hprod : if decide (ai.head? = some '-') then clamp 64 v * unit dp ≤ 0
      else 0 ≤ clamp 64 v * unit dp := by
    have hl := least_neg 64
    have hg := greatest_nonneg 64
    split at hsign
    · rename_i hneg
      rw [if_pos hneg]
      have hle : clamp 64 v ≤ 0 := by
        unfold clamp
        omega
      nlinarith
    · rename_i hneg
      rw [if_neg hneg]
      have hle : 0 ≤ clamp 64 v := by
        unfold clamp
        omega
      positivity
  unfold kmxatoi
  rw [hnum]
  dsimp only
  rw [hfrom, hread]
  unfold mulOverflow
  rw [checked_or_end (by decide) hprod, clamp_clamp_mul hunit]

theorem kmxatoi_of_none {ai : Text} (h : Isnumber ai = none) : kmxatoi ai = 0 := by
  unfold kmxatoi
  rw [h]

/-- A sign with digits behind it is a number, and no other sign is. -/
theorem Isnumber_sign {c : Char} (hc : c = '-' ∨ c = '+') (s : Text) :
    Isnumber (c :: s) =
      if s.head?.any Char.isDigit then some (s.dropWhile Char.isDigit) else none := by
  have hdigit : c.isDigit = false := by
    rcases hc with rfl | rfl
    · rfl
    · rfl
  have hsign : (c :: s).head? = some '-' ∨ (c :: s).head? = some '+' :=
    hc.imp (congrArg some) (congrArg some)
  unfold Isnumber
  dsimp only
  by_cases hs : s.head?.any Char.isDigit = true
  · have hstart : (if ((c :: s).head? = some '-' ∨ (c :: s).head? = some '+') ∧
        (c :: s).tail.head?.any Char.isDigit = true then (c :: s).tail else c :: s) = s :=
      if_pos ⟨hsign, hs⟩
    rw [hstart]
  · have hstart : (if ((c :: s).head? = some '-' ∨ (c :: s).head? = some '+') ∧
        (c :: s).tail.head?.any Char.isDigit = true then (c :: s).tail else c :: s) = c :: s :=
      if_neg fun h => hs h.2
    rw [hstart, if_neg hs, List.head?_cons, Option.any_some, hdigit]
    rfl

theorem Isnumber_plain {ai : Text} (hm : ai.head? ≠ some '-') (hp : ai.head? ≠ some '+') :
    Isnumber ai =
      if ai.head?.any Char.isDigit then some (ai.dropWhile Char.isDigit) else none := by
  have hstart : (if (ai.head? = some '-' ∨ ai.head? = some '+') ∧
      ai.tail.head?.any Char.isDigit = true then ai.tail else ai) = ai :=
    if_neg fun h => h.1.elim hm hp
  unfold Isnumber
  dsimp only
  rw [hstart]

/-- `kmxatoi` is the signed number times its unit, held in the range of 64 bits. -/
theorem kmxatoi_value (ai : Text) :
    kmxatoi ai = match signedRun ai with
      | none => 0
      | some (v, dp) => clamp 64 (v * unit dp) := by
  unfold signedRun
  by_cases hs : (unsigned ai).head?.any Char.isDigit = true
  · rw [if_pos hs]
    dsimp only
    by_cases hm : ai.head? = some '-'
    · obtain ⟨s, rfl⟩ := List.head?_eq_some_iff.mp hm
      rw [unsigned_minus] at hs ⊢
      have hplus : ('-' :: s).head? ≠ some '+' := by
        rintro ⟨⟩
      have hle : (s.dropWhile Char.isDigit).length ≤ s.length := List.length_dropWhile_le _ _
      have hnum : Isnumber ('-' :: s) = some (s.dropWhile Char.isDigit) := by
        rw [Isnumber_sign (.inl rfl), if_pos hs]
      rw [if_pos hm]
      refine kmxatoi_of_run hnum ?_ ?_
      · rw [if_neg hplus, List.length_cons, Nat.sub_add_comm hle, List.take_succ_cons, take_run]
        exact from_chars_minus hs
      · rw [if_pos (decide_eq_true hm)]
        omega
    · rw [if_neg hm]
      by_cases hp : ai.head? = some '+'
      · obtain ⟨s, rfl⟩ := List.head?_eq_some_iff.mp hp
        rw [unsigned_plus] at hs ⊢
        have hnum : Isnumber ('+' :: s) = some (s.dropWhile Char.isDigit) := by
          rw [Isnumber_sign (.inr rfl), if_pos hs]
        refine kmxatoi_of_run hnum ?_ ?_
        · rw [if_pos hp, List.tail_cons, take_run]
          exact from_chars_digits hs
        · rw [if_neg (by simp)]
          exact Int.natCast_nonneg _
      · have hplain := unsigned_plain hm hp
        rw [hplain] at hs ⊢
        have hnum : Isnumber ai = some (ai.dropWhile Char.isDigit) := by
          rw [Isnumber_plain hm hp, if_pos hs]
        refine kmxatoi_of_run hnum ?_ ?_
        · rw [if_neg hp, take_run]
          exact from_chars_digits hs
        · rw [if_neg (by simpa using hm)]
          exact Int.natCast_nonneg _
  · rw [if_neg hs]
    apply kmxatoi_of_none
    by_cases hm : ai.head? = some '-'
    · obtain ⟨s, rfl⟩ := List.head?_eq_some_iff.mp hm
      rw [unsigned_minus] at hs
      rw [Isnumber_sign (.inl rfl), if_neg hs]
    · by_cases hp : ai.head? = some '+'
      · obtain ⟨s, rfl⟩ := List.head?_eq_some_iff.mp hp
        rw [unsigned_plus] at hs
        rw [Isnumber_sign (.inr rfl), if_neg hs]
      · rw [unsigned_plain hm hp] at hs
        rw [Isnumber_plain hm hp, if_neg hs]

/-- The scanners are held at the ends of their ranges, and nowhere else: `scanint` gives the
digits up to `INT_MAX` and the text behind them, `kmxatoi` the signed number times its unit. -/
theorem scanners_saturate :
    (∀ str : Text, scanint str =
        (min (digitsValue str : Int) (greatest 32), str.dropWhile Char.isDigit)) ∧
      ∀ ai : Text, kmxatoi ai = match signedRun ai with
        | none => 0
        | some (v, dp) => clamp 64 (v * unit dp) :=
  ⟨scanint_value, kmxatoi_value⟩

end delegate.number
