-- The base64 encoders and decoders: `MIME_to64X` and `MIME_from64` over files,
-- `strtoB64` and `B64tostr` over strings (mimekit/mimecodes.cpp).
import Delegate.Segments

open segs

namespace delegate.mimecodes

def LF : UInt8 := 10
def EQ : UInt8 := 61

/-! ## Tables -/

/-- The letters in upper and in lower case, the digits, `+` and `/`. -/
def B64CH : List UInt8 :=
  (List.range 26).map (fun i => UInt8.ofNat (65 + i)) ++
    (List.range 26).map (fun i => UInt8.ofNat (97 + i)) ++
    (List.range 10).map (fun i => UInt8.ofNat (48 + i)) ++ [43, 47]

/-- What `B64IX` has for a character. -/
inductive Ix
  | NON64
  | WHITE
  | PADDCH
  | ix (i : Nat)
  deriving DecidableEq, Repr

/-- The table as `init_64` fills it. The characters of `B64CH` are set last. -/
def B64IX (ch : UInt8) : Ix :=
  match B64CH.idxOf? ch with
  | some i => .ix i
  | none =>
    if ch = EQ then .PADDCH
    else if ch = 32 ∨ ch = 9 ∨ ch = 13 ∨ ch = LF then .WHITE
    else .NON64

/-! ## Encoders -/

/-- What the loop over `ix` has gathered. -/
structure Gathered where
  ix : Nat
  oint : Nat
  icc : Nat
  gotEOF : Bool
  rest : List UInt8

/-- The loop over `ix` in `MIME_to64X`: three bytes into `oint`, from the highest on. With a `leng`
that is not zero, no more bytes than that are read in all. -/
def MIME_to64X.gather (leng : Nat) : Nat → Nat → Nat → Nat → Nat → List UInt8 → Gathered
  | 0, ix, _, oint, icc, file => ⟨ix, oint, icc, false, file⟩
  | n + 1, ix, shifts, oint, icc, file =>
    let icc := if 0 < leng then icc + 1 else icc
    if 0 < leng ∧ leng < icc then ⟨ix, oint, icc, true, file⟩
    else
      match file with
      | [] => ⟨ix, oint, icc, true, []⟩
      | ich :: file =>
        MIME_to64X.gather leng n (ix + 1) (shifts - 8) (oint ||| ich.toNat <<< shifts) icc file

/-- The loop over `ix` in `strtoB64`. The string is the bytes from `icc` to `slen`. -/
def strtoB64.gather : Nat → Nat → Nat → Nat → List UInt8 → Gathered
  | 0, ix, _, oint, str => ⟨ix, oint, 0, false, str⟩
  | _ + 1, ix, _, oint, [] => ⟨ix, oint, 0, true, []⟩
  | n + 1, ix, shifts, oint, ich :: str =>
    strtoB64.gather n (ix + 1) (shifts - 8) (oint ||| ich.toNat <<< shifts) str

/-- The loops over `ox`: a character for each six bits that hold bytes, and the padding. -/
def put4 (ix oint : Nat) : List UInt8 :=
  (List.range (ix + 1)).map (fun ox => B64CH.getD (oint >>> (18 - 6 * ox) &&& 0x3F) 0) ++
    List.replicate (4 - (ix + 1)) EQ

theorem MIME_to64X.gather_length (leng n ix shifts oint icc : Nat) (file : List UInt8) :
    (gather leng n ix shifts oint icc file).rest.length +
      (gather leng n ix shifts oint icc file).ix = file.length + ix := by
  induction n generalizing ix shifts oint icc file with
  | zero => rfl
  | succ n ih =>
    cases file with
    | nil => simp [gather]
    | cons ich file =>
      unfold gather
      dsimp only
      generalize (if 0 < leng then icc + 1 else icc) = icc'
      by_cases hend : 0 < leng ∧ leng < icc'
      · simp [hend]
      · simp only [if_neg hend, ih, List.length_cons]
        omega

theorem strtoB64.gather_length (n ix shifts oint : Nat) (str : List UInt8) :
    (gather n ix shifts oint str).rest.length + (gather n ix shifts oint str).ix =
      str.length + ix := by
  induction n generalizing ix shifts oint str with
  | zero => rfl
  | succ n ih =>
    cases str with
    | nil => rfl
    | cons ich str =>
      simp only [gather, ih, List.length_cons]
      omega

/-- The loop of `MIME_to64X` and what is written after it. -/
def MIME_to64X.loop (leng : Nat) (gotEOF : Bool) (ocol icc : Nat) (file : List UInt8) :
    List UInt8 :=
  let g := gather leng 3 0 16 0 icc file
  if gotEOF = true ∨ g.ix = 0 then if 0 < ocol then [LF] else []
  else if 71 < ocol then LF :: put4 g.ix g.oint ++ loop leng g.gotEOF 4 g.icc g.rest
  else put4 g.ix g.oint ++ loop leng g.gotEOF (ocol + 4) g.icc g.rest
termination_by file.length
decreasing_by
  all_goals
    have hlen : g.rest.length + g.ix = file.length + 0 := gather_length leng 3 0 16 0 icc file
    change g.rest.length < file.length
    omega

/-- `MIME_to64X(in,out,leng)`: what it writes. -/
def MIME_to64X (file : List UInt8) (leng : Nat) : List UInt8 :=
  MIME_to64X.loop leng false 0 0 file

/-- The loop of `strtoB64` and what is written after it. -/
def strtoB64.loop (withnl gotEOF : Bool) (ocol : Nat) (str : List UInt8) : List UInt8 :=
  let g := gather 3 0 16 0 str
  if gotEOF = true ∨ str = [] ∨ g.ix = 0 then if withnl = true ∧ 0 < ocol then [LF] else []
  else if 71 < ocol then
    (if withnl then [LF] else []) ++ put4 g.ix g.oint ++ loop withnl g.gotEOF 4 g.rest
  else put4 g.ix g.oint ++ loop withnl g.gotEOF (ocol + 4) g.rest
termination_by str.length
decreasing_by
  all_goals
    have hlen : g.rest.length + g.ix = str.length + 0 := gather_length 3 0 16 0 str
    change g.rest.length < str.length
    omega

/-- `strtoB64(str,slen,b64,bsiz,withnl)`: what it writes before the terminator. -/
def strtoB64 (str : List UInt8) (withnl : Bool) : List UInt8 := strtoB64.loop withnl false 0 str

/-! ## Decoders -/

/-- What the loop over `ii` has gathered. -/
structure Quartet where
  ix : Nat
  oint : Nat
  gotEOF : Bool
  rest : List UInt8

/-- The loop over `ii`: four characters that are not white. The table is read through a lookup,
which has nothing outside of the table. A character that is not in the alphabet ends it, and
`MIME_from64` gives it back to the file. -/
def quartet (lookup : UInt8 → Option Ix) (unget : Bool) :
    Nat → Nat → Nat → Nat → List UInt8 → Option Quartet
  | ii, ix, _, oint, [] => some ⟨ix, oint, decide (ii < 4), []⟩
  | ii, ix, shifts, oint, ich :: file =>
    if 4 ≤ ii then some ⟨ix, oint, false, ich :: file⟩
    else
      match lookup ich with
      | none => none
      | some .NON64 => some ⟨ix, oint, true, if unget then ich :: file else file⟩
      | some .WHITE => quartet lookup unget ii ix shifts oint file
      | some .PADDCH => quartet lookup unget (ii + 1) ix shifts oint file
      | some (.ix i1) =>
        quartet lookup unget (ii + 1) (ix + 1) (shifts - 6) (oint ||| i1 <<< shifts) file

/-- The loop over `ox`: the whole bytes. -/
def put3 (ix oint : Nat) : List UInt8 :=
  (List.range (ix - 1)).map fun k => UInt8.ofNat (oint >>> (16 - 8 * k) &&& 0xFF)

theorem quartet_length {lookup : UInt8 → Option Ix} {unget : Bool} {file : List UInt8}
    {ii ix shifts oint : Nat} {q : Quartet}
    (h : quartet lookup unget ii ix shifts oint file = some q) :
    q.rest.length + q.ix ≤ file.length + ix := by
  induction file generalizing ii ix shifts oint with
  | nil =>
    cases h
    rfl
  | cons ich file ih =>
    unfold quartet at h
    split at h
    · cases h
      rfl
    · split at h
      · cases h
      · cases h
        dsimp only
        split <;> simp
      · have := ih h
        rw [List.length_cons]
        omega
      · have := ih h
        rw [List.length_cons]
        omega
      · have := ih h
        rw [List.length_cons]
        omega

/-- The loop of the decoders: what is written, and what is left of the input. -/
def decodeLoop (lookup : UInt8 → Option Ix) (unget gotEOF : Bool) (file : List UInt8) :
    Option (List UInt8 × List UInt8) :=
  if gotEOF then some ([], file)
  else
    match _hq : quartet lookup unget 0 0 18 0 file with
    | none => none
    | some q =>
      if q.ix = 0 then some ([], q.rest)
      else
        (decodeLoop lookup unget q.gotEOF q.rest).map fun p => (put3 q.ix q.oint ++ p.1, p.2)
termination_by file.length
decreasing_by
  have hlen := quartet_length _hq
  omega

/-- `MIME_from64(in,out)`: what it writes, and what is left of the file. -/
def MIME_from64 (file : List UInt8) : Option (List UInt8 × List UInt8) :=
  decodeLoop (fun ch => some (B64IX ch)) true false file

/-- `B64tostr(b64,blen,str,slen)`: what it writes before the terminator. The index into the table
is a `char`, which is negative from 128 on. -/
def B64tostr (b64 : List UInt8) : Option (List UInt8) :=
  (decodeLoop (fun ch => if ch < 128 then some (B64IX ch) else none) false false b64).map Prod.fst

/-! ## One group -/

/-- The bits of a group of three bytes. Bytes that are missing at the end are zero. -/
def bits (p : List UInt8) : Nat :=
  (p.getD 0 0).toNat * 65536 + (p.getD 1 0).toNat * 256 + (p.getD 2 0).toNat

theorem or_shift (n d s w : Nat) (h : d < 2 ^ w) :
    n * 2 ^ (s + w) ||| d <<< s = n * 2 ^ (s + w) + d * 2 ^ s := by
  have hlt : d * 2 ^ s < 2 ^ (s + w) := by
    rw [Nat.pow_add, Nat.mul_comm (2 ^ s)]
    exact Nat.mul_lt_mul_of_pos_right h (Nat.two_pow_pos s)
  rw [Nat.shiftLeft_eq, Nat.mul_comm n, Nat.two_pow_add_eq_or_of_lt hlt]

section
variable {a b c : UInt8}

theorem or_one : a.toNat <<< 16 = bits [a] := by
  simp [bits, Nat.shiftLeft_eq]

theorem or_two : a.toNat <<< 16 ||| b.toNat <<< 8 = bits [a, b] := by
  have h := or_shift a.toNat b.toNat 8 8 b.toNat_lt
  rw [or_one]
  simpa [bits] using h

theorem or_three {rest : List UInt8} :
    a.toNat <<< 16 ||| b.toNat <<< 8 ||| c.toNat = bits (a :: b :: c :: rest) := by
  have h := or_shift (a.toNat * 256 + b.toNat) c.toNat 0 8 c.toNat_lt
  rw [or_two]
  simp [bits] at h ⊢
  rw [Nat.add_mul, Nat.mul_assoc] at h
  exact h

end

theorem strtoB64.gather_eq (str : List UInt8) :
    gather 3 0 16 0 str = ⟨min 3 str.length, bits str, 0, decide (str.length < 3), str.drop 3⟩ := by
  match str with
  | [] => rfl
  | [a] => simp [gather, or_one]
  | [a, b] => simp [gather, or_two]
  | a :: b :: c :: rest =>
    have hbits := @or_three a b c rest
    simp [gather, hbits]

/-! ## The two encoders -/

/-- All of the file may be read. -/
def Whole (leng icc : Nat) (file : List UInt8) : Prop := leng = 0 ∨ icc + file.length ≤ leng

theorem gather_same (leng n ix shifts oint icc : Nat) (file : List UInt8)
    (h : Whole leng icc file) :
    ∃ icc', MIME_to64X.gather leng n ix shifts oint icc file =
      { strtoB64.gather n ix shifts oint file with icc := icc' } ∧
      ((strtoB64.gather n ix shifts oint file).gotEOF = true ∨
        Whole leng icc' (strtoB64.gather n ix shifts oint file).rest) := by
  induction n generalizing ix shifts oint icc file with
  | zero => exact ⟨icc, rfl, .inr h⟩
  | succ n ih =>
    unfold MIME_to64X.gather
    dsimp only
    cases file with
    | nil =>
      refine ⟨if 0 < leng then icc + 1 else icc, ?_, .inl rfl⟩
      simp [strtoB64.gather]
    | cons ich file =>
      unfold strtoB64.gather
      unfold Whole at h
      rw [List.length_cons] at h
      rcases Nat.eq_zero_or_pos leng with hz | hpos
      · rw [if_neg (by omega), if_neg (by omega)]
        exact ih _ _ _ _ _ (.inl hz)
      · rw [if_pos hpos, if_neg (by omega)]
        exact ih _ _ _ _ _ (.inr (by omega))

theorem encoders_same (leng : Nat) (gotEOF : Bool) (ocol icc : Nat) (file : List UInt8)
    (h : gotEOF = true ∨ Whole leng icc file) :
    MIME_to64X.loop leng gotEOF ocol icc file = strtoB64.loop true gotEOF ocol file := by
  induction hn : file.length using Nat.strong_induction_on generalizing file gotEOF ocol icc with
  | _ n ih =>
    unfold MIME_to64X.loop strtoB64.loop
    dsimp only
    rcases Bool.eq_false_or_eq_true gotEOF with heof | heof
    · simp [heof]
    · have hwhole : Whole leng icc file := by
        rcases h with h | h
        · rw [heof] at h
          cases h
        · exact h
      obtain ⟨icc', hg, hrest⟩ := gather_same leng 3 0 16 0 icc file hwhole
      have hlen := strtoB64.gather_length 3 0 16 0 file
      rw [hg]
      dsimp only
      generalize strtoB64.gather 3 0 16 0 file = g at *
      by_cases hix : g.ix = 0
      · simp [hix]
      · have hlt : g.rest.length < n := by omega
        have hne : file ≠ [] := by
          rintro rfl
          rw [List.length_nil] at hn
          omega
        have hstop : ¬(gotEOF = true ∨ g.ix = 0) := by simp [heof, hix]
        have hstop' : ¬(gotEOF = true ∨ file = [] ∨ g.ix = 0) := by simp [heof, hix, hne]
        rw [if_neg hstop, if_neg hstop', ih _ hlt g.gotEOF 4 icc' g.rest hrest rfl,
          ih _ hlt g.gotEOF (ocol + 4) icc' g.rest hrest rfl]
        simp

/-- The break before a group. -/
def brk (withnl : Bool) (ocol : Nat) : List UInt8 := if 71 < ocol ∧ withnl = true then [LF] else []

/-- The column after a group. -/
def col (ocol : Nat) : Nat := if 71 < ocol then 4 else ocol + 4

theorem strtoB64.loop_nil (withnl gotEOF : Bool) (ocol : Nat) :
    loop withnl gotEOF ocol [] = if withnl = true ∧ 0 < ocol then [LF] else [] := by
  rw [loop]
  simp

/-- The loop writes a group at a time. -/
theorem strtoB64.loop_cons (withnl : Bool) (ocol : Nat) {str : List UInt8} (h : str ≠ []) :
    loop withnl false ocol str = brk withnl ocol ++ put4 (min 3 str.length) (bits str) ++
      loop withnl false (col ocol) (str.drop 3) := by
  have hpos := List.length_pos_iff.mpr h
  -- a short group is the last one
  have heof : ∀ n, loop withnl (decide (str.length < 3)) n (str.drop 3) =
      loop withnl false n (str.drop 3) := by
    intro n
    by_cases hshort : str.length < 3
    · rw [List.drop_eq_nil_of_le (by omega), loop_nil, loop_nil]
    · rw [decide_eq_false hshort]
  rw [loop]
  simp only [gather_eq, heof]
  have hstop : ¬(false = true ∨ str = [] ∨ min 3 str.length = 0) := by
    simp only [Bool.false_eq_true, h, false_or]
    omega
  rw [if_neg hstop]
  unfold brk col
  by_cases hcol : 71 < ocol
  · simp [hcol]
  · simp [hcol]

/-! ## A group read back -/

/-- The lookup is that of the table for the characters of base64. -/
structure Reads (lookup : UInt8 → Option Ix) : Prop where
  ch : ∀ o < 64, lookup (B64CH.getD o 0) = some (.ix o)
  pad : lookup EQ = some .PADDCH
  lf : lookup LF = some .WHITE

theorem reads_file : Reads fun ch => some (B64IX ch) where
  ch := by decide +kernel
  pad := by decide +kernel
  lf := by decide +kernel

theorem reads_str : Reads fun ch => if ch < 128 then some (B64IX ch) else none where
  ch := by decide +kernel
  pad := by decide +kernel
  lf := by decide +kernel

/-- Six bits. -/
theorem six_eq (n s : Nat) : n >>> s &&& 0x3F = n / 2 ^ s % 64 := by
  rw [Nat.shiftRight_eq_div_pow]
  exact Nat.and_two_pow_sub_one_eq_mod _ 6

theorem bits_lt (p : List UInt8) : bits p < 2 ^ 24 := by
  have h0 := (p.getD 0 0).toNat_lt
  have h1 := (p.getD 1 0).toNat_lt
  have h2 := (p.getD 2 0).toNat_lt
  unfold bits
  omega

section
variable {lookup : UInt8 → Option Ix} {unget : Bool} {rest : List UInt8}

theorem quartet_ch (h : Reads lookup) {ii ix shifts oint o : Nat} (hii : ii < 4) (ho : o < 64) :
    quartet lookup unget ii ix shifts oint (B64CH.getD o 0 :: rest) =
      quartet lookup unget (ii + 1) (ix + 1) (shifts - 6) (oint ||| o <<< shifts) rest := by
  rw [quartet, if_neg (by omega), h.ch o ho]

theorem quartet_pad (h : Reads lookup) {ii ix shifts oint : Nat} (hii : ii < 4) :
    quartet lookup unget ii ix shifts oint (EQ :: rest) =
      quartet lookup unget (ii + 1) ix shifts oint rest := by
  rw [quartet, if_neg (by omega), h.pad]

theorem quartet_four {ix shifts oint : Nat} :
    quartet lookup unget 4 ix shifts oint rest = some ⟨ix, oint, false, rest⟩ := by
  cases rest with
  | nil => rfl
  | cons c rest => rfl

/-- The six-bit parts make up the number again. -/
theorem or_parts (n : Nat) (h : n < 2 ^ 24) :
    0 ||| (n / 2 ^ 18 % 64) <<< 18 = n / 2 ^ 18 * 2 ^ 18 ∧
    n / 2 ^ 18 * 2 ^ 18 ||| (n / 2 ^ 12 % 64) <<< 12 = n / 2 ^ 12 * 2 ^ 12 ∧
    n / 2 ^ 12 * 2 ^ 12 ||| (n / 2 ^ 6 % 64) <<< 6 = n / 2 ^ 6 * 2 ^ 6 ∧
    n / 2 ^ 6 * 2 ^ 6 ||| (n / 2 ^ 0 % 64) <<< 0 = n := by
  refine ⟨?_, ?_, ?_, ?_⟩
  · rw [Nat.zero_or, Nat.shiftLeft_eq]
    omega
  · have hor := or_shift (n / 2 ^ 18) (n / 2 ^ 12 % 64) 12 6 (Nat.mod_lt _ (by omega))
    rw [hor]
    omega
  · have hor := or_shift (n / 2 ^ 12) (n / 2 ^ 6 % 64) 6 6 (Nat.mod_lt _ (by omega))
    rw [hor]
    omega
  · have hor := or_shift (n / 2 ^ 6) (n / 2 ^ 0 % 64) 0 6 (Nat.mod_lt _ (by omega))
    rw [hor]
    omega

/-- A character of base64 for six bits of the number. -/
def six (n s : Nat) : UInt8 := B64CH.getD (n / 2 ^ s % 64) 0

theorem put4_one (n : Nat) : put4 1 n = [six n 18, six n 12, EQ, EQ] := by
  unfold six
  rw [← six_eq, ← six_eq]
  rfl

theorem put4_two (n : Nat) : put4 2 n = [six n 18, six n 12, six n 6, EQ] := by
  unfold six
  rw [← six_eq, ← six_eq, ← six_eq]
  rfl

theorem put4_three (n : Nat) : put4 3 n = [six n 18, six n 12, six n 6, six n 0] := by
  unfold six
  rw [← six_eq, ← six_eq, ← six_eq, ← six_eq]
  rfl

theorem quartet_two (h : Reads lookup) (n : Nat) (hn : n < 2 ^ 24) :
    quartet lookup unget 0 0 18 0 (six n 18 :: six n 12 :: rest) =
      quartet lookup unget 2 2 6 (n / 2 ^ 12 * 2 ^ 12) rest := by
  have hlt : ∀ s, n / 2 ^ s % 64 < 64 := fun s => Nat.mod_lt _ (by omega)
  obtain ⟨h18, h12, -, -⟩ := or_parts n hn
  unfold six
  rw [quartet_ch h (by omega) (hlt 18), quartet_ch h (by omega) (hlt 12), h18, h12]

theorem quartet_three (h : Reads lookup) (n : Nat) (hn : n < 2 ^ 24) :
    quartet lookup unget 0 0 18 0 (six n 18 :: six n 12 :: six n 6 :: rest) =
      quartet lookup unget 3 3 0 (n / 2 ^ 6 * 2 ^ 6) rest := by
  have hlt : n / 2 ^ 6 % 64 < 64 := Nat.mod_lt _ (by omega)
  obtain ⟨-, -, h6, -⟩ := or_parts n hn
  rw [quartet_two h n hn]
  unfold six
  rw [quartet_ch h (by omega) hlt, h6]

/-- The decoder reads what the encoder has written for a group. -/
theorem quartet_put4 (h : Reads lookup) {p : List UInt8} (hp : p ≠ []) :
    quartet lookup unget 0 0 18 0 (put4 (min 3 p.length) (bits p) ++ rest) =
      some ⟨min 3 p.length + 1, bits p, false, rest⟩ := by
  match p with
  | [] => exact absurd rfl hp
  | [a] =>
    have hlow : bits [a] / 2 ^ 12 * 2 ^ 12 = bits [a] := by
      simp only [bits, List.getD_cons_zero, List.getD_cons_succ, List.getD_nil]
      simp
      omega
    change quartet lookup unget 0 0 18 0 (put4 1 (bits [a]) ++ rest) = _
    rw [put4_one]
    simp only [List.cons_append, List.nil_append]
    rw [quartet_two h _ (bits_lt [a]), quartet_pad h (by omega), quartet_pad h (by omega), quartet_four,
      hlow]
    rfl
  | [a, b] =>
    have hlow : bits [a, b] / 2 ^ 6 * 2 ^ 6 = bits [a, b] := by
      simp only [bits, List.getD_cons_zero, List.getD_cons_succ, List.getD_nil]
      simp
      omega
    change quartet lookup unget 0 0 18 0 (put4 2 (bits [a, b]) ++ rest) = _
    rw [put4_two]
    simp only [List.cons_append, List.nil_append]
    rw [quartet_three h _ (bits_lt [a, b]), quartet_pad h (by omega), quartet_four, hlow]
    rfl
  | a :: b :: c :: p =>
    have hlen : min 3 (a :: b :: c :: p).length = 3 := by simp
    have hbits := bits_lt (a :: b :: c :: p)
    generalize bits (a :: b :: c :: p) = n at *
    have hlt : n / 2 ^ 0 % 64 < 64 := Nat.mod_lt _ (by omega)
    obtain ⟨-, -, -, h0⟩ := or_parts n hbits
    rw [hlen, put4_three]
    simp only [List.cons_append, List.nil_append]
    rw [quartet_three h _ hbits]
    unfold six
    rw [quartet_ch h (by omega) hlt, quartet_four, h0]

/-- The bytes of a group. -/
theorem put3_bits (p : List UInt8) : put3 (min 3 p.length + 1) (bits p) = p.take 3 := by
  have hbyte : ∀ n s, n >>> s &&& 0xFF = n / 2 ^ s % 256 := by
    intro n s
    rw [Nat.shiftRight_eq_div_pow]
    exact Nat.and_two_pow_sub_one_eq_mod _ 8
  have hval : ∀ {x : UInt8} {n : Nat}, n = x.toNat → UInt8.ofNat n = x := by
    rintro x n rfl
    exact UInt8.ofNat_toNat
  match p with
  | [] => rfl
  | [a] =>
    have ha := a.toNat_lt
    change [UInt8.ofNat (bits [a] >>> 16 &&& 0xFF)] = [a]
    rw [hbyte, hval]
    simp [bits]
  | [a, b] =>
    have ha := a.toNat_lt
    have hb := b.toNat_lt
    change [UInt8.ofNat (bits [a, b] >>> 16 &&& 0xFF), UInt8.ofNat (bits [a, b] >>> 8 &&& 0xFF)] =
      [a, b]
    rw [hbyte, hbyte, hval, hval]
    · simp [bits]
      omega
    · simp [bits]
      omega
  | a :: b :: c :: p =>
    have ha := a.toNat_lt
    have hb := b.toNat_lt
    have hc := c.toNat_lt
    have hbits : bits (a :: b :: c :: p) = a.toNat * 65536 + b.toNat * 256 + c.toNat := rfl
    have hlen : min 3 (a :: b :: c :: p).length = 3 := by simp
    rw [hlen]
    change [UInt8.ofNat (bits (a :: b :: c :: p) >>> 16 &&& 0xFF),
      UInt8.ofNat (bits (a :: b :: c :: p) >>> 8 &&& 0xFF),
      UInt8.ofNat (bits (a :: b :: c :: p) >>> 0 &&& 0xFF)] = [a, b, c]
    rw [hbyte, hbyte, hbyte, hbits, @hval a _ (by omega), @hval b _ (by omega),
      @hval c _ (by omega)]

/-! ## The whole text read back -/

theorem decodeLoop_eq {file : List UInt8} {q : Quartet}
    (hq : quartet lookup unget 0 0 18 0 file = some q) :
    decodeLoop lookup unget false file =
      if q.ix = 0 then some ([], q.rest)
      else (decodeLoop lookup unget q.gotEOF q.rest).map
        fun p => (put3 q.ix q.oint ++ p.1, p.2) := by
  rw [decodeLoop]
  simp only [Bool.false_eq_true, if_false]
  split
  · rename_i hnone
    rw [hq] at hnone
    cases hnone
  · rename_i q' hsome
    rw [hq] at hsome
    cases hsome
    rfl

theorem quartet_lf (h : Reads lookup) (file : List UInt8) :
    quartet lookup unget 0 0 18 0 (LF :: file) = quartet lookup unget 0 0 18 0 file := by
  rw [quartet, if_neg (by omega), h.lf]

theorem quartet_brk (h : Reads lookup) (withnl : Bool) (ocol : Nat) (file : List UInt8) :
    quartet lookup unget 0 0 18 0 (brk withnl ocol ++ file) =
      quartet lookup unget 0 0 18 0 file := by
  unfold brk
  split
  · exact quartet_lf h file
  · rfl

/-- The decoders undo `strtoB64`, from any column on. -/
theorem decodeLoop_strtoB64 (h : Reads lookup) (withnl : Bool) (ocol : Nat) (str : List UInt8) :
    decodeLoop lookup unget false (strtoB64.loop withnl false ocol str) = some (str, []) := by
  induction hn : str.length using Nat.strong_induction_on generalizing str ocol with
  | _ n ih =>
    by_cases hne : str = []
    · have hq : quartet lookup unget 0 0 18 0 (strtoB64.loop withnl false ocol str) =
          some ⟨0, 0, true, []⟩ := by
        rw [hne, strtoB64.loop_nil]
        split
        · exact quartet_lf h []
        · rfl
      rw [decodeLoop_eq hq, if_pos rfl, hne]
    · have hpos := List.length_pos_iff.mpr hne
      have hlt : (str.drop 3).length < n := by
        rw [List.length_drop]
        omega
      have hix : min 3 str.length + 1 ≠ 0 := by omega
      rw [strtoB64.loop_cons withnl ocol hne, List.append_assoc]
      have hq := @quartet_put4 lookup unget (strtoB64.loop withnl false (col ocol) (str.drop 3)) h
        str hne
      rw [← quartet_brk h withnl ocol] at hq
      rw [decodeLoop_eq hq, if_neg hix, ih _ hlt (col ocol) (str.drop 3) rfl]
      simp only [Option.map_some, put3_bits, List.take_append_drop]

end

/-! ## Lines -/

theorem lf_not_mem_put4 (ix oint : Nat) : LF ∉ put4 ix oint := by
  have hch : ∀ o < 64, B64CH.getD o 0 ≠ LF := by decide +kernel
  unfold put4
  rw [List.mem_append, not_or]
  constructor
  · rw [List.mem_map]
    rintro ⟨ox, -, hox⟩
    rw [six_eq] at hox
    exact hch _ (Nat.mod_lt _ (by omega)) hox
  · intro hmem
    cases List.eq_of_mem_replicate hmem

theorem length_put4 {ix : Nat} (h : ix ≤ 3) (oint : Nat) : (put4 ix oint).length = 4 := by
  unfold put4
  rw [List.length_append, List.length_map, List.length_range, List.length_replicate]
  omega

/-- A line is at most 75 characters long, where the part of it that is written is. -/
theorem lines_strtoB64 (ocol : Nat) (str cur : List UInt8) (hlf : LF ∉ cur)
    (hcur : cur.length = ocol) (hcol : ocol ≤ 75) :
    ∀ l ∈ segments LF (cur ++ strtoB64.loop true false ocol str), l.length ≤ 76 := by
  induction hn : str.length using Nat.strong_induction_on generalizing str ocol cur with
  | _ n ih =>
    by_cases hne : str = []
    · rw [hne, strtoB64.loop_nil]
      split
      · rw [segments_append_sep hlf]
        intro l hl
        rcases List.mem_cons.mp hl with rfl | hl
        · omega
        · rw [segments_of_not_mem List.not_mem_nil, List.mem_singleton] at hl
          rw [hl]
          exact Nat.zero_le _
      · rw [List.append_nil, segments_of_not_mem hlf]
        intro l hl
        rw [List.mem_singleton.mp hl]
        omega
    · have hpos := List.length_pos_iff.mpr hne
      have hlt : (str.drop 3).length < n := by
        rw [List.length_drop]
        omega
      have hput := lf_not_mem_put4 (min 3 str.length) (bits str)
      have hlen := length_put4 (Nat.min_le_left 3 str.length) (bits str)
      rw [strtoB64.loop_cons true ocol hne]
      unfold brk col
      by_cases hwrap : 71 < ocol
      · rw [if_pos ⟨hwrap, rfl⟩, if_pos hwrap, List.append_assoc, List.singleton_append,
          segments_append_sep hlf]
        intro l hl
        rcases List.mem_cons.mp hl with rfl | hl
        · omega
        · exact ih _ hlt 4 (str.drop 3) _ hput hlen (by omega) rfl l hl
      · rw [if_neg (fun hand => hwrap hand.1), if_neg hwrap, List.nil_append, ← List.append_assoc]
        apply ih _ hlt (ocol + 4) (str.drop 3) _ _ _ (by omega) rfl
        · rw [List.mem_append, not_or]
          exact ⟨hlf, hput⟩
        · rw [List.length_append, hcur, hlen]

/-- The encoders agree, their lines are short, and both decoders undo them. -/
theorem base64_there_and_back (x : List UInt8) :
    (∀ leng, leng = 0 ∨ x.length ≤ leng → strtoB64 x true = MIME_to64X x leng) ∧
      (∀ l ∈ segments LF (strtoB64 x true), l.length ≤ 76) ∧
      ∀ withnl, B64tostr (strtoB64 x withnl) = some x ∧
        MIME_from64 (strtoB64 x withnl) = some (x, []) := by
  refine ⟨?_, ?_, ?_⟩
  · intro leng hleng
    unfold strtoB64 MIME_to64X
    rw [encoders_same]
    right
    unfold Whole
    omega
  · exact lines_strtoB64 0 x [] List.not_mem_nil rfl (Nat.zero_le _)
  · intro withnl
    unfold B64tostr MIME_from64 strtoB64
    rw [decodeLoop_strtoB64 reads_str, decodeLoop_strtoB64 reads_file]
    exact ⟨rfl, rfl⟩

end delegate.mimecodes
