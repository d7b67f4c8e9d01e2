-- The streams and the state of the encoder and the decoder of headers
-- (mimekit/mimehead.cpp): line ends, the characters with their charset, and
-- the buffer of the characters that are pushed back.
import Mathlib

namespace delegate.mimehead

/-! ## Characters -/

def EOF : Int := -1
def NL : Int := 10
def CR : Int := 13
def TAB : Int := 9
def SPACE : Int := 32
def ESC : Int := 27
def FORMFEED : Int := 12

def NLNL : Int := -2147483647
def XC_EN_FOLD : Int := -2147483646

def LWSP_CHAR (ch : Int) : Bool := ch == TAB || ch == SPACE

/-- The byte of a character. -/
def byte (ch : Int) : UInt8 := UInt8.ofNat (ch % 256).toNat

/-- `SPECIALS`, with the byte after it that `strchr` finds too. -/
def SPECIALS : List UInt8 := [40, 41, 60, 62, 64, 44, 59, 58, 92, 34, 46, 91, 93, 0]

def DELIMITER (ch : Int) : Bool := ch == NL || LWSP_CHAR ch || SPECIALS.contains (byte ch)

/-! ## Charsets -/

inductive MCharset
  | M_US_ASCII
  | M_ISO_2022_JP
  | M_UTF_8
  | M_EUC_JP
  | M_SHIFT_JIS
  deriving DecidableEq

/-- `ENCODE_BASE64` and `ENCODE_QP`. -/
inductive Encoding
  | B
  | Q
  deriving DecidableEq

/-- A switch of the charset. -/
structure MimeCharset where
  codesw : Int
  mcharset : MCharset
  basic_charset : Nat
  encoding : Option Encoding

def B_US_ASCII : Nat := 1
def B_JP_ASCII : Nat := 2
def B_JP_KANJI1 : Nat := 3
def B_JP_KANJI2 : Nat := 4
def B_UCS_2 : Nat := 5
def B_EUC_JP : Nat := 6
def B_SHIFT_JIS : Nat := 7
def B_M17N : Nat := 8

def Codes1 : List MimeCharset :=
  [⟨66, .M_US_ASCII, B_US_ASCII, none⟩, ⟨74, .M_US_ASCII, B_JP_ASCII, none⟩]

def Codes2 : List MimeCharset :=
  [⟨64, .M_ISO_2022_JP, B_JP_KANJI1, some .B⟩, ⟨66, .M_ISO_2022_JP, B_JP_KANJI2, some .B⟩,
    ⟨0, .M_UTF_8, B_UCS_2, some .B⟩, ⟨0, .M_EUC_JP, B_EUC_JP, some .B⟩,
    ⟨0, .M_SHIFT_JIS, B_SHIFT_JIS, some .B⟩]

/-- `DELSP_OP`: the column `delspace` of `BasicCharsets`. -/
def DELSP_OP (bset : Nat) : Nat :=
  if bset = B_JP_ASCII then 3
  else if bset = B_JP_KANJI1 then 1
  else if bset = B_JP_KANJI2 then 2
  else 0

structure CHARx where
  c_ch : Int
  c_mcharset : MCharset
  c_bcharset : Nat
  c_encoding : Option Encoding
  deriving DecidableEq

def NULL_CHAR : CHARx := ⟨0, .M_US_ASCII, B_US_ASCII, none⟩

/-! ## The buffer of pushed characters -/

/-- `RRBUFF`, of `RRBUFF_SIZE` slots. -/
structure RRBUFF where
  b_BUFF : Fin 8 → CHARx
  b_putx : Fin 8
  b_getx : Fin 8

def NULL_RRBUFF : RRBUFF := ⟨fun _ => ⟨0, .M_US_ASCII, 0, none⟩, 0, 0⟩

/-- `GET_RRBUFF` -/
def RRBUFF.get (b : RRBUFF) : Option (CHARx × RRBUFF) :=
  if b.b_putx = b.b_getx then none
  else some (b.b_BUFF (b.b_getx + 1), { b with b_getx := b.b_getx + 1 })

/-- The push of `EN_UNGETC`. -/
def RRBUFF.push (b : RRBUFF) (CH : CHARx) : RRBUFF :=
  { b with b_BUFF := Function.update b.b_BUFF b.b_getx CH, b_getx := b.b_getx - 1 }

/-- Nothing is pushed. -/
def RRBUFF.Empty (b : RRBUFF) : Prop := b.b_putx = b.b_getx

@[simp] theorem RRBUFF.get_empty {b : RRBUFF} (h : b.Empty) : b.get = none := if_pos h

/-- What is pushed into an empty buffer is got back. -/
theorem RRBUFF.get_push {b : RRBUFF} (h : b.Empty) (CH : CHARx) :
    ∃ b', (b.push CH).get = some (CH, b') ∧ b'.Empty := by
  have hne : b.b_putx ≠ b.b_getx - 1 := by
    rw [h]
    intro heq
    have hone : (1 : Fin 8) = 0 := by
      calc (1 : Fin 8) = b.b_getx - (b.b_getx - 1) := by rw [sub_sub_cancel]
        _ = 0 := by rw [← heq, sub_self]
    exact absurd hone (by simp)
  refine ⟨{ b with b_BUFF := Function.update b.b_BUFF b.b_getx CH }, ?_, h⟩
  unfold RRBUFF.get RRBUFF.push
  simp only [if_neg hne, sub_add_cancel, Function.update_self]

/-! ## Input and output -/

/-- `INOUT`, with the input that is left, the output so far, and the static `end_CRLF`. -/
structure INOUT where
  in_file : List UInt8
  end_CRLF : Bool
  in_column : Int
  in_charcode8B : Option MCharset
  in_mcharset : MCharset
  in_bcharset : Nat
  in_bcharset_got : Bool
  in_encoding : Option Encoding
  in_prevch : Int
  in_PUSHED : RRBUFF
  out_file : List UInt8
  out_column : Int
  out_lastputch : Int
  out_whichASCII : Nat
  out_enLWSP : Int
  out_prevCHAR : CHARx
  out_deLWSP : CHARx × CHARx
  out_prev_bcharset : Nat
  MIME_ENCODED : Bool
  EAT_SPACE : Nat
  UNFOLD_LINE : Bool
  IGN_POST_SPACE : Bool
  SPACE_WAS_GEN : Bool
  AFTER_EWORD : Bool

def INOUT_init (input : List UInt8) (end_CRLF : Bool) : INOUT where
  in_file := input
  end_CRLF := end_CRLF
  in_column := 0
  in_charcode8B := none
  in_mcharset := .M_US_ASCII
  in_bcharset := B_US_ASCII
  in_bcharset_got := false
  in_encoding := none
  in_prevch := EOF
  in_PUSHED := NULL_RRBUFF
  out_file := []
  out_column := 0
  out_lastputch := 0
  out_whichASCII := B_US_ASCII
  out_enLWSP := 0
  out_prevCHAR := NULL_CHAR
  out_deLWSP := (NULL_CHAR, NULL_CHAR)
  out_prev_bcharset := B_US_ASCII
  MIME_ENCODED := false
  EAT_SPACE := 0
  UNFOLD_LINE := false
  IGN_POST_SPACE := false
  SPACE_WAS_GEN := false
  AFTER_EWORD := false

def fgetc (io : INOUT) : Int × INOUT :=
  match io.in_file with
  | [] => (EOF, io)
  | c :: rest => (c.toNat, { io with in_file := rest })

def ungetc (ch : Int) (io : INOUT) : INOUT := { io with in_file := byte ch :: io.in_file }

def fputc (ch : Int) (io : INOUT) : INOUT := { io with out_file := io.out_file ++ [byte ch] }

def NLfgetc (io : INOUT) : Int × INOUT :=
  let (ch, io) := fgetc io
  if ch = CR then
    let (ch, io) := fgetc io
    if ch = NL then (NL, { io with end_CRLF := true })
    else (CR, if ch ≠ EOF then ungetc ch io else io)
  else if ch = NL then (NL, { io with end_CRLF := false })
  else (ch, io)

def NLfputc (ch : Int) (io : INOUT) : INOUT :=
  fputc ch (if ch = NL ∧ io.end_CRLF = true then fputc CR io else io)

/-! ## Texts with one kind of line ends -/

/-- A line end as it is written. -/
def eol (crlf : Bool) : List UInt8 := if crlf then [13, 10] else [10]

/-- A text, where 10 is a line end, as its bytes. -/
def bytes (crlf : Bool) (s : List UInt8) : List UInt8 :=
  s.flatMap fun c => if c = 10 then eol crlf else [c]

@[simp] theorem bytes_nil (crlf : Bool) : bytes crlf [] = [] := rfl

theorem bytes_cons (crlf : Bool) (c : UInt8) (s : List UInt8) :
    bytes crlf (c :: s) = (if c = 10 then eol crlf else [c]) ++ bytes crlf s := List.flatMap_cons

@[simp] theorem bytes_append (crlf : Bool) (s t : List UInt8) :
    bytes crlf (s ++ t) = bytes crlf s ++ bytes crlf t := List.flatMap_append

/-- Where lines end in LF, no CR is before a line end. -/
def Uniform (crlf : Bool) (s : List UInt8) : Prop := crlf = false → ¬ [13, 10] <:+: s

theorem Uniform.tail {crlf : Bool} {c : UInt8} {s : List UInt8} (h : Uniform crlf (c :: s)) :
    Uniform crlf s :=
  fun hlf hcr => h hlf (hcr.trans (List.suffix_cons c s).isInfix)

@[simp] theorem byte_toNat (c : UInt8) : byte (c.toNat : Int) = c := by
  unfold byte
  have hlt := c.toNat_lt
  rw [show ((c.toNat : Int) % 256).toNat = c.toNat by omega, UInt8.ofNat_toNat]

theorem toNat_eq_iff (c : UInt8) (n : Nat) (hn : n < 256) : (c.toNat : Int) = n ↔ c = UInt8.ofNat n := by
  constructor
  · intro h
    rw [← UInt8.ofNat_toNat (x := c)]
    congr 1
    omega
  · rintro rfl
    rw [UInt8.toNat_ofNat_of_lt' hn]

theorem fgetc_cons {i : INOUT} {c : UInt8} {rest : List UInt8} (h : i.in_file = c :: rest) :
    fgetc i = ((c.toNat : Int), { i with in_file := rest }) := by
  unfold fgetc
  rw [h]

theorem fgetc_nil {i : INOUT} (h : i.in_file = []) : fgetc i = (EOF, i) := by
  unfold fgetc
  rw [h]

/-- A character that is no line end and no CR is read as it is. -/
theorem NLfgetc_other {io : INOUT} {c : UInt8} {rest : List UInt8} (h : io.in_file = c :: rest)
    (hlf : c ≠ 10) (hcr : c ≠ 13) :
    NLfgetc io = ((c.toNat : Int), { io with in_file := rest }) := by
  have hCR : (c.toNat : Int) ≠ CR := fun heq => hcr ((toNat_eq_iff c 13 (by omega)).mp heq)
  have hNL : (c.toNat : Int) ≠ NL := fun heq => hlf ((toNat_eq_iff c 10 (by omega)).mp heq)
  unfold NLfgetc
  rw [fgetc_cons h]
  simp only [if_neg hCR, if_neg hNL]

/-- A CR is read as it is, unless a line feed is after it. -/
theorem NLfgetc_CR {io : INOUT} {rest : List UInt8} (h : io.in_file = 13 :: rest)
    (hrest : rest.head? ≠ some 10) : NLfgetc io = (CR, { io with in_file := rest }) := by
  unfold NLfgetc
  rw [fgetc_cons h]
  dsimp only
  cases rest with
  | nil =>
    rw [fgetc_nil (i := { io with in_file := [] }) rfl]
    simp [CR, NL, EOF]
  | cons d rest =>
    have hNL : (d.toNat : Int) ≠ NL := by
      intro heq
      rw [(toNat_eq_iff d 10 (by omega)).mp heq] at hrest
      exact hrest rfl
    have hEOF : (d.toNat : Int) ≠ EOF := by
      unfold EOF
      omega
    rw [fgetc_cons (i := { io with in_file := d :: rest }) rfl]
    simp [CR, hNL, hEOF, ungetc]

theorem NLfgetc_LF {io : INOUT} {rest : List UInt8} (h : io.in_file = 10 :: rest) :
    NLfgetc io = (NL, { io with in_file := rest, end_CRLF := false }) := by
  unfold NLfgetc
  rw [fgetc_cons h]
  simp [CR, NL]

theorem NLfgetc_CRLF {io : INOUT} {rest : List UInt8} (h : io.in_file = 13 :: 10 :: rest) :
    NLfgetc io = (NL, { io with in_file := rest, end_CRLF := true }) := by
  unfold NLfgetc
  rw [fgetc_cons h]
  dsimp only
  rw [fgetc_cons (i := { io with in_file := 10 :: rest }) rfl]
  simp [CR, NL]

theorem NLfgetc_nil {io : INOUT} (h : io.in_file = []) : NLfgetc io = (EOF, io) := by
  unfold NLfgetc
  rw [fgetc_nil h]
  simp [EOF, CR, NL]

/-- The first byte of a text is no line feed if lines end in CR LF, or if it is none itself. -/
theorem head_bytes {crlf : Bool} {s rest : List UInt8} (h : crlf = true ∨ s.head? ≠ some 10)
    (hrest : s = [] → rest = []) : (bytes crlf s ++ rest).head? ≠ some 10 := by
  cases s with
  | nil => simp [hrest rfl]
  | cons d s =>
    rw [bytes_cons]
    by_cases hd : d = 10
    · subst hd
      rcases h with rfl | h
      · simp [eol]
      · exact absurd rfl h
    · simp [hd]

/-- A character of a text is read as it is, and a line end as `NL`. -/
theorem NLfgetc_bytes {crlf : Bool} {c : UInt8} {s rest : List UInt8} {io : INOUT}
    (hin : io.in_file = bytes crlf (c :: s) ++ rest) (hu : Uniform crlf (c :: s))
    (hrest : c = 13 → s = [] → rest = []) :
    NLfgetc io = ((c.toNat : Int), { io with
      in_file := bytes crlf s ++ rest, end_CRLF := if c = 10 then crlf else io.end_CRLF }) := by
  rw [bytes_cons] at hin
  by_cases hlf : c = 10
  · subst hlf
    rw [if_pos rfl]
    cases crlf with
    | false => exact NLfgetc_LF hin
    | true => exact NLfgetc_CRLF hin
  · rw [if_neg hlf] at hin ⊢
    by_cases hcr : c = 13
    · subst hcr
      refine NLfgetc_CR hin (head_bytes ?_ (hrest rfl))
      cases crlf with
      | true => exact .inl rfl
      | false =>
        right
        intro hhead
        obtain ⟨t, rfl⟩ := List.head?_eq_some_iff.mp hhead
        exact hu rfl ⟨[], t, rfl⟩
    · exact NLfgetc_other hin hlf hcr

end delegate.mimehead
