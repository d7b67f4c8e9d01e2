-- Which texts without encoded words the decoder of headers (mimekit/mimehead.cpp) gives back: at
-- most two blanks are held, and a word that turns out incomplete is written as it was read.
import Delegate.HeaderDecode

namespace delegate.mimehead

/-! ## Blanks that are held -/

def Blank (c : UInt8) : Prop := c = 9 ∨ c = 32

instance (c : UInt8) : Decidable (Blank c) := inferInstanceAs (Decidable (c = 9 ∨ c = 32))

/-- A character as it is held. -/
def ascii (c : UInt8) : CHARx := ⟨c.toNat, .M_US_ASCII, B_US_ASCII, none⟩

/-- The slots of `out_deLWSP` that are in use: a blank or a line end, and a blank after it. -/
inductive Holds : CHARx × CHARx → List UInt8 → Prop
  | none {A B : CHARx} (hA : A.c_ch = 0) : Holds (A, B) []
  | one {b : UInt8} {B : CHARx} (hb : b = 10 ∨ Blank b) (hB : B.c_ch = 0) : Holds (ascii b, B) [b]
  | two {b c : UInt8} (hb : b = 10 ∨ Blank b) (hc : Blank c) : Holds (ascii b, ascii c) [b, c]

variable {H : CHARx × CHARx} {p s t u : List UInt8} {c : UInt8} {stop : Stop}

theorem Holds.empty (h : Holds H []) : H.1.c_ch = 0 := by
  cases h with
  | none hA => exact hA

theorem Holds.first {b : UInt8} {q : List UInt8} (h : Holds H (b :: q)) :
    H.1 = ascii b ∧ (b = 10 ∨ Blank b) := by
  cases h with
  | one hb hB => exact ⟨rfl, hb⟩
  | two hb hc => exact ⟨rfl, hb⟩

/-- No encoded word was decoded. -/
structure Quiet (io : INOUT) : Prop where
  encoded : io.MIME_ENCODED = false
  ignore : io.IGN_POST_SPACE = false
  after : io.AFTER_EWORD = false
  ascii : io.out_whichASCII = B_US_ASCII
  prev : io.out_prev_bcharset = B_US_ASCII

/-- The output grows by `w`, and `held` is what the slots have then. -/
structure Puts (io io' : INOUT) (w : List UInt8) (held : CHARx × CHARx) : Prop where
  quiet : Quiet io'
  out : io'.out_file = io.out_file ++ w
  held : io'.out_deLWSP = held
  file : io'.in_file = io.in_file
  ends : io'.end_CRLF = io.end_CRLF
  prevch : io'.in_prevch = io.in_prevch
  unfold : io'.UNFOLD_LINE = io.UNFOLD_LINE

theorem Puts.refl {io : INOUT} (h : Quiet io) : Puts io io [] io.out_deLWSP :=
  ⟨h, (List.append_nil _).symm, rfl, rfl, rfl, rfl, rfl⟩

theorem Puts.trans {a b c : INOUT} {v w : List UInt8} {K : CHARx × CHARx} (hab : Puts a b v H)
    (hbc : Puts b c w K) : Puts a c (v ++ w) K :=
  ⟨hbc.quiet, by rw [hbc.out, hab.out, List.append_assoc], hbc.held, hbc.file.trans hab.file,
    hbc.ends.trans hab.ends, hbc.prevch.trans hab.prevch, hbc.unfold.trans hab.unfold⟩

theorem Puts.clear {a b : INOUT} {w : List UInt8} (h : Puts a b w H) :
    Puts a (CLEAR_LWSP b) w ({ H.1 with c_ch := 0 }, H.2) := by
  obtain ⟨hq, hout, rfl, hfile, hends, hprev, hunfold⟩ := h
  exact ⟨⟨hq.encoded, hq.ignore, hq.after, hq.ascii, hq.prev⟩, hout, rfl, hfile, hends, hprev,
    hunfold⟩

theorem toNat_eq_NL (c : UInt8) : (c.toNat : Int) = NL ↔ c = 10 := toNat_eq_iff c 10 (by omega)

theorem LWSP_CHAR_iff (c : UInt8) : LWSP_CHAR c.toNat = true ↔ Blank c := by
  have htab : (c.toNat : Int) = TAB ↔ c = 9 := toNat_eq_iff c 9 (by omega)
  have hspace : (c.toNat : Int) = SPACE ↔ c = 32 := toNat_eq_iff c 32 (by omega)
  unfold LWSP_CHAR Blank
  rw [Bool.or_eq_true, beq_iff_eq, beq_iff_eq, htab, hspace]

theorem ascii_ne_zero {b : UInt8} (hb : b = 10 ∨ Blank b) : (ascii b).c_ch ≠ 0 := by
  rcases hb with rfl | rfl | rfl <;> decide

theorem ascii_eq_NL (b : UInt8) : (ascii b).c_ch = NL ↔ b = 10 := toNat_eq_NL b

theorem DE_FPUTC1X_ascii {io : INOUT} (h : Quiet io) (c : UInt8) :
    Puts io (DE_FPUTC1X (ascii c) io) (bytes io.end_CRLF [c]) io.out_deLWSP := by
  have hsp : (c.toNat : Int) ≠ XC_DE_EWORD_SP := by
    unfold XC_DE_EWORD_SP
    omega
  have htab : (c.toNat : Int) ≠ XC_DE_EWORD_TAB := by
    unfold XC_DE_EWORD_TAB
    omega
  have hflush : (c.toNat : Int) ≠ XC_DE_OFLUSH := by
    unfold XC_DE_OFLUSH
    omega
  have hset : ¬ B_US_ASCII ≠ io.out_prev_bcharset := by simp [h.prev]
  unfold DE_FPUTC1X ascii
  dsimp only
  rw [if_neg hsp, if_neg htab, if_neg hset, if_neg (not_or.mpr ⟨toNat_ne_EOF c, hflush⟩),
    NLfputc_out, put_toNat]
  refine ⟨⟨h.encoded, h.ignore, rfl, h.ascii, h.prev⟩, ?_, rfl, rfl, rfl, rfl, rfl⟩
  rw [bytes_cons, bytes_nil, List.append_nil]

/-- `EOF` and `XC_DE_OFLUSH` are not written. -/
theorem DE_FPUTC1X_none {io : INOUT} (h : Quiet io) {ch : Int}
    (hch : ch = EOF ∨ ch = XC_DE_OFLUSH) :
    Puts io (DE_FPUTC1X (inASCII ch io) io) [] io.out_deLWSP := by
  have hsp : ch ≠ XC_DE_EWORD_SP := by
    rcases hch with rfl | rfl <;> decide
  have htab : ch ≠ XC_DE_EWORD_TAB := by
    rcases hch with rfl | rfl <;> decide
  have hset : ¬ io.out_whichASCII ≠ io.out_prev_bcharset := by simp [h.prev, h.ascii]
  unfold DE_FPUTC1X inASCII
  dsimp only
  rw [if_neg hsp, if_neg htab, if_neg hset, if_pos hch]
  exact ⟨⟨h.encoded, h.ignore, rfl, h.ascii, h.prev⟩, (List.append_nil _).symm, rfl, rfl, rfl, rfl,
    rfl⟩

/-- All that is held is written. -/
theorem flush_puts {io : INOUT} (h : Quiet io) (hp : Holds io.out_deLWSP p) :
    ∃ H, H.1.c_ch = 0 ∧ Puts io (DE_FPUTCX.flush io) (bytes io.end_CRLF p) H := by
  unfold DE_FPUTCX.flush
  generalize hslots : io.out_deLWSP = slots at hp
  cases hp with
  | none hA =>
    rw [if_pos hA, bytes_nil]
    exact ⟨io.out_deLWSP, by rw [hslots]; exact hA, Puts.refl h⟩
  | @one b B hb hB =>
    have hput := DE_FPUTC1X_ascii h b
    rw [if_neg (ascii_ne_zero hb)]
    dsimp only
    rw [hput.held, hslots, if_pos hB]
    exact ⟨_, rfl, hput.clear⟩
  | @two b c hb hc =>
    have hput := DE_FPUTC1X_ascii h b
    have hnext := DE_FPUTC1X_ascii hput.quiet c
    rw [if_neg (ascii_ne_zero hb)]
    dsimp only
    rw [hput.held, hslots, if_neg (ascii_ne_zero (.inr hc))]
    rw [hput.ends] at hnext
    rw [show [b, c] = [b] ++ [c] from rfl, bytes_append]
    exact ⟨_, rfl, (hput.trans hnext).clear⟩

/-- A character is no code of the decoder. -/
def Common (ch : Int) : Prop := EOF ≤ ch ∨ ch = XC_DE_OFLUSH

theorem common_toNat (c : UInt8) : Common c.toNat := .inl (by unfold EOF; omega)

theorem DE_FPUTC_common {io : INOUT} (h : Quiet io) {ch : Int} (hch : Common ch) :
    DE_FPUTC ch io =
      if io.out_deLWSP.1.c_ch ≠ 0 ∧ (ch = NL ∨ LWSP_CHAR ch) then
        DE_FPUTCX.hold (inASCII ch io) io
      else if (DE_FPUTCX.flush io).UNFOLD_LINE ∧ (ch = NL ∨ LWSP_CHAR ch) then
        { DE_FPUTCX.flush io with
          out_deLWSP := (inASCII ch io, { (DE_FPUTCX.flush io).out_deLWSP.2 with c_ch := 0 }) }
      else DE_FPUTC1X (inASCII ch io) (DE_FPUTCX.flush io) := by
  have hlwsp : ¬ (io.IGN_POST_SPACE = true ∧ LWSP_CHAR ch = true) := by simp [h.ignore]
  have hbyte : ¬ (io.IGN_POST_SPACE = true ∧ 0 ≤ ch ∧ ch ≤ 255) := by simp [h.ignore]
  have hnot : ∀ code : Int, code < EOF → code ≠ XC_DE_OFLUSH → ch ≠ code := by
    rintro code hlt hne rfl
    rcases hch with hle | heq
    · omega
    · exact hne heq
  unfold DE_FPUTC DE_FPUTCX
  dsimp only [inASCII]
  rw [if_neg (hnot XC_DE_DEL_LWSP (by decide) (by decide)),
    if_neg (hnot XC_DE_IGN_LWSP (by decide) (by decide)), if_neg hlwsp, if_neg hbyte,
    if_neg (hnot XC_DE_AFTER_EWORD (by decide) (by decide)),
    if_neg (hnot XC_DE_CATENATE (by decide) (by decide)),
    if_neg (hnot XC_DE_UNFOLD (by decide) (by decide)),
    if_neg (hnot XC_DE_FORMFEED (by decide) (by decide)),
    if_neg (hnot XC_DE_FIELD_TOP (by decide) (by decide))]

theorem inASCII_quiet {io : INOUT} (h : Quiet io) (c : UInt8) : inASCII c.toNat io = ascii c := by
  unfold inASCII ascii
  rw [h.ascii]

theorem not_blank (hc : ¬ (c = 10 ∨ Blank c)) :
    ¬ ((c.toNat : Int) = NL ∨ LWSP_CHAR c.toNat = true) := by
  rwa [toNat_eq_NL, LWSP_CHAR_iff]

/-- A character is written after what is held. -/
theorem DE_FPUTC_char {io : INOUT} (h : Quiet io) (hp : Holds io.out_deLWSP p)
    (hc : ¬ (c = 10 ∨ Blank c)) :
    ∃ H, H.1.c_ch = 0 ∧ Puts io (DE_FPUTC c.toNat io) (bytes io.end_CRLF p ++ [c]) H := by
  obtain ⟨H, hH, hflush⟩ := flush_puts h hp
  have hput := DE_FPUTC1X_ascii hflush.quiet c
  rw [bytes_cons, if_neg fun hlf => hc (.inl hlf), bytes_nil, List.append_nil, hflush.held] at hput
  rw [DE_FPUTC_common h (common_toNat c), if_neg fun hand => not_blank hc hand.2,
    if_neg fun hand => not_blank hc hand.2, inASCII_quiet h]
  exact ⟨H, hH, hflush.trans hput⟩

/-- What is held is written, and nothing after it. -/
theorem DE_FPUTC_none {io : INOUT} (h : Quiet io) (hp : Holds io.out_deLWSP p) {ch : Int}
    (hch : ch = EOF ∨ ch = XC_DE_OFLUSH) :
    ∃ H, H.1.c_ch = 0 ∧ Puts io (DE_FPUTC ch io) (bytes io.end_CRLF p) H := by
  obtain ⟨H, hH, hflush⟩ := flush_puts h hp
  have hput := DE_FPUTC1X_none hflush.quiet hch
  have hblank : ¬ (ch = NL ∨ LWSP_CHAR ch = true) := by
    rcases hch with rfl | rfl <;> decide
  have hcommon : Common ch := hch.imp (fun h => h.ge) id
  have hascii : inASCII ch io = inASCII ch (DE_FPUTCX.flush io) := by
    unfold inASCII
    rw [h.ascii, hflush.quiet.ascii]
  rw [DE_FPUTC_common h hcommon, if_neg fun hand => hblank hand.2,
    if_neg fun hand => hblank hand.2, hascii]
  have htrans := hflush.trans hput
  rw [List.append_nil, hflush.held] at htrans
  exact ⟨H, hH, htrans⟩

/-- What is written and what is held when a blank or a line end comes. -/
def heldAfter (p : List UInt8) (c : UInt8) : List UInt8 × List UInt8 :=
  match p with
  | [] => ([], [c])
  | b :: _ => if c ≠ 10 then ([], [b, c]) else if b = 10 then ([], p) else ([b], [10])

theorem DE_FPUTC_blank {io : INOUT} (h : Quiet io) (hp : Holds io.out_deLWSP p)
    (hunfold : io.UNFOLD_LINE = true) (hc : c = 10 ∨ Blank c) :
    ∃ H, Holds H (heldAfter p c).2 ∧ Puts io (DE_FPUTC c.toNat io) (heldAfter p c).1 H := by
  have hblank : (c.toNat : Int) = NL ∨ LWSP_CHAR c.toNat = true := by
    rwa [toNat_eq_NL, LWSP_CHAR_iff]
  rw [DE_FPUTC_common h (common_toNat c), inASCII_quiet h]
  by_cases hempty : p = []
  · subst hempty
    obtain ⟨H, hH, hflush⟩ := flush_puts h hp
    rw [if_neg fun hand => hand.1 hp.empty, if_pos ⟨hflush.unfold.trans hunfold, hblank⟩]
    obtain ⟨hq, hout, -, hfile, hends, hprev, hunf⟩ := hflush
    exact ⟨_, .one hc rfl, ⟨hq.encoded, hq.ignore, hq.after, hq.ascii, hq.prev⟩, hout, rfl, hfile,
      hends, hprev, hunf⟩
  · obtain ⟨b, q, rfl⟩ := List.exists_cons_of_ne_nil hempty
    obtain ⟨hascii, hb⟩ := hp.first
    have hne : io.out_deLWSP.1.c_ch ≠ 0 := by
      rw [hascii]
      exact ascii_ne_zero hb
    rw [if_pos ⟨hne, hblank⟩]
    unfold DE_FPUTCX.hold
    rw [hascii]
    by_cases hlf : c = 10
    · have hNL := (ascii_eq_NL c).mpr hlf
      by_cases hblf : b = 10
      · rw [if_pos ⟨hNL, (ascii_eq_NL b).mpr hblf⟩, heldAfter, if_neg (by simpa using hlf),
          if_pos hblf]
        exact ⟨io.out_deLWSP, hp, Puts.refl h⟩
      · have hput := DE_FPUTC1X_ascii h b
        rw [bytes_cons, if_neg hblf, bytes_nil, List.append_nil] at hput
        rw [if_neg fun hand => hblf ((ascii_eq_NL b).mp hand.2), if_pos hNL, heldAfter,
          if_neg (by simpa using hlf), if_neg hblf, if_neg (by simp [h.after])]
        obtain ⟨hq, hout, -, hfile, hends, hprev, hunf⟩ := hput
        subst hlf
        exact ⟨_, .one (.inl rfl) rfl, ⟨hq.encoded, hq.ignore, hq.after, hq.ascii, hq.prev⟩, hout,
          rfl, hfile, hends, hprev, hunf⟩
    · have hNL : (ascii c).c_ch ≠ NL := by rwa [Ne, ascii_eq_NL]
      rw [if_neg fun hand => hNL hand.1, if_neg hNL, heldAfter, if_pos hlf]
      exact ⟨_, .two hb (hc.resolve_left hlf), ⟨h.encoded, h.ignore, h.after, h.ascii, h.prev⟩,
        (List.append_nil _).symm, rfl, rfl, rfl, rfl, rfl⟩

/-- At the top of a field only a line end is written of what is held. -/
theorem DE_FPUTC_top {io : INOUT} (h : Quiet io) (hp : Holds io.out_deLWSP p) :
    ∃ H, H.1.c_ch = 0 ∧ Puts io (DE_FPUTC XC_DE_FIELD_TOP io)
      (if p.head? = some 10 then bytes io.end_CRLF [10] else []) H := by
  have hrun : DE_FPUTC XC_DE_FIELD_TOP io = CLEAR_LWSP
      (if io.out_deLWSP.1.c_ch = NL then DE_FPUTC1X io.out_deLWSP.1 io else io) := by
    have hlwsp : ¬ (io.IGN_POST_SPACE = true ∧ LWSP_CHAR XC_DE_FIELD_TOP = true) := by
      simp [h.ignore]
    have hbyte : ¬ (io.IGN_POST_SPACE = true ∧ 0 ≤ XC_DE_FIELD_TOP ∧ XC_DE_FIELD_TOP ≤ 255) := by
      simp [h.ignore]
    unfold DE_FPUTC DE_FPUTCX
    dsimp only [inASCII]
    rw [if_neg (by decide), if_neg (by decide), if_neg hlwsp, if_neg hbyte, if_neg (by decide),
      if_neg (by decide), if_neg (by decide), if_neg (by decide), if_pos rfl]
  rw [hrun]
  by_cases hempty : p = []
  · subst hempty
    rw [if_neg (by rw [hp.empty]; decide), List.head?_nil, if_neg (by simp)]
    exact ⟨_, rfl, (Puts.refl h).clear⟩
  · obtain ⟨b, q, rfl⟩ := List.exists_cons_of_ne_nil hempty
    rw [hp.first.1, List.head?_cons]
    by_cases hlf : b = 10
    · rw [if_pos ((ascii_eq_NL b).mpr hlf), if_pos (by rw [hlf]), ← hlf]
      exact ⟨_, rfl, (DE_FPUTC1X_ascii h b).clear⟩
    · rw [if_neg (by rwa [ascii_eq_NL]), if_neg (by simpa using hlf)]
      exact ⟨_, rfl, (Puts.refl h).clear⟩

/-! ## Reading -/

/-- The text that is left, where `k` tells how a line end at its head is read. -/
def fileOf (k crlf : Bool) : List UInt8 → List UInt8
  | [] => []
  | c :: s => bytes k [c] ++ bytes crlf s

theorem fileOf_same (crlf : Bool) (s : List UInt8) : fileOf crlf crlf s = bytes crlf s := by
  cases s with
  | nil => rfl
  | cons c s => rw [fileOf, ← bytes_append, List.singleton_append]

theorem fileOf_other {k crlf : Bool} (h : s.head? ≠ some 10) : fileOf k crlf s = bytes crlf s := by
  cases s with
  | nil => rfl
  | cons c s =>
    have hc : c ≠ 10 := fun heq => h (by rw [heq]; rfl)
    rw [fileOf, bytes_cons, bytes_cons, if_neg hc, if_neg hc, bytes_nil, List.append_nil]

/-- A charset or an encoding. -/
def Part (u : List UInt8) : Prop := 63 ∉ u ∧ 10 ∉ u

/-- A text of plain characters with one kind of line ends, each 10, no two of them together, and
without encoded words. -/
structure HeaderText (crlf : Bool) (s : List UInt8) : Prop where
  plain : PlainText s
  noFF : 12 ∉ s
  uniform : Uniform crlf s
  apart : ¬ [10, 10] <:+: s
  words : ∀ charset encoding text, Part charset → Part encoding → 10 ∉ text →
    ¬ 61 :: 63 :: (charset ++ 63 :: (encoding ++ 63 :: (text ++ [63, 61]))) <:+: s

theorem Uniform.suffix {crlf : Bool} (h : Uniform crlf s) (hs : t <:+ s) :
    Uniform crlf t := fun hlf hcr => h hlf (hcr.trans hs.isInfix)

theorem HeaderText.suffix {crlf : Bool} (h : HeaderText crlf s) (hs : t <:+ s) :
    HeaderText crlf t where
  plain c hc := h.plain c (hs.subset hc)
  noFF hc := h.noFF (hs.subset hc)
  uniform := h.uniform.suffix hs
  apart hlf := h.apart (hlf.trans hs.isInfix)
  words charset encoding text hcs henc htext hword :=
    h.words charset encoding text hcs henc htext (hword.trans hs.isInfix)

theorem NLfgetc_fileOf {k crlf : Bool} {io : INOUT} (hin : io.in_file = fileOf k crlf (c :: s))
    (hu : Uniform crlf (c :: s)) :
    NLfgetc io = ((c.toNat : Int), { io with
      in_file := bytes crlf s, end_CRLF := if c = 10 then k else io.end_CRLF }) := by
  by_cases hlf : c = 10
  · subst hlf
    cases k with
    | false => exact NLfgetc_LF hin
    | true => exact NLfgetc_CRLF hin
  · have hin' : io.in_file = bytes crlf (c :: s) ++ [] := by
      rw [hin, fileOf_other (by simpa using hlf), List.append_nil]
    rw [NLfgetc_bytes hin' hu fun _ _ => rfl, List.append_nil, if_neg hlf, if_neg hlf]

theorem NLfgetc_text {crlf : Bool} {io : INOUT} (hin : io.in_file = bytes crlf (c :: s))
    (hu : Uniform crlf (c :: s)) :
    NLfgetc io = ((c.toNat : Int), { io with
      in_file := bytes crlf s, end_CRLF := if c = 10 then crlf else io.end_CRLF }) :=
  NLfgetc_fileOf (hin.trans (fileOf_same crlf (c :: s)).symm) hu

/-- A character is got, and the output is not touched. -/
structure Gets (io io' : INOUT) (file : List UInt8) (ends : Bool) (prevch : Int) : Prop where
  quiet : Quiet io'
  out : io'.out_file = io.out_file
  held : io'.out_deLWSP = io.out_deLWSP
  file : io'.in_file = file
  ends : io'.end_CRLF = ends
  prevch : io'.in_prevch = prevch
  unfold : io'.UNFOLD_LINE = io.UNFOLD_LINE

/-- What the decoder has written, what it holds, and what is left. -/
structure At (crlf k : Bool) (io : INOUT) (out held left : List UInt8) : Prop where
  quiet : Quiet io
  out : io.out_file = out
  held : Holds io.out_deLWSP held
  file : io.in_file = fileOf k crlf left
  unfold : io.UNFOLD_LINE = true

/-- At a line end the character after it is looked at, and put back. -/
theorem DE_FGETC_lookahead {crlf : Bool} {io : INOUT} (h : Quiet io)
    (hin : io.in_file = bytes crlf s) (hu : Uniform crlf s) (hlf : s.head? ≠ some 10) :
    ∃ ch io', NLfgetc io = (ch, io') ∧ ch ≠ NL ∧
      Gets io (if ch ≠ EOF then ungetc ch (if LWSP_CHAR ch then io' else
        { io' with MIME_ENCODED := false }) else (if LWSP_CHAR ch then io' else
        { io' with MIME_ENCODED := false })) (bytes crlf s) io.end_CRLF io.in_prevch := by
  cases s with
  | nil =>
    refine ⟨EOF, io, NLfgetc_nil hin, by decide, ?_⟩
    rw [if_neg (by simp), if_neg (by decide)]
    exact ⟨⟨rfl, h.ignore, h.after, h.ascii, h.prev⟩, rfl, rfl, hin, rfl, rfl, rfl⟩
  | cons d s =>
    have hd : d ≠ 10 := fun heq => hlf (by rw [heq]; rfl)
    refine ⟨_, _, NLfgetc_text hin hu, by rwa [Ne, toNat_eq_NL], ?_⟩
    rw [if_pos (toNat_ne_EOF d), if_neg hd]
    have hfile : byte (d.toNat : Int) :: bytes crlf s = bytes crlf (d :: s) := by
      rw [byte_toNat, bytes_cons, if_neg hd, List.singleton_append]
    split
    · exact ⟨⟨h.encoded, h.ignore, h.after, h.ascii, h.prev⟩, rfl, rfl, hfile, rfl, rfl, rfl⟩
    · exact ⟨⟨rfl, h.ignore, h.after, h.ascii, h.prev⟩, rfl, rfl, hfile, rfl, rfl, rfl⟩

theorem At.get {crlf k : Bool} {io : INOUT} {out : List UInt8} (hat : At crlf k io out p (c :: s))
    (ht : HeaderText crlf (c :: s)) :
    ∃ io', DE_FGETC io = ((c.toNat : Int), io') ∧
      Gets io io' (bytes crlf s) (if c = 10 then k else io.end_CRLF) c.toNat := by
  have hq := hat.quiet
  have hff : (c.toNat : Int) ≠ FORMFEED := by
    intro heq
    apply ht.noFF
    rw [(toNat_eq_iff c 12 (by omega)).mp heq]
    exact List.mem_cons_self
  unfold DE_FGETC
  rw [NLfgetc_fileOf hat.file ht.uniform]
  dsimp only
  rw [if_neg hff]
  by_cases hlf : c = 10
  · have hnext : s.head? ≠ some 10 := by
      intro heq
      obtain ⟨t, rfl⟩ := List.head?_eq_some_iff.mp heq
      exact ht.apart ⟨[], t, by rw [hlf]; rfl⟩
    have hu := ht.uniform.tail
    obtain ⟨ch, io', hget, hne, hg⟩ := @DE_FGETC_lookahead _ _
      { io with in_file := bytes crlf s, end_CRLF := if c = 10 then k else io.end_CRLF }
      ⟨hq.encoded, hq.ignore, hq.after, hq.ascii, hq.prev⟩ rfl hu hnext
    rw [if_pos ((toNat_eq_NL c).mpr hlf), hget]
    dsimp only
    rw [if_neg hne, (toNat_eq_NL c).mpr hlf]
    have hgq := hg.quiet
    exact ⟨_, rfl, ⟨hgq.encoded, hgq.ignore, hgq.after, hgq.ascii, hgq.prev⟩, hg.out,
      hg.held, hg.file, hg.ends, rfl, hg.unfold⟩
  · rw [if_neg (by rwa [toNat_eq_NL])]
    exact ⟨_, rfl, ⟨hq.encoded, hq.ignore, hq.after, hq.ascii, hq.prev⟩, rfl, rfl, rfl, rfl, rfl,
      rfl⟩

/-! ## Incomplete words -/

/-- Why the scan of a word stops: a part is too long, a line end, or the end of the text. -/
inductive Stop
  | long
  | line
  | last
  deriving DecidableEq

def Stop.eow : Stop → Int
  | .long => XC_DE_TOOLONG
  | .line => NL
  | .last => EOF

/-- What is left where the scan stops. -/
def Stop.Before : Stop → List UInt8 → Prop
  | .long, _ => True
  | .line, t => t.head? = some 10
  | .last, t => t = []

/-- A part that is not closed within `n` places. -/
def Unclosed (n : Nat) (stop : Stop) (u : List UInt8) : Prop :=
  Part u ∧ if stop = .long then u.length = n else u.length < n

/-- What the scan reads of an incomplete word, each character once. -/
inductive Tried (stop : Stop) : List UInt8 → Prop
  | charset {cs : List UInt8} (hcs : Unclosed 32 stop cs) : Tried stop cs
  | encoding {cs enc : List UInt8} (hcs : Part cs) (hlen : cs.length < 32)
      (henc : Unclosed 32 stop enc) : Tried stop (cs ++ 63 :: enc)
  | text {cs enc text : List UInt8} (hcs : Part cs) (hlen : cs.length < 32) (henc : Part enc)
      (helen : enc.length < 32) (htext : Unclosed 120 stop text) :
      Tried stop (cs ++ 63 :: (enc ++ 63 :: text))
  | mark {cs enc text : List UInt8} (hcs : Part cs) (hlen : cs.length < 32) (henc : Part enc)
      (helen : enc.length < 32) (htext : Part text) (htlen : text.length < 120)
      (hstop : stop ≠ .long) : Tried stop (cs ++ 63 :: (enc ++ 63 :: (text ++ [63])))

/-- The input after the scan. -/
def stopped (crlf : Bool) (stop : Stop) (t : List UInt8) (io : INOUT) : INOUT :=
  { io with
    in_file := bytes crlf (if stop = .line then t.tail else t)
    end_CRLF := if stop = .line then crlf else io.end_CRLF }

theorem NLfgetc_stop {crlf : Bool} {io : INOUT} (hin : io.in_file = bytes crlf t)
    (hu : Uniform crlf t) (hs : stop.Before t) (hlong : stop ≠ .long) :
    NLfgetc io = (stop.eow, stopped crlf stop t io) ∧ (stop.eow = NL ∨ stop.eow = EOF) := by
  cases stop with
  | long => exact absurd rfl hlong
  | line =>
    obtain ⟨t, rfl⟩ := List.head?_eq_some_iff.mp hs
    exact ⟨NLfgetc_text hin hu, .inl rfl⟩
  | last =>
    have hs : t = [] := hs
    subst hs
    refine ⟨(NLfgetc_nil hin).trans ?_, .inr rfl⟩
    unfold stopped
    rw [if_neg (by decide), if_neg (by decide), ← hin]
    rfl

theorem not_part_char (hu : Part (c :: u)) :
    ¬ ((c.toNat : Int) = NL ∨ (c.toNat : Int) = EOF) ∧ (c.toNat : Int) ≠ 63 ∧ Part u := by
  obtain ⟨hmark, hlf⟩ := hu
  rw [List.mem_cons, not_or] at hmark hlf
  refine ⟨not_or.mpr ⟨?_, toNat_ne_EOF c⟩, ?_, hmark.2, hlf.2⟩
  · rw [toNat_eq_NL]
    exact fun heq => hlf.1 heq.symm
  · intro heq
    exact hmark.1 ((toNat_eq_iff c 63 (by omega)).mp heq).symm

section
variable {f : Nat → List UInt8 → List UInt8 → INOUT → Int × List UInt8 × List UInt8 × INOUT}

/-- A loop over a part of a word. -/
structure Loop (f : Nat → List UInt8 → List UInt8 → INOUT → Int × List UInt8 × List UInt8 × INOUT) :
    Prop where
  long (reads u : List UInt8) (io : INOUT) : f 0 reads u io = (XC_DE_TOOLONG, reads, u, io)
  stop {n : Nat} {reads u : List UInt8} {cs : Int} {io i : INOUT} (h : NLfgetc io = (cs, i))
    (hstop : cs = NL ∨ cs = EOF) : f (n + 1) reads u io = (cs, reads, u, i)
  char {n : Nat} {reads u : List UInt8} {cs : Int} {io i : INOUT} (h : NLfgetc io = (cs, i))
    (hstop : ¬(cs = NL ∨ cs = EOF)) (hmark : cs ≠ 63) :
    f (n + 1) reads u io = f n (reads ++ [byte cs]) (u ++ [byte cs]) i

theorem loop_part : Loop scan_eword.part where
  long _ _ _ := rfl
  stop h hstop := by
    rw [scan_eword.part, h]
    exact if_pos hstop
  char h hstop hmark := by
    rw [scan_eword.part, h]
    exact (if_neg hstop).trans (if_neg hmark)

theorem loop_text : Loop scan_eword.text where
  long _ _ _ := rfl
  stop h hstop := by
    rw [scan_eword.text, h]
    exact if_pos hstop
  char h hstop hmark := by
    rw [scan_eword.text, h]
    exact (if_neg hstop).trans (if_neg hmark)

theorem Loop.skip (hf : Loop f) {crlf : Bool} (hu : Part u) {n : Nat} (hlen : u.length ≤ n)
    (reads part : List UInt8) {io : INOUT} (hin : io.in_file = bytes crlf (u ++ t))
    (huni : Uniform crlf (u ++ t)) :
    f n reads part io =
      f (n - u.length) (reads ++ u) (part ++ u) { io with in_file := bytes crlf t } := by
  induction u generalizing n reads part io with
  | nil =>
    rw [List.append_nil, List.append_nil, List.length_nil, Nat.sub_zero]
    rw [List.nil_append] at hin
    rw [← hin]
  | cons c u ih =>
    obtain ⟨hstop, hmark, hpart⟩ := not_part_char hu
    have hc : c ≠ 10 := fun heq => hstop (.inl ((toNat_eq_NL c).mpr heq))
    obtain ⟨n, rfl⟩ : ∃ m, n = m + 1 := ⟨n - 1, by rw [List.length_cons] at hlen; omega⟩
    rw [List.length_cons] at hlen
    rw [hf.char (NLfgetc_text hin huni) hstop hmark, byte_toNat,
      ih hpart (by omega) _ _ rfl huni.tail, if_neg hc, List.append_assoc, List.append_assoc,
      List.singleton_append, List.length_cons, Nat.add_sub_add_right]

end

/-- A part that is closed. -/
theorem part_closed {crlf : Bool} (hu : Part u) {n : Nat} (hlen : u.length < n) (reads : List UInt8)
    {io : INOUT} (hin : io.in_file = bytes crlf (u ++ 63 :: t)) (huni : Uniform crlf (u ++ 63 :: t))
    :
    scan_eword.part n reads [] io =
      (0, reads ++ u ++ [63], u, { io with in_file := bytes crlf t }) := by
  obtain ⟨k, hk⟩ : ∃ k, n - u.length = k + 1 := ⟨n - u.length - 1, by omega⟩
  have hmark : ((63 : UInt8).toNat : Int) = 63 := rfl
  rw [loop_part.skip hu hlen.le reads [] hin huni, hk, scan_eword.part,
    NLfgetc_text (s := t) rfl (huni.suffix (List.suffix_append u _)), List.nil_append]
  dsimp only
  rw [if_neg (by decide), if_pos hmark, if_neg (by decide), byte_toNat]

theorem Unclosed.length_le {n : Nat} (hu : Unclosed n stop u) :
    u.length ≤ n ∧ (stop = .long → n - u.length = 0) ∧ (stop ≠ .long → u.length < n) := by
  obtain ⟨-, hlen⟩ := hu
  by_cases hlong : stop = .long
  · rw [if_pos hlong] at hlen
    exact ⟨hlen.le, fun _ => by omega, fun h => absurd hlong h⟩
  · rw [if_neg hlong] at hlen
    exact ⟨hlen.le, fun h => absurd h hlong, fun _ => hlen⟩

theorem Loop.unclosed
    {f : Nat → List UInt8 → List UInt8 → INOUT → Int × List UInt8 × List UInt8 × INOUT}
    (hf : Loop f) {crlf : Bool} {n : Nat} (hu : Unclosed n stop u) (hs : stop.Before t)
    (reads : List UInt8) {io : INOUT} (hin : io.in_file = bytes crlf (u ++ t))
    (huni : Uniform crlf (u ++ t)) :
    f n reads [] io = (stop.eow, reads ++ u, u, stopped crlf stop t io) := by
  obtain ⟨hle, hlong, hshort⟩ := hu.length_le
  rw [hf.skip hu.1 hle reads [] hin huni, List.nil_append]
  by_cases hcase : stop = .long
  · rw [hlong hcase, hcase, hf.long]
    rfl
  · obtain ⟨k, hk⟩ : ∃ k, n - u.length = k + 1 := ⟨n - u.length - 1, by have := hshort hcase; omega⟩
    obtain ⟨hget, heow⟩ := @NLfgetc_stop _ _ _ { io with in_file := bytes crlf t } rfl
      (huni.suffix (List.suffix_append u t)) hs hcase
    rw [hk, hf.stop hget heow]
    rfl

/-- A question mark before the place where the scan stops. -/
theorem text_mark {crlf : Bool} {n : Nat} (hu : Part u) (hlen : u.length < n) (hs : stop.Before t)
    (hlong : stop ≠ .long) (reads : List UInt8) {io : INOUT}
    (hin : io.in_file = bytes crlf (u ++ 63 :: t)) (huni : Uniform crlf (u ++ 63 :: t)) :
    scan_eword.text n reads [] io = (stop.eow, reads ++ u ++ [63], u, stopped crlf stop t io) := by
  obtain ⟨k, hk⟩ : ∃ k, n - u.length = k + 1 := ⟨n - u.length - 1, by omega⟩
  have hmark : ((63 : UInt8).toNat : Int) = 63 := rfl
  have huni' := huni.suffix (List.suffix_append u _)
  obtain ⟨hget, heow⟩ := @NLfgetc_stop _ _ _ { io with in_file := bytes crlf t } rfl huni'.tail hs
    hlong
  rw [loop_text.skip hu hlen.le reads [] hin huni, hk, scan_eword.text, NLfgetc_text rfl huni',
    List.nil_append, if_neg (show (63 : UInt8) ≠ 10 by decide)]
  dsimp only
  rw [if_neg (by decide), if_pos hmark, hget]
  dsimp only
  rw [if_pos heow]
  rfl

theorem Stop.eow_ne_zero (stop : Stop) : stop.eow ≠ 0 := by cases stop <;> decide

theorem stopped_file (crlf : Bool) (stop : Stop) (t file : List UInt8) (io : INOUT) :
    stopped crlf stop t { io with in_file := file } = stopped crlf stop t io := rfl

section
variable {io i j l : INOUT} {eow : Int} {r r' r'' cs enc text : List UInt8}

theorem scan_eword_charset (hcs : scan_eword.part 32 [] [] io = (eow, r, cs, i)) (hne : eow ≠ 0) :
    scan_eword io = (eow, r, (cs, [], []), i) := by
  unfold scan_eword
  rw [hcs]
  exact if_pos hne

theorem scan_eword_encoding (hcs : scan_eword.part 32 [] [] io = (0, r, cs, i))
    (henc : scan_eword.part 32 r [] i = (eow, r', enc, j)) (hne : eow ≠ 0) :
    scan_eword io = (eow, r', (cs, enc, []), j) := by
  unfold scan_eword
  rw [hcs]
  refine (if_neg (by simp)).trans ?_
  rw [henc]
  exact if_pos hne

theorem scan_eword_text (hcs : scan_eword.part 32 [] [] io = (0, r, cs, i))
    (henc : scan_eword.part 32 r [] i = (0, r', enc, j))
    (htext : scan_eword.text 120 r' [] j = (eow, r'', text, l)) :
    scan_eword io = (eow, r'', (cs, enc, text), l) := by
  unfold scan_eword
  rw [hcs]
  refine (if_neg (by simp)).trans ?_
  rw [henc]
  refine (if_neg (by simp)).trans ?_
  rw [htext]

end

/-- An incomplete word is read up to where the scan stops. -/
theorem scan_eword_tried {crlf : Bool} (hu : Tried stop u) (hs : stop.Before t) {io : INOUT}
    (hin : io.in_file = bytes crlf (u ++ t)) (huni : Uniform crlf (u ++ t)) :
    ∃ word, scan_eword io = (stop.eow, u, word, stopped crlf stop t io) := by
  cases hu with
  | charset hcs =>
    exact ⟨_, scan_eword_charset (loop_part.unclosed hcs hs [] hin huni) stop.eow_ne_zero⟩
  | @encoding cs enc hcs hlen henc =>
    rw [List.append_assoc, List.cons_append] at hin huni
    have huni' := (huni.suffix (List.suffix_append cs _)).tail
    have hscan := scan_eword_encoding (part_closed hcs hlen [] hin huni)
      (loop_part.unclosed henc hs _ rfl huni') stop.eow_ne_zero
    rw [stopped_file, List.nil_append, List.append_assoc, List.singleton_append] at hscan
    exact ⟨_, hscan⟩
  | @text cs enc text hcs hlen henc helen htext =>
    rw [List.append_assoc, List.cons_append, List.append_assoc, List.cons_append] at hin huni
    have huni' := (huni.suffix (List.suffix_append cs _)).tail
    have huni'' := (huni'.suffix (List.suffix_append enc _)).tail
    have hscan := scan_eword_text (part_closed hcs hlen [] hin huni)
      (part_closed henc helen _ rfl huni') (loop_text.unclosed htext hs _ rfl huni'')
    rw [stopped_file] at hscan
    simp only [List.nil_append, List.append_assoc, List.singleton_append] at hscan
    exact ⟨_, hscan⟩
  | @mark cs enc text hcs hlen henc helen htext htlen hstop =>
    simp only [List.append_assoc, List.cons_append, List.nil_append] at hin huni
    have huni' := (huni.suffix (List.suffix_append cs _)).tail
    have huni'' := (huni'.suffix (List.suffix_append enc _)).tail
    have hscan := scan_eword_text (part_closed hcs hlen [] hin huni)
      (part_closed henc helen _ rfl huni') (text_mark htext htlen hs hstop _ rfl huni'')
    rw [stopped_file] at hscan
    simp only [List.nil_append, List.append_assoc, List.singleton_append] at hscan
    exact ⟨_, hscan⟩

/-! ## Turns -/

theorem HeaderText.uniform_tail {crlf : Bool} (h : HeaderText crlf (c :: s)) :
    HeaderText crlf s := h.suffix (List.suffix_cons c s)

theorem Holds.of_zero (h : H.1.c_ch = 0) : Holds H [] := .none h

/-- What is put after a character was got. -/
theorem At.put {crlf k k' : Bool} {io i i' : INOUT} {out q l w file : List UInt8} {ends : Bool}
    {prevch : Int} (hat : At crlf k io out p l) (hg : Gets io i file ends prevch)
    (hput : Puts i i' w H) (hH : Holds H q) (hfile : file = fileOf k' crlf s) :
    At crlf k' i' (out ++ w) q s :=
  ⟨hput.quiet, by rw [hput.out, hg.out, hat.out], by rw [hput.held]; exact hH,
    by rw [hput.file, hg.file, hfile], by rw [hput.unfold, hg.unfold, hat.unfold]⟩

theorem nodecode_word_quiet {io : INOUT} (h : Quiet io) (ch : Int) :
    nodecode_word ch io = DE_FPUTC ch io := by
  unfold nodecode_word
  rw [if_neg (by simp [h.encoded])]

/-- What is written of the blanks that are held before a character. -/
def released (prevch : Int) (ends : Bool) (p : List UInt8) : List UInt8 :=
  if prevch = NL then (if p.head? = some 10 then bytes ends [10] else []) else bytes ends p

section
variable (DECODE : List UInt8 × List UInt8 × List UInt8 → INOUT → INOUT) {crlf k : Bool} (n : Nat)
  {io : INOUT} {out p s : List UInt8} {c d : UInt8}

theorem turn_nil (hat : At crlf k io out p []) :
    ∃ i, decodeTurns DECODE (n + 1) io = some (EOF, i) ∧ At crlf k i out p [] ∧
      i.end_CRLF = io.end_CRLF := by
  have hq := hat.quiet
  have hget : DE_FGETC io = (EOF, { io with in_prevch := EOF }) := by
    unfold DE_FGETC
    rw [NLfgetc_nil hat.file]
    dsimp only
    rw [if_neg (by decide), if_neg (by decide)]
  rw [decodeTurns, hget]
  dsimp only
  rw [if_pos rfl]
  exact ⟨_, rfl, ⟨⟨hq.encoded, hq.ignore, hq.after, hq.ascii, hq.prev⟩, hat.out, hat.held, hat.file,
    hat.unfold⟩, rfl⟩

/-- A character that is no blank, no line end and does not begin a word. -/
theorem turn_char (hat : At crlf k io out p (c :: s)) (ht : HeaderText crlf (c :: s))
    (hc : ¬ (c = 10 ∨ Blank c)) (hword : c ≠ 61) :
    ∃ i, decodeTurns DECODE (n + 1) io = decodeTurns DECODE n i ∧
      At crlf crlf i (out ++ (released io.in_prevch io.end_CRLF p ++ [c])) [] s ∧
      i.end_CRLF = io.end_CRLF ∧ i.in_prevch ≠ NL := by
  obtain ⟨i, hget, hg⟩ := hat.get ht
  have hheld : Holds i.out_deLWSP p := by
    rw [hg.held]
    exact hat.held
  have hlf : c ≠ 10 := fun heq => hc (.inl heq)
  have hends : i.end_CRLF = io.end_CRLF := by rw [hg.ends, if_neg hlf]
  have hprev : i.in_prevch ≠ NL := by
    rw [hg.prevch, Ne, toNat_eq_NL]
    exact hlf
  have heq : (c.toNat : Int) ≠ 61 := fun h => hword ((toNat_eq_iff c 61 (by omega)).mp h)
  have hfile := (fileOf_same crlf s).symm
  rw [decodeTurns, hget]
  dsimp only
  rw [if_neg (toNat_ne_EOF c), if_neg heq, if_neg (toNat_ne_NLNL c)]
  obtain ⟨hNL, hblank⟩ := not_or.mp (not_blank hc)
  unfold released
  by_cases htop : io.in_prevch = NL
  · obtain ⟨H, hH, hput⟩ := DE_FPUTC_top hg.quiet hheld
    have hempty : Holds (DE_FPUTC XC_DE_FIELD_TOP i).out_deLWSP [] := by
      rw [hput.held]
      exact .of_zero hH
    obtain ⟨K, hK, hchar⟩ := DE_FPUTC_char hput.quiet hempty hc
    rw [bytes_nil, List.nil_append] at hchar
    have hboth := hput.trans hchar
    rw [if_pos ⟨htop, hNL, hblank⟩, if_pos htop, nodecode_word_quiet hput.quiet]
    refine ⟨_, rfl, ?_, hboth.ends.trans hends, by rwa [hboth.prevch]⟩
    rw [← hends]
    exact hat.put hg hboth (.of_zero hK) hfile
  · obtain ⟨K, hK, hchar⟩ := DE_FPUTC_char hg.quiet hheld hc
    rw [if_neg fun hand => htop hand.1, if_neg htop, nodecode_word_quiet hg.quiet]
    refine ⟨_, rfl, ?_, hchar.ends.trans hends, by rwa [hchar.prevch]⟩
    rw [← hends]
    exact hat.put hg hchar (.of_zero hK) hfile

/-- A blank or a line end. -/
theorem turn_blank (hat : At crlf k io out p (c :: s)) (ht : HeaderText crlf (c :: s))
    (hc : c = 10 ∨ Blank c) :
    ∃ i, decodeTurns DECODE (n + 1) io = decodeTurns DECODE n i ∧
      At crlf crlf i (out ++ (heldAfter p c).1) (heldAfter p c).2 s ∧
      i.end_CRLF = (if c = 10 then k else io.end_CRLF) ∧ i.in_prevch = c.toNat := by
  obtain ⟨i, hget, hg⟩ := hat.get ht
  have hheld : Holds i.out_deLWSP p := by
    rw [hg.held]
    exact hat.held
  have heq : (c.toNat : Int) ≠ 61 := by
    rcases hc with rfl | rfl | rfl <;> decide
  have hblank : (c.toNat : Int) = NL ∨ LWSP_CHAR c.toNat = true := by
    rwa [toNat_eq_NL, LWSP_CHAR_iff]
  obtain ⟨H, hH, hput⟩ := DE_FPUTC_blank hg.quiet hheld (hg.unfold.trans hat.unfold) hc
  rw [decodeTurns, hget]
  dsimp only
  rw [if_neg (toNat_ne_EOF c), if_neg heq, if_neg (toNat_ne_NLNL c), if_neg,
    nodecode_word_quiet hg.quiet]
  · exact ⟨_, rfl, hat.put hg hput hH (fileOf_same crlf s).symm, hput.ends.trans hg.ends,
      hput.prevch.trans hg.prevch⟩
  · rintro ⟨-, hNL, hLWSP⟩
    rcases hblank with h | h
    · exact hNL h
    · exact hLWSP h

theorem ungetc_file (hin : io.in_file = bytes crlf s) (c : UInt8) :
    (ungetc c.toNat io).in_file = fileOf false crlf (c :: s) := by
  unfold ungetc
  rw [byte_toNat, hin, fileOf, bytes_cons, bytes_nil]
  by_cases hc : c = 10
  · rw [if_pos hc, hc]
    rfl
  · rw [if_neg hc]
    rfl

theorem Puts.unget {i i' : INOUT} {w : List UInt8} (h : Puts i i' w H) (ch : Int) :
    Quiet (ungetc ch i') ∧ (ungetc ch i').out_file = i.out_file ++ w ∧
      (ungetc ch i').out_deLWSP = H ∧ (ungetc ch i').end_CRLF = i.end_CRLF ∧
      (ungetc ch i').in_prevch = i.in_prevch ∧ (ungetc ch i').UNFOLD_LINE = i.UNFOLD_LINE := by
  obtain ⟨hq, hout, hheld, -, hends, hprev, hunfold⟩ := h
  exact ⟨⟨hq.encoded, hq.ignore, hq.after, hq.ascii, hq.prev⟩, hout, hheld, hends, hprev, hunfold⟩

/-- The first character of a word was got. -/
theorem At.get_equal (hat : At crlf k io out p (61 :: s)) (ht : HeaderText crlf (61 :: s)) :
    ∃ i, DE_FGETC io = (61, i) ∧ Gets io i (bytes crlf s) io.end_CRLF 61 := hat.get ht

/-- An equal sign that begins no word. The character after it is put back. -/
theorem turn_equal (hat : At crlf k io out p (61 :: d :: s)) (ht : HeaderText crlf (61 :: d :: s))
    (hd : d ≠ 63) :
    ∃ i, decodeTurns DECODE (n + 1) io = decodeTurns DECODE n i ∧
      At crlf (if d = 10 then false else crlf) i
        (out ++ (bytes (if d = 10 then crlf else io.end_CRLF) p ++ [61])) [] (d :: s) ∧
      i.end_CRLF = (if d = 10 then crlf else io.end_CRLF) ∧ i.in_prevch ≠ NL := by
  obtain ⟨i, hget, hg⟩ := hat.get_equal ht
  have hmark : (d.toNat : Int) ≠ 63 := fun h => hd ((toNat_eq_iff d 63 (by omega)).mp h)
  have hq := hg.quiet
  have hnext := NLfgetc_text hg.file ht.uniform.tail
  rw [hg.ends] at hnext
  generalize hj : ({ i with in_file := bytes crlf s
                            end_CRLF := if d = 10 then crlf else io.end_CRLF } : INOUT) = j at hnext
  have hjq : Quiet j := by
    subst hj
    exact ⟨hq.encoded, hq.ignore, hq.after, hq.ascii, hq.prev⟩
  have hjheld : Holds j.out_deLWSP p := by
    subst hj
    exact hg.held ▸ hat.held
  obtain ⟨H, hH, hput⟩ := DE_FPUTC_char (c := 61) hjq hjheld (by decide)
  have hfile : (DE_FPUTC 61 j).in_file = bytes crlf s := by
    refine hput.file.trans ?_
    subst hj
    rfl
  have hback : (ungetc d.toNat (DE_FPUTC 61 j)).in_file =
      fileOf (if d = 10 then false else crlf) crlf (d :: s) := by
    refine (ungetc_file hfile d).trans ?_
    by_cases hlf : d = 10
    · rw [if_pos hlf]
    · rw [if_neg hlf, fileOf_other (by simpa using hlf), fileOf_same]
  obtain ⟨hquiet, hout, hheld, hends, hprev, hunfold⟩ := Puts.unget hput d.toNat
  rw [decodeTurns, hget]
  dsimp only
  rw [if_neg (by decide), if_pos rfl, hnext]
  dsimp only
  rw [if_neg (toNat_ne_EOF d), if_neg hmark]
  have hjends : j.end_CRLF = if d = 10 then crlf else io.end_CRLF := by
    subst hj
    rfl
  refine ⟨_, rfl, ⟨hquiet, ?_, ?_, hback, ?_⟩, hends.trans hjends, ?_⟩
  · rw [← hjends, ← hat.out, ← hg.out]
    refine hout.trans ?_
    subst hj
    rfl
  · exact hheld ▸ .of_zero hH
  · refine hunfold.trans ?_
    subst hj
    exact hg.unfold.trans hat.unfold
  · refine fun h => absurd (hprev.symm.trans h) ?_
    subst hj
    rw [show _ = _ from hg.prevch]
    decide

/-- An equal sign at the end of the text is lost. -/
theorem turn_last (hat : At crlf k io out p [61]) (ht : HeaderText crlf [61]) :
    ∃ i, decodeTurns DECODE (n + 1) io = some (EOF, i) ∧ At crlf crlf i out p [] ∧
      i.end_CRLF = io.end_CRLF := by
  obtain ⟨i, hget, hg⟩ := hat.get_equal ht
  rw [decodeTurns, hget]
  dsimp only
  rw [if_neg (by decide), if_pos rfl, NLfgetc_nil hg.file]
  dsimp only
  rw [if_pos rfl]
  exact ⟨_, rfl, ⟨hg.quiet, hg.out.trans hat.out, by rw [hg.held]; exact hat.held, hg.file,
    hg.unfold.trans hat.unfold⟩, hg.ends⟩

theorem takeWhile_plain (h : PlainText u) : u.takeWhile (· ≠ 0) = u := by
  rw [List.takeWhile_eq_self_iff]
  intro c hc
  simpa using (h c hc).1

/-- An incomplete word is written as it was read, after the blanks that are held. -/
theorem decode_word_tried (hu : Tried stop u) (hs : stop.Before t) (hq : Quiet io)
    (hheld : Holds io.out_deLWSP p) (hin : io.in_file = bytes crlf (u ++ t))
    (huni : Uniform crlf (u ++ t)) (hplain : PlainText u) :
    ∃ i, decode_word DECODE io = (stop.eow, i) ∧ Quiet i ∧
      i.out_file = io.out_file ++
        (bytes (if stop = .line then crlf else io.end_CRLF) p ++ 61 :: 63 :: u) ∧
      Holds i.out_deLWSP [] ∧ i.in_file = fileOf (if stop = .line then false else crlf) crlf t ∧
      i.end_CRLF = (if stop = .line then crlf else io.end_CRLF) ∧ i.in_prevch = io.in_prevch ∧
      i.UNFOLD_LINE = io.UNFOLD_LINE := by
  obtain ⟨word, hscan⟩ := scan_eword_tried hu hs hin huni
  have hsq : Quiet (stopped crlf stop t io) := ⟨hq.encoded, hq.ignore, hq.after, hq.ascii, hq.prev⟩
  obtain ⟨H, hH, hput⟩ := DE_FPUTC_none hsq (p := p) hheld (.inr rfl)
  have hstop : stop.eow = NL ∨ stop.eow = EOF ∨ stop.eow = XC_DE_TOOLONG := by
    cases stop with
    | long => exact .inr (.inr rfl)
    | line => exact .inl rfl
    | last => exact .inr (.inl rfl)
  have hout := congrArg (· ++ ([61, 63] ++ u)) hput.out
  simp only [List.append_assoc] at hout
  unfold decode_word
  rw [hscan]
  dsimp only
  rw [if_pos hstop, takeWhile_plain hplain]
  refine ⟨_, rfl, ?_⟩
  have hfq : Quiet (fputs ([61, 63] ++ u) (DE_FPUTC XC_DE_OFLUSH (stopped crlf stop t io))) :=
    ⟨hput.quiet.encoded, hput.quiet.ignore, hput.quiet.after, hput.quiet.ascii, hput.quiet.prev⟩
  have hfile := hput.file
  have hheld' := hput.held ▸ Holds.of_zero hH
  cases stop with
  | line =>
    obtain ⟨t, rfl⟩ := List.head?_eq_some_iff.mp hs
    refine ⟨⟨hfq.encoded, hfq.ignore, hfq.after, hfq.ascii, hfq.prev⟩, hout, hheld', ?_, hput.ends,
      hput.prevch, hput.unfold⟩
    exact @ungetc_file _ (fputs ([61, 63] ++ u) _) _ hfile 10
  | long =>
    rw [if_neg (by decide)]
    exact ⟨hfq, hout, hheld', hfile.trans (fileOf_same crlf t).symm, hput.ends, hput.prevch,
      hput.unfold⟩
  | last =>
    rw [if_neg (by decide)]
    exact ⟨hfq, hout, hheld', hfile.trans (fileOf_same crlf t).symm, hput.ends, hput.prevch,
      hput.unfold⟩

theorem turn_word (hat : At crlf k io out p (61 :: 63 :: (u ++ t)))
    (ht : HeaderText crlf (61 :: 63 :: (u ++ t))) (hu : Tried stop u) (hs : stop.Before t) :
    ∃ i, (decodeTurns DECODE (n + 1) io = decodeTurns DECODE n i ∨
        t = [] ∧ decodeTurns DECODE (n + 1) io = some (63, i)) ∧
      At crlf (if stop = .line then false else crlf) i
        (out ++ (bytes (if stop = .line then crlf else io.end_CRLF) p ++ 61 :: 63 :: u)) [] t ∧
      i.end_CRLF = (if stop = .line then crlf else io.end_CRLF) ∧ i.in_prevch ≠ NL := by
  obtain ⟨i, hget, hg⟩ := hat.get_equal ht
  have hq := hg.quiet
  have htail := ht.uniform_tail.uniform_tail
  have hplain : PlainText u := fun c hc => htail.plain c (List.mem_append_left _ hc)
  have hnext : NLfgetc i = (63, { i with in_file := bytes crlf (u ++ t) }) :=
    NLfgetc_text hg.file ht.uniform.tail
  have hnq : Quiet { i with in_file := bytes crlf (u ++ t) } :=
    ⟨hq.encoded, hq.ignore, hq.after, hq.ascii, hq.prev⟩
  have hnheld : Holds ({ i with in_file := bytes crlf (u ++ t) } : INOUT).out_deLWSP p :=
    hg.held ▸ hat.held
  obtain ⟨j, hword, hjq, hout, hheld, hfile, hends, hprev, hunfold⟩ :=
    decode_word_tried DECODE hu hs hnq hnheld rfl htail.uniform hplain
  rw [show ({ i with in_file := bytes crlf (u ++ t) } : INOUT).end_CRLF = io.end_CRLF from hg.ends]
    at hout hends
  rw [decodeTurns, hget]
  dsimp only
  rw [if_neg (by decide), if_pos rfl, hnext]
  dsimp only
  rw [if_neg (by decide), if_pos rfl, hword]
  dsimp only
  refine ⟨j, ?_, ⟨hjq, ?_, hheld, hfile, hunfold.trans (hg.unfold.trans hat.unfold)⟩, hends, ?_⟩
  · cases stop with
    | long => exact .inl (if_neg (by decide))
    | line => exact .inl (if_neg (by decide))
    | last => exact .inr ⟨hs, if_pos rfl⟩
  · rw [hout, ← hat.out, ← hg.out]
  · rw [show j.in_prevch = 61 from hprev.trans hg.prevch]
    decide

end

/-! ## The texts that are given back -/

/-- A text after blanks that are held is given back. In a row there are no more than two blanks, and
at a line end no more than one on each side; an equal sign has a character after it, and where lines
end in CR LF this is no line end; and no question mark in the text part of an incomplete word has
another character after it. -/
inductive Steady (crlf : Bool) : List UInt8 → List UInt8 → Prop
  | done {p : List UInt8} : Steady crlf p []
  | char {p s : List UInt8} {c : UInt8} (hc : ¬ (c = 10 ∨ Blank c)) (hword : c ≠ 61)
      (h : Steady crlf [] s) : Steady crlf p (c :: s)
  | first {s : List UInt8} {c : UInt8} (hc : c = 10 ∨ Blank c) (h : Steady crlf [c] s) :
      Steady crlf [] (c :: s)
  | second {s : List UInt8} {b c : UInt8} (hc : Blank c) (h : Steady crlf [b, c] s) :
      Steady crlf [b] (c :: s)
  | line {s : List UInt8} {b : UInt8} (hb : Blank b) (h : Steady crlf [10] s) :
      Steady crlf [b] (10 :: s)
  | equal {p s : List UInt8} {d : UInt8} (hd : d ≠ 63) (hline : d = 10 → crlf = false)
      (h : Steady crlf [] (d :: s)) : Steady crlf p (61 :: d :: s)
  | word {p u t : List UInt8} {stop : Stop} (hu : Tried stop u) (hs : stop.Before t)
      (hline : stop = .line → crlf = false) (h : Steady crlf [] t) :
      Steady crlf p (61 :: 63 :: (u ++ t))

theorem bytes_of_no_line (crlf : Bool) (h : 10 ∉ u) : bytes crlf u = u := by
  induction u with
  | nil => rfl
  | cons c u ih =>
    rw [List.mem_cons, not_or] at h
    rw [bytes_cons, if_neg fun heq => h.1 heq.symm, ih h.2, List.singleton_append]

theorem Tried.no_line (h : Tried stop u) : 10 ∉ u := by
  cases h with
  | charset hcs => exact hcs.1.2
  | encoding hcs hlen henc => simp [hcs.2, henc.1.2]
  | text hcs hlen henc helen htext => simp [hcs.2, henc.2, htext.1.2]
  | mark hcs hlen henc helen htext htlen hstop => simp [hcs.2, henc.2, htext.2]

theorem not_blank_of_blank (hc : Blank c) : c ≠ 10 := by
  rcases hc with rfl | rfl <;> decide

theorem put_back_same {L : Prop} [Decidable L] {crlf : Bool} (h : L → crlf = false) :
    (if L then false else crlf) = crlf := by
  split
  · rename_i hL
    exact (h hL).symm
  · rfl

/-- A steady text is given back, whatever is held before it. -/
theorem decodeTurns_steady (DECODE : List UInt8 × List UInt8 × List UInt8 → INOUT → INOUT)
    {crlf : Bool} (h : Steady crlf p s) {n : Nat} (hn : s.length < n) {io : INOUT}
    {out : List UInt8} (hat : At crlf crlf io out p s) (ht : HeaderText crlf s)
    (hends : 10 ∈ p → io.end_CRLF = crlf) (hprev : io.in_prevch = NL → p = [10]) :
    ∃ ch i o q, decodeTurns DECODE n io = some (ch, i) ∧ At crlf crlf i o q [] ∧
      o ++ bytes i.end_CRLF q = out ++ bytes crlf (p ++ s) := by
  have hsame {p : List UInt8} {m : Bool} (hm : 10 ∈ p → m = crlf) : bytes m p = bytes crlf p :=
    bytes_congr hm
  induction h generalizing n io out with
  | @done p =>
    obtain ⟨m, rfl⟩ : ∃ m, n = m + 1 := ⟨n - 1, by omega⟩
    obtain ⟨i, hrun, hat', hiends⟩ := turn_nil DECODE m hat
    refine ⟨_, i, out, p, hrun, hat', ?_⟩
    rw [hiends, hsame hends, List.append_nil]
  | @char p s c hc hword h ih =>
    obtain ⟨m, rfl⟩ : ∃ m, n = m + 1 := ⟨n - 1, by omega⟩
    rw [List.length_cons] at hn
    obtain ⟨i, hrun, hat', hiends, hiprev⟩ := turn_char DECODE m hat ht hc hword
    obtain ⟨ch, j, o, q, hrest, hjat, hjout⟩ :=
      ih (show s.length < m by omega) hat' ht.uniform_tail (by simp) fun h => absurd h hiprev
    have hreleased : released io.in_prevch io.end_CRLF p = bytes crlf p := by
      unfold released
      split
      · rename_i hNL
        rw [hprev hNL] at hends ⊢
        exact (if_pos rfl).trans (hsame hends)
      · exact hsame hends
    refine ⟨ch, j, o, q, hrun.trans hrest, hjat, ?_⟩
    rw [hjout, hreleased, bytes_append crlf p, bytes_cons crlf c s, if_neg fun heq => hc (.inl heq)]
    simp
  | @first s c hc h ih =>
    obtain ⟨m, rfl⟩ : ∃ m, n = m + 1 := ⟨n - 1, by omega⟩
    rw [List.length_cons] at hn
    obtain ⟨i, hrun, hat', hiends, hiprev⟩ := turn_blank DECODE m hat ht hc
    rw [heldAfter] at hat'
    obtain ⟨ch, j, o, q, hrest, hjat, hjout⟩ := ih (show s.length < m by omega) hat' ht.uniform_tail
      (fun h10 => by rw [hiends, if_pos (List.mem_singleton.mp h10).symm])
      (fun h => by rw [hiprev, toNat_eq_NL] at h; rw [h])
    exact ⟨ch, j, o, q, hrun.trans hrest, hjat, by rw [hjout]; simp⟩
  | @second s b c hc h ih =>
    obtain ⟨m, rfl⟩ : ∃ m, n = m + 1 := ⟨n - 1, by omega⟩
    rw [List.length_cons] at hn
    have hlf := not_blank_of_blank hc
    obtain ⟨i, hrun, hat', hiends, hiprev⟩ :=
      turn_blank DECODE m hat ht (.inr hc)
    rw [heldAfter, if_pos hlf] at hat'
    rw [if_neg hlf] at hiends
    obtain ⟨ch, j, o, q, hrest, hjat, hjout⟩ := ih (show s.length < m by omega) hat' ht.uniform_tail
      (fun h10 => by
        rw [hiends]
        refine hends ?_
        simpa [hlf.symm] using h10)
      (fun h => absurd ((toNat_eq_NL c).mp (hiprev ▸ h)) hlf)
    exact ⟨ch, j, o, q, hrun.trans hrest, hjat, by rw [hjout]; simp⟩
  | @line s b hb h ih =>
    obtain ⟨m, rfl⟩ : ∃ m, n = m + 1 := ⟨n - 1, by omega⟩
    rw [List.length_cons] at hn
    have hlf := not_blank_of_blank hb
    obtain ⟨i, hrun, hat', hiends, hiprev⟩ :=
      turn_blank DECODE m hat ht (.inl rfl)
    rw [heldAfter, if_neg (by simp), if_neg hlf] at hat'
    rw [if_pos rfl] at hiends
    obtain ⟨ch, j, o, q, hrest, hjat, hjout⟩ :=
      ih (show s.length < m by omega) hat' ht.uniform_tail (fun _ => hiends) fun _ => rfl
    refine ⟨ch, j, o, q, hrun.trans hrest, hjat, ?_⟩
    rw [hjout, List.singleton_append, List.singleton_append, bytes_cons crlf b, if_neg hlf,
      List.append_assoc]
  | @equal p s d hd hline h ih =>
    obtain ⟨m, rfl⟩ : ∃ m, n = m + 1 := ⟨n - 1, by omega⟩
    rw [List.length_cons] at hn
    obtain ⟨i, hrun, hat', hiends, hiprev⟩ := turn_equal DECODE m hat ht hd
    rw [put_back_same hline] at hat'
    obtain ⟨ch, j, o, q, hrest, hjat, hjout⟩ :=
      ih (show (d :: s).length < m by omega) hat' ht.uniform_tail (by simp) fun h => absurd h hiprev
    refine ⟨ch, j, o, q, hrun.trans hrest, hjat, ?_⟩
    rw [hjout, hsame, bytes_append crlf p, bytes_cons crlf 61, if_neg (by decide)]
    · simp
    · intro h10
      split
      · rfl
      · exact hends h10
  | @word p u t stop hu hs hline h ih =>
    obtain ⟨m, rfl⟩ : ∃ m, n = m + 1 := ⟨n - 1, by omega⟩
    rw [List.length_cons, List.length_cons, List.length_append] at hn
    obtain ⟨i, hrun, hat', hiends, hiprev⟩ := turn_word DECODE m hat ht hu hs
    rw [put_back_same hline] at hat'
    have hwritten : bytes (if stop = .line then crlf else io.end_CRLF) p = bytes crlf p := by
      refine hsame fun h10 => ?_
      split
      · rfl
      · exact hends h10
    have hplain := bytes_of_no_line crlf hu.no_line
    rcases hrun with hrun | ⟨rfl, hrun⟩
    · obtain ⟨ch, j, o, q, hrest, hjat, hjout⟩ := ih (show t.length < m by omega) hat'
        (ht.suffix ⟨61 :: 63 :: u, rfl⟩) (by simp) fun h => absurd h hiprev
      refine ⟨ch, j, o, q, hrun.trans hrest, hjat, ?_⟩
      rw [hjout, hwritten, bytes_append crlf p, bytes_cons crlf 61, if_neg (by decide),
        bytes_cons crlf 63, if_neg (by decide), bytes_append crlf u, hplain]
      simp
    · refine ⟨63, i, _, [], hrun, hat', ?_⟩
      rw [hwritten, bytes_append crlf p, bytes_cons crlf 61, if_neg (by decide),
        bytes_cons crlf 63, if_neg (by decide), bytes_append crlf u, hplain]
      simp

/-! ## The texts that are not -/

/-- Where an incomplete word has a third question mark with another character after it, which is
neither an equal sign nor a line end, this character is written twice. -/
def Doubles (s : List UInt8) : Prop :=
  ∃ cs enc text c, (Part cs ∧ cs.length < 32) ∧ (Part enc ∧ enc.length < 32) ∧
    (Part text ∧ text.length < 120) ∧ c ≠ 61 ∧ c ≠ 10 ∧
    61 :: 63 :: (cs ++ 63 :: (enc ++ 63 :: (text ++ [63, c]))) <:+: s

/-- A part is closed within `n` places, or the scan stops in it. -/
theorem part_cases (n : Nat) (s : List UInt8) :
    ∃ u t, s = u ++ t ∧ ((∃ stop, Unclosed n stop u ∧ Stop.Before stop t) ∨
      (Part u ∧ u.length < n ∧ ∃ t', t = 63 :: t')) := by
  induction n generalizing s with
  | zero => exact ⟨[], s, rfl, .inl ⟨.long, ⟨⟨by simp, by simp⟩, by simp⟩, trivial⟩⟩
  | succ n ih =>
    have hnil : Part [] := ⟨by simp, by simp⟩
    cases s with
    | nil => exact ⟨[], [], rfl, .inl ⟨.last, ⟨hnil, by simp⟩, rfl⟩⟩
    | cons c s =>
      by_cases hlf : c = 10
      · exact ⟨[], c :: s, rfl, .inl ⟨.line, ⟨hnil, by simp⟩, by rw [hlf]; rfl⟩⟩
      by_cases hmark : c = 63
      · exact ⟨[], c :: s, rfl, .inr ⟨hnil, by simp, s, by rw [hmark]⟩⟩
      obtain ⟨u, t, rfl, hcases⟩ := ih s
      have hpart {u : List UInt8} (hu : Part u) : Part (c :: u) :=
        ⟨by simp [hu.1, Ne.symm hmark], by simp [hu.2, Ne.symm hlf]⟩
      refine ⟨c :: u, t, rfl, ?_⟩
      rcases hcases with ⟨stop, ⟨hu, hlen⟩, hs⟩ | ⟨hu, hlen, ht⟩
      · refine .inl ⟨stop, ⟨hpart hu, ?_⟩, hs⟩
        split at hlen <;> simp_all
      · exact .inr ⟨hpart hu, by simpa using hlen, ht⟩

/-- A word that begins is incomplete, and is read up to where the scan stops. -/
theorem word_cases {crlf : Bool} (ht : HeaderText crlf (61 :: 63 :: s))
    (hd : ¬ Doubles (61 :: 63 :: s)) :
    ∃ stop u t, s = u ++ t ∧ Tried stop u ∧ Stop.Before stop t := by
  obtain ⟨cs, t, rfl, ⟨stop, hcs, hs⟩ | ⟨hcs, hlen, t, rfl⟩⟩ := part_cases 32 s
  · exact ⟨stop, cs, t, rfl, .charset hcs, hs⟩
  obtain ⟨enc, t, rfl, ⟨stop, henc, hs⟩ | ⟨henc, helen, t, rfl⟩⟩ := part_cases 32 t
  · exact ⟨stop, _, t, by simp, .encoding hcs hlen henc, hs⟩
  obtain ⟨text, t, rfl, ⟨stop, htext, hs⟩ | ⟨htext, htlen, t, rfl⟩⟩ := part_cases 120 t
  · exact ⟨stop, _, t, by simp, .text hcs hlen henc helen htext, hs⟩
  cases t with
  | nil => exact ⟨.last, _, [], by simp, .mark hcs hlen henc helen htext htlen (by decide), rfl⟩
  | cons c t =>
    by_cases hlf : c = 10
    · exact ⟨.line, _, c :: t, by simp, .mark hcs hlen henc helen htext htlen (by decide),
        by rw [hlf]; rfl⟩
    by_cases heq : c = 61
    · subst heq
      exact absurd ⟨[], t, by simp⟩ (ht.words cs enc text hcs henc htext.2)
    · exact absurd ⟨cs, enc, text, c, ⟨hcs, hlen⟩, ⟨henc, helen⟩, ⟨htext, htlen⟩, heq, hlf, [], t,
        by simp⟩ hd

theorem bytes_length (crlf : Bool) (s : List UInt8) :
    (bytes crlf s).length = s.length + if crlf then s.count 10 else 0 := by
  induction s with
  | nil => cases crlf <;> rfl
  | cons c s ih =>
    rw [bytes_cons, List.length_append, ih, List.length_cons, List.count_cons]
    by_cases hc : c = 10
    · cases crlf <;> simp [hc, eol] <;> omega
    · cases crlf <;> simp [hc] <;> omega

theorem fileOf_length (k crlf : Bool) (c : UInt8) (s : List UInt8) :
    (fileOf k crlf (c :: s)).length = (bytes k [c]).length + (bytes crlf s).length := by
  rw [fileOf, List.length_append]

theorem bytes_length_cons (crlf : Bool) (c : UInt8) (s : List UInt8) :
    (bytes crlf (c :: s)).length = (bytes crlf [c]).length + (bytes crlf s).length := by
  rw [← List.length_append, ← bytes_append, List.singleton_append]

theorem bytes_length_char (crlf : Bool) (hc : c ≠ 10) : (bytes crlf [c]).length = 1 := by
  rw [bytes_cons, if_neg hc]
  rfl

theorem bytes_length_line (crlf : Bool) : (bytes crlf [10]).length = if crlf then 2 else 1 := by
  cases crlf <;> rfl

/-- Blanks get fewer when they are held, unless they are held as in a steady text. -/
theorem heldAfter_length (hp : Holds H p) (hc : c = 10 ∨ Blank c) (m k : Bool) :
    let w := (heldAfter p c).1.length +
      (bytes (if c = 10 then k else m) (heldAfter p c).2).length
    w < (bytes m p).length + (bytes k [c]).length ∨
      w = (bytes m p).length + (bytes k [c]).length ∧
        (p = [] ∨ ∃ b, p = [b] ∧ (Blank c ∨ c = 10 ∧ Blank b)) := by
  dsimp only
  have htwo (m : Bool) (b c : UInt8) :
      (bytes m [b, c]).length = (bytes m [b]).length + (bytes m [c]).length :=
    bytes_length_cons m b [c]
  cases hp with
  | none hA =>
    right
    refine ⟨?_, .inl rfl⟩
    rw [heldAfter, bytes_nil]
    by_cases hlf : c = 10
    · rw [if_pos hlf]
    · rw [if_neg hlf, bytes_length_char m hlf, bytes_length_char k hlf]
  | @one b B hb hB =>
    by_cases hlf : c = 10
    · by_cases hblf : b = 10
      · left
        rw [heldAfter, if_neg (by simpa using hlf), if_pos hblf, if_pos hlf, hlf, hblf,
          bytes_length_line, bytes_length_line]
        cases m <;> cases k <;> decide
      · right
        rw [heldAfter, if_neg (by simpa using hlf), if_neg hblf, if_pos hlf, hlf,
          bytes_length_char m hblf]
        exact ⟨rfl, .inr ⟨b, rfl, .inr ⟨rfl, hb.resolve_left hblf⟩⟩⟩
    · right
      rw [heldAfter, if_pos hlf, if_neg hlf, htwo, bytes_length_char m hlf,
        bytes_length_char k hlf]
      exact ⟨by simp, .inr ⟨b, rfl, .inl (hc.resolve_left hlf)⟩⟩
  | @two b x hb hx =>
    left
    have hx' := not_blank_of_blank hx
    by_cases hlf : c = 10
    · by_cases hblf : b = 10
      · rw [heldAfter, if_neg (by simpa using hlf), if_pos hblf, if_pos hlf, hlf, hblf, htwo, htwo,
          bytes_length_char m hx', bytes_length_char k hx', bytes_length_line, bytes_length_line,
          List.length_nil]
        cases m <;> cases k <;> decide
      · rw [heldAfter, if_neg (by simpa using hlf), if_neg hblf, if_pos hlf, hlf, htwo,
          bytes_length_char m hblf, bytes_length_char m hx']
        simp
    · rw [heldAfter, if_pos hlf, if_neg hlf, htwo, htwo, bytes_length_char m hlf,
        bytes_length_char k hlf, bytes_length_char m hx']
      simp

/-- A line end that is held may be written with a CR that was not read with it. -/
theorem Holds.length_le (hp : Holds H p) (m crlf : Bool) :
    (bytes crlf p).length ≤ (bytes m p).length + if crlf then 1 else 0 := by
  have hcount : p.count 10 ≤ 1 := by
    cases hp with
    | none hA => simp
    | one hb hB => exact List.count_le_length
    | two hb hc =>
      rw [List.count_cons, List.count_singleton, if_neg (by simpa using not_blank_of_blank hc)]
      split <;> simp
  rw [bytes_length, bytes_length]
  cases m <;> cases crlf <;> simp
  omega

theorem released_length (hp : Holds H p) (prevch : Int) (m : Bool) :
    (released prevch m p).length ≤ (bytes m p).length := by
  unfold released
  split
  · cases hp with
    | none hA => simp
    | one hb hB =>
      split
      · rename_i h
        rw [show _ = (10 : UInt8) from Option.some_inj.mp h]
      · simp
    | two hb hc =>
      split
      · rename_i h
        rw [show _ = (10 : UInt8) from Option.some_inj.mp h, bytes_length_cons m 10 [_]]
        exact Nat.le_add_right _ _
      · simp
  · exact le_rfl

theorem Doubles.suffix (h : Doubles t) (hs : t <:+ s) : Doubles s := by
  obtain ⟨cs, enc, text, c, hcs, henc, htext, heq, hlf, hin⟩ := h
  exact ⟨cs, enc, text, c, hcs, henc, htext, heq, hlf, hin.trans hs.isInfix⟩

/-- A line end that is put back loses its CR. The line end that is held before it may get one. -/
theorem put_back_length (hp : Holds H p) {L : Prop} [Decidable L] (hL : L → t.head? = some 10)
    (m crlf : Bool) :
    let w := (bytes (if L then crlf else m) p).length +
      (fileOf (if L then false else crlf) crlf t).length
    w ≤ (bytes m p).length + (bytes crlf t).length ∧
      ((10 ∈ p → m = crlf) → L → crlf = true → w < (bytes m p).length + (bytes crlf t).length) := by
  dsimp only
  by_cases h : L
  · obtain ⟨t, rfl⟩ := List.head?_eq_some_iff.mp (hL h)
    have hle := hp.length_le m crlf
    rw [if_pos h, if_pos h, fileOf_length, bytes_length_cons crlf 10 t, bytes_length_line,
      bytes_length_line]
    constructor
    · cases crlf <;> simp only [Bool.false_eq_true, if_true, if_false] at hle ⊢ <;> omega
    · rintro hm - rfl
      rw [bytes_congr hm]
      simp
  · rw [if_neg h, if_neg h, fileOf_same]
    exact ⟨le_rfl, fun _ hL => absurd hL h⟩

/-- The turns end with no more bytes than there were, and with less if the text is not steady. -/
def Shorter (DECODE : List UInt8 × List UInt8 × List UInt8 → INOUT → INOUT) (crlf k : Bool) (n : Nat)
    (io : INOUT) (out p s : List UInt8) : Prop :=
  ∃ ch i o q, decodeTurns DECODE n io = some (ch, i) ∧ At crlf crlf i o q [] ∧
    let w := o.length + (bytes i.end_CRLF q).length
    let all := out.length + (bytes io.end_CRLF p).length + (fileOf k crlf s).length
    w ≤ all ∧ (k = crlf → (10 ∈ p → io.end_CRLF = crlf) → (io.in_prevch = NL → p = [10]) →
      ¬ Steady crlf p s → w < all)

section
variable (DECODE : List UInt8 × List UInt8 × List UInt8 → INOUT → INOUT) {crlf k : Bool} {n : Nat}
  {io : INOUT} {out p s : List UInt8} {c d : UInt8}

theorem shorter_blank (hat : At crlf k io out p (c :: s)) (ht : HeaderText crlf (c :: s))
    (hblank : c = 10 ∨ Blank c)
    (ih : ∀ {i o q}, At crlf crlf i o q s → Shorter DECODE crlf crlf n i o q s) :
    Shorter DECODE crlf k (n + 1) io out p (c :: s) := by
  obtain ⟨i, hrun, hat', hends, hprev⟩ := turn_blank DECODE n hat ht hblank
  obtain ⟨ch, j, o, q, hrest, hjat, hle, hlt⟩ := ih hat'
  refine ⟨ch, j, o, q, hrun.trans hrest, hjat, ?_⟩
  rw [hends, fileOf_same, List.length_append] at hle hlt
  rw [fileOf_length]
  have hheld := heldAfter_length hat.held hblank io.end_CRLF k
  dsimp only at hle hlt hheld ⊢
  refine ⟨by omega, fun hk hm hp hns => ?_⟩
  rcases hheld with hless | ⟨hsame, hshape⟩
  · omega
  · have hlt := hlt rfl
    rcases hshape with rfl | ⟨b, rfl, hb | ⟨rfl, hb⟩⟩
    · have hlt := hlt (fun h => by rw [if_pos (List.mem_singleton.mp h).symm, hk])
        (fun h => by rw [hprev, toNat_eq_NL] at h; rw [h]; rfl)
        fun h => hns (.first hblank h)
      omega
    · have hlf := not_blank_of_blank hb
      rw [heldAfter, if_pos hlf] at hlt
      have hlt := hlt (fun h => by
          rw [if_neg hlf]
          exact hm (by simpa [hlf.symm] using h))
        (fun h => absurd ((toNat_eq_NL c).mp (hprev ▸ h)) hlf)
        fun h => hns (.second hb h)
      rw [heldAfter, if_pos hlf] at hsame
      omega
    · have hlf := not_blank_of_blank hb
      rw [heldAfter, if_neg (by simp), if_neg hlf] at hlt hsame
      have hlt := hlt (fun _ => by rw [if_pos rfl, hk]) (fun _ => rfl)
        fun h => hns (.line hb h)
      omega

theorem shorter_char (hat : At crlf k io out p (c :: s)) (ht : HeaderText crlf (c :: s))
    (hc : ¬ (c = 10 ∨ Blank c)) (hword : c ≠ 61)
    (ih : ∀ {i o q}, At crlf crlf i o q s → Shorter DECODE crlf crlf n i o q s) :
    Shorter DECODE crlf k (n + 1) io out p (c :: s) := by
  obtain ⟨i, hrun, hat', hends, hprev⟩ := turn_char DECODE n hat ht hc hword
  obtain ⟨ch, j, o, q, hrest, hjat, hle, hlt⟩ := ih hat'
  refine ⟨ch, j, o, q, hrun.trans hrest, hjat, ?_⟩
  have hreleased := released_length hat.held io.in_prevch io.end_CRLF
  rw [hends, fileOf_same, List.length_append, List.length_append, List.length_singleton,
    bytes_nil] at hle hlt
  rw [fileOf_length, bytes_length_char k fun h => hc (.inl h)]
  dsimp only [List.length_nil] at hle hlt ⊢
  refine ⟨by omega, fun hk hm hp hns => ?_⟩
  have hlt := hlt rfl (by simp) (fun h => absurd h hprev) fun h => hns (.char hc hword h)
  omega

theorem shorter_equal (hat : At crlf k io out p (61 :: d :: s))
    (ht : HeaderText crlf (61 :: d :: s)) (hd : d ≠ 63)
    (ih : ∀ {k i o q}, At crlf k i o q (d :: s) → Shorter DECODE crlf k n i o q (d :: s)) :
    Shorter DECODE crlf k (n + 1) io out p (61 :: d :: s) := by
  obtain ⟨i, hrun, hat', hends, hprev⟩ := turn_equal DECODE n hat ht hd
  have hback : d = 10 → (d :: s).head? = some 10 := by
    rintro rfl
    rfl
  obtain ⟨hbackle, hbacklt⟩ := put_back_length hat.held hback io.end_CRLF crlf
  have hall : (fileOf k crlf (61 :: d :: s)).length = 1 + (bytes crlf (d :: s)).length := by
    rw [fileOf_length, bytes_length_char k (by decide)]
  obtain ⟨ch, j, o, q, hrest, hjat, hle, hlt⟩ := ih hat'
  refine ⟨ch, j, o, q, hrun.trans hrest, hjat, ?_⟩
  rw [hall]
  simp only [hends, bytes_nil, List.length_append, List.length_cons, List.length_nil]
    at hle hlt ⊢
  refine ⟨by omega, fun hk hm hp hns => ?_⟩
  by_cases hlost : d = 10 ∧ crlf = true
  · have := hbacklt hm hlost.1 hlost.2
    omega
  · have hline : d = 10 → crlf = false := by simpa using hlost
    have := hlt (put_back_same hline) (by simp) (fun h => absurd h hprev)
      fun h => hns (.equal hd hline h)
    omega

theorem shorter_word (hat : At crlf k io out p (61 :: 63 :: (u ++ t)))
    (ht : HeaderText crlf (61 :: 63 :: (u ++ t))) (hu : Tried stop u) (hs : stop.Before t)
    (ih : ∀ {k i o q}, At crlf k i o q t → Shorter DECODE crlf k n i o q t) :
    Shorter DECODE crlf k (n + 1) io out p (61 :: 63 :: (u ++ t)) := by
  obtain ⟨i, hrun, hat', hends, hprev⟩ := turn_word DECODE n hat ht hu hs
  have hback : stop = .line → t.head? = some 10 := by
    rintro rfl
    exact hs
  obtain ⟨hbackle, hbacklt⟩ := put_back_length hat.held hback io.end_CRLF crlf
  have hall : (fileOf k crlf (61 :: 63 :: (u ++ t))).length =
      2 + u.length + (bytes crlf t).length := by
    rw [fileOf_length, bytes_length_char k (by decide), bytes_length_cons, bytes_length_char crlf
      (by decide), bytes_append, bytes_of_no_line crlf hu.no_line, List.length_append]
    omega
  rcases hrun with hrun | ⟨rfl, hrun⟩
  · obtain ⟨ch, j, o, q, hrest, hjat, hle, hlt⟩ := ih hat'
    refine ⟨ch, j, o, q, hrun.trans hrest, hjat, ?_⟩
    rw [hall]
    simp only [hends, bytes_nil, List.length_append, List.length_cons, List.length_nil]
      at hle hlt ⊢
    refine ⟨by omega, fun hk hm hp hns => ?_⟩
    by_cases hlost : stop = .line ∧ crlf = true
    · have := hbacklt hm hlost.1 hlost.2
      omega
    · have hline : stop = .line → crlf = false := by simpa using hlost
      have := hlt (put_back_same hline) (by simp) (fun h => absurd h hprev)
        fun h => hns (.word hu hs hline h)
      omega
  · rw [put_back_same (fun h => by simp [h] at hback)] at hat'
    refine ⟨63, i, _, [], hrun, hat', ?_⟩
    rw [hall]
    rw [fileOf, bytes_nil, List.length_nil] at hbackle
    simp only [bytes_nil, List.length_append, List.length_cons, List.length_nil]
    refine ⟨by omega, fun hk hm hp hns => absurd (.word hu hs ?_ .done) hns⟩
    intro h
    simp [h] at hback

/-- Nothing gets longer, and a text that is not steady gets shorter. -/
theorem decodeTurns_shorter (hn : s.length < n) (hat : At crlf k io out p s)
    (ht : HeaderText crlf s) (hd : ¬ Doubles s) : Shorter DECODE crlf k n io out p s := by
  induction n generalizing s p out k io with
  | zero => omega
  | succ n ih =>
    cases s with
    | nil =>
      obtain ⟨i, hrun, hat', hends⟩ := turn_nil DECODE n hat
      refine ⟨_, i, out, p, hrun, ⟨hat'.quiet, hat'.out, hat'.held, hat'.file, hat'.unfold⟩, ?_⟩
      rw [hends]
      exact ⟨by simp [fileOf], fun _ _ _ hns => absurd .done hns⟩
    | cons c s =>
      rw [List.length_cons] at hn
      have htail := ht.uniform_tail
      have hdtail : ¬ Doubles s := fun h => hd (h.suffix (List.suffix_cons c s))
      by_cases hblank : c = 10 ∨ Blank c
      · exact shorter_blank DECODE hat ht hblank fun h => ih (by omega) h htail hdtail
      by_cases hword : c = 61
      · subst hword
        rcases s with _ | ⟨d, s⟩
        · obtain ⟨i, hrun, hat', hends⟩ := turn_last DECODE n hat ht
          refine ⟨_, i, out, p, hrun, hat', ?_⟩
          rw [hends, fileOf_length, bytes_length_char k (by decide)]
          dsimp only
          exact ⟨by omega, fun _ _ _ _ => by omega⟩
        by_cases hd63 : d = 63
        · subst hd63
          obtain ⟨stop, u, t, rfl, hu, hs⟩ := word_cases ht hd
          have hrest : t <:+ 61 :: 63 :: (u ++ t) := ⟨61 :: 63 :: u, rfl⟩
          rw [List.length_cons, List.length_append] at hn
          exact shorter_word DECODE hat ht hu hs fun h =>
            ih (by omega) h (ht.suffix hrest) fun hdt => hd (hdt.suffix hrest)
        · exact shorter_equal DECODE hat ht hd63 fun h => ih (by omega) h htail hdtail
      · exact shorter_char DECODE hat ht hblank hword fun h => ih (by omega) h htail hdtail

end

/-! ## Texts that are decoded -/

theorem dropFF_plain (h : 255 ∉ s) : dropFF s = s := by
  induction s using dropFF.induct with
  | case1 => rfl
  | case2 => simp at h
  | case3 c hc => rw [dropFF, if_neg hc]
  | case4 d rest => simp at h
  | case5 c d rest hc ih =>
    rw [List.mem_cons, not_or] at h
    rw [dropFF, if_neg hc, ih h.2]

theorem dropFF_length (s : List UInt8) : (dropFF s).length ≤ s.length := by
  induction s using dropFF.induct with
  | case1 => exact le_rfl
  | case2 => exact Nat.zero_le _
  | case3 c hc => rw [dropFF, if_neg hc]
  | case4 d rest ih =>
    rw [dropFF, if_pos rfl]
    simp only [List.length_cons]
    omega
  | case5 c d rest hc ih =>
    rw [dropFF, if_neg hc, List.length_cons, List.length_cons]
    omega

theorem bytes_plain {crlf : Bool} (h : PlainText s) : ∀ c ∈ bytes crlf s, c ≠ 0 ∧ c ≠ 255 := by
  intro c hc
  obtain ⟨d, hd, hmem⟩ := List.mem_flatMap.mp hc
  obtain ⟨hzero, hlt, -⟩ := h d hd
  by_cases hlf : d = 10
  · rw [if_pos hlf] at hmem
    cases crlf <;> simp [eol] at hmem <;> rcases hmem with rfl | rfl <;> decide
  · rw [if_neg hlf, List.mem_singleton] at hmem
    subst hmem
    exact ⟨hzero, by rintro rfl; exact absurd hlt (by decide)⟩

/-- What is left over at the end is written too. -/
theorem headerDecode_ends {DECODE : List UInt8 × List UInt8 × List UInt8 → INOUT → INOUT}
    {crlf end_CRLF : Bool} {turns : Nat} {input : List UInt8} {ch : Int} {i : INOUT}
    {o q : List UInt8} (hturns : 0 < turns)
    (hrun : decodeTurns DECODE turns { INOUT_init input end_CRLF with UNFOLD_LINE := true } =
      some (ch, i)) (hat : At crlf crlf i o q []) :
    (MIME_headerDecodeX DECODE turns end_CRLF input).map (·.out_file) =
      some (o ++ bytes i.end_CRLF q) := by
  have hq : Quiet { i with UNFOLD_LINE := false } :=
    ⟨hat.quiet.encoded, hat.quiet.ignore, hat.quiet.after, hat.quiet.ascii, hat.quiet.prev⟩
  have hcopy : (if ch ≠ EOF then copyBody turns { i with UNFOLD_LINE := false }
      else some { i with UNFOLD_LINE := false }) = some { i with UNFOLD_LINE := false } := by
    split
    · obtain ⟨m, rfl⟩ : ∃ m, turns = m + 1 := ⟨turns - 1, by omega⟩
      rw [copyBody, @NLfgetc_nil { i with UNFOLD_LINE := false } hat.file]
      exact if_pos rfl
    · rfl
  obtain ⟨H, -, hput⟩ := DE_FPUTC_none (p := q) hq hat.held (.inl rfl)
  unfold MIME_headerDecodeX
  rw [hrun, Option.bind_eq_bind, Option.bind_some]
  dsimp only
  rw [hcopy, Option.map_some, Option.map_some, hput.out, ← hat.out]

/-- A header without encoded words is given back exactly if it is steady, unless a character of an
incomplete word is written twice. -/
theorem headerDecode_steady_iff (DECODE : List UInt8 × List UInt8 × List UInt8 → INOUT → INOUT)
    (end_CRLF : Bool) {crlf : Bool} {s : List UInt8} (ht : HeaderText crlf s) {turns : Nat}
    (hturns : s.length < turns) :
    (Steady crlf [] s → MIME_strHeaderDecodeX DECODE turns end_CRLF (bytes crlf s) =
      some (bytes crlf s)) ∧
    (MIME_strHeaderDecodeX DECODE turns end_CRLF (bytes crlf s) = some (bytes crlf s) →
      Steady crlf [] s ∨ Doubles s) := by
  have hplain := @bytes_plain s crlf ht.plain
  have hin : (bytes crlf s).takeWhile (· ≠ 0) = bytes crlf s := by
    rw [List.takeWhile_eq_self_iff]
    exact fun c hc => by simpa using (hplain c hc).1
  have hat : At crlf crlf { INOUT_init (bytes crlf s) end_CRLF with UNFOLD_LINE := true } [] [] s :=
    ⟨⟨rfl, rfl, rfl, rfl, rfl⟩, rfl, .none rfl, (fileOf_same crlf s).symm, rfl⟩
  have hprev : (INOUT_init (bytes crlf s) end_CRLF).in_prevch ≠ NL := by
    show EOF ≠ NL
    decide
  unfold MIME_strHeaderDecodeX
  rw [hin]
  constructor
  · intro hsteady
    obtain ⟨ch, i, o, q, hrun, hend, hout⟩ := decodeTurns_steady DECODE hsteady hturns hat ht
      (by simp) fun h => absurd h hprev
    have hdone := headerDecode_ends (by omega) hrun hend
    obtain ⟨j, hj, hfile⟩ := Option.map_eq_some_iff.mp hdone
    rw [hj, Option.bind_eq_bind, Option.bind_some, hfile, hout, List.nil_append, List.nil_append,
      hin, dropFF_plain fun h => (hplain 255 h).2 rfl]
  · intro hsame
    by_contra h
    rw [not_or] at h
    obtain ⟨ch, i, o, q, hrun, hend, -, hlt⟩ := decodeTurns_shorter DECODE hturns hat ht h.2
    have hless := hlt rfl (by simp) (fun h => absurd h hprev) h.1
    have hdone := headerDecode_ends (by omega) hrun hend
    obtain ⟨j, hj, hfile⟩ := Option.map_eq_some_iff.mp hdone
    rw [hj, Option.bind_eq_bind, Option.bind_some, hfile, Option.some_inj] at hsame
    have hlen := (dropFF_length ((o ++ bytes i.end_CRLF q).takeWhile (· ≠ 0))).trans
      (List.takeWhile_prefix _).length_le
    rw [hsame, List.length_append] at hlen
    rw [fileOf_same] at hless
    simp only [List.length_nil, bytes_nil, Nat.zero_add] at hless
    omega

theorem headerDecode_steady_incomplete :
    Steady false [] [97, 32, 61, 63, 120] ∧
      MIME_strHeaderDecodeX (fun _ io => io) 6 true [97, 32, 61, 63, 120] =
        some [97, 32, 61, 63, 120] := by
  have htext : HeaderText false [97, 32, 61, 63, 120] := by
    refine ⟨by simp [PlainText], by simp, fun _ => by decide, by decide, ?_⟩
    intro charset encoding text _ _ _ hin
    have hlen := hin.length_le
    simp only [List.length_cons, List.length_append, List.length_nil] at hlen
    omega
  have hsteady : Steady false [] [97, 32, 61, 63, 120] := by
    refine .char (by decide) (by decide) (.first (.inr (.inr rfl)) ?_)
    have hword : Tried .last [120] := .charset ⟨by simp [Part], by simp⟩
    exact @Steady.word false [32] [120] [] .last hword rfl (by decide) .done
  exact ⟨hsteady, (headerDecode_steady_iff (fun _ io => io) true htext (by decide)).1 hsteady⟩

/-- Of three blanks the one in the middle is lost. -/
theorem doubled_blank_goes :
    HeaderText false [97, 32, 32, 32, 98] ∧
      MIME_strHeaderDecodeX (fun _ io => io) 6 true [97, 32, 32, 32, 98] ≠
        some [97, 32, 32, 32, 98] := by
  refine ⟨⟨by simp [PlainText], by simp, fun _ => by decide, by decide, ?_⟩, by decide +kernel⟩
  intro charset encoding text _ _ _ hin
  have hlen := hin.length_le
  simp only [List.length_cons, List.length_append, List.length_nil] at hlen
  omega

end delegate.mimehead
