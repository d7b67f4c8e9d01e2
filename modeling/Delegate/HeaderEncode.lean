-- The encoder of headers (mimekit/mimehead.cpp): ASCII words are passed through
-- `noencode_word`, with a character of look-ahead and a blank that is held back.
-- The header ends at two line ends, so an empty header is not noticed.
import Delegate.MimeHead

namespace delegate.mimehead

/-! ## Reading -/

def EN_UNGETC (CH : CHARx) (io : INOUT) : INOUT := { io with in_PUSHED := io.in_PUSHED.push CH }

/-- The charset of a character of eight bits, or of `EOF`. -/
def charset8B (ch : Int) (io : INOUT) : INOUT :=
  if ch = EOF ∨ 128 ≤ ch then
    match io.in_charcode8B with
    | none => io
    | some charset =>
      if io.in_mcharset ≠ .M_UTF_8 ∧ charset = .M_UTF_8 then
        { io with in_mcharset := .M_UTF_8, in_bcharset := B_UCS_2, in_encoding := some .B }
      else { io with in_mcharset := charset, in_bcharset := B_M17N, in_encoding := some .B }
  else io

/-- The switch to the charset of `csw` that `ch` stands for. -/
def switchCode (csw : List MimeCharset) (ch : Int) (io : INOUT) : INOUT :=
  match csw.find? (·.codesw = ch) with
  | none => io
  | some code =>
    { io with
      in_mcharset := code.mcharset
      in_encoding := code.encoding
      EAT_SPACE :=
        if io.in_column = 0 ∧ io.in_bcharset_got = true then DELSP_OP io.in_bcharset
        else io.EAT_SPACE
      in_bcharset_got := true
      in_bcharset := code.basic_charset }

/-- From `GOT1` on: the character, after the switches of charset before it. Each turn reads a byte. -/
def GOT1 : Nat → Int → INOUT → Int × INOUT
  | 0, ch, io => (ch, io)
  | n + 1, ch, io =>
    if ch ≠ ESC then (ch, charset8B ch io)
    else
      let (ch, io) := fgetc io
      if ch = EOF then (ch, io)
      else if io.in_prevch = NL ∧ LWSP_CHAR ch = true then
        let (ch, io) := NLfgetc io
        GOT1 n ch io
      else if ch = 40 ∨ ch = 36 then
        let csw := if ch = 40 then Codes1 else Codes2
        let (ch, io) := fgetc io
        if ch = EOF then (ch, io)
        else
          let (ch, io) := NLfgetc (switchCode csw ch io)
          if ch = ESC then GOT1 n ch io else (ch, io)
      else (ch, io)

/-- From `EXIT` on: at a line end the charset is `M_US_ASCII` again. -/
def EN_FGETC.exit (CH : CHARx) (io : INOUT) : CHARx × INOUT :=
  let io := { io with in_prevch := CH.c_ch, in_column := io.in_column + 1 }
  if CH.c_ch = NL ∨ CH.c_ch = NLNL then
    ({ CH with c_mcharset := .M_US_ASCII },
      { io with
        in_column := 0, EAT_SPACE := 0, MIME_ENCODED := false, in_mcharset := .M_US_ASCII,
        in_encoding := none })
  else (CH, io)

def EN_FGETC (io : INOUT) : CHARx × INOUT :=
  match io.in_PUSHED.get with
  | some (CH, pushed) =>
    EN_FGETC.exit CH { io with
      in_PUSHED := pushed, in_mcharset := CH.c_mcharset, in_bcharset := CH.c_bcharset,
      in_encoding := CH.c_encoding }
  | none =>
    let (ch, io) := NLfgetc io
    let (ch, io) := GOT1 (io.in_file.length + 1) ch io
    EN_FGETC.exit ⟨ch, io.in_mcharset, io.in_bcharset, io.in_encoding⟩ io

/-! ## Writing -/

def MAXCOL : Int := 72

def SWCODE_LENG : Int := 4
def MIN_ENCODEDLEN : Int := 4

def MCharset.name : MCharset → List UInt8
  | .M_US_ASCII => [85, 83, 45, 65, 83, 67, 73, 73]
  | .M_ISO_2022_JP => [73, 83, 79, 45, 50, 48, 50, 50, 45, 74, 80]
  | .M_UTF_8 => [85, 84, 70, 45, 56]
  | .M_EUC_JP => [69, 85, 67, 45, 74, 80]
  | .M_SHIFT_JIS => [83, 104, 105, 102, 116, 95, 74, 73, 83]

def Encoding.name : Option Encoding → List UInt8
  | none => []
  | some .B => [66]
  | some .Q => [81]

/-- What an encoded word begins with. -/
def ewordBegin (charset : MCharset) (encoding : Option Encoding) : List UInt8 :=
  [61, 63] ++ charset.name ++ [63] ++ Encoding.name encoding ++ [63]

/-- `ew_overhead`, the length of `=?charset?encoding?x?=`. -/
def ew_overhead (charset : MCharset) (encoding : Option Encoding) : Int :=
  (ewordBegin charset encoding).length + 3

def EN_FPUTC0 (ch : Int) (io : INOUT) : INOUT :=
  NLfputc ch (if ch = NL then { io with SPACE_WAS_GEN := false, out_column := 0 }
    else { io with out_column := io.out_column + 1 })

def EN_FPUTS0 (s : List UInt8) (io : INOUT) : INOUT :=
  s.foldl (fun io c => EN_FPUTC0 c.toNat io) io

/-- At the end of an encoded word. -/
def EN_FPUTC1.ending (ch : Int) (io : INOUT) : INOUT :=
  if io.out_prevCHAR.c_mcharset ≠ .M_US_ASCII then
    let io := EN_FPUTS0 [63, 61] io
    if DELIMITER ch then io else { EN_FPUTC0 SPACE io with SPACE_WAS_GEN := true }
  else io

/-- At the beginning of an encoded word. -/
def EN_FPUTC1.beginning (charset : MCharset) (encoding : Option Encoding) (io : INOUT) : INOUT :=
  if charset ≠ .M_US_ASCII then
    let io := if DELIMITER io.out_prevCHAR.c_ch then io else EN_FPUTC0 SPACE io
    let remlen := MAXCOL - (io.out_column + ew_overhead charset encoding)
    let io := if remlen - SWCODE_LENG < MIN_ENCODEDLEN then EN_FPUTC0 SPACE (EN_FPUTC0 NL io) else io
    { EN_FPUTS0 (ewordBegin charset encoding) io with MIME_ENCODED := true }
  else io

def EN_FPUTC1 (ch : Int) (io : INOUT) (charset : MCharset) (encoding : Option Encoding) : INOUT :=
  let io :=
    if charset ≠ io.out_prevCHAR.c_mcharset then
      EN_FPUTC1.beginning charset encoding (EN_FPUTC1.ending ch io)
    else io
  let io :=
    if ch ≠ EOF then
      EN_FPUTC0 ch
        (if ch ≠ NL ∧ encoding = none ∧ io.MIME_ENCODED = true ∧ MAXCOL ≤ io.out_column ∧
            LWSP_CHAR ch = true then
          EN_FPUTC0 NL io
        else io)
    else io
  { io with out_prevCHAR := { io.out_prevCHAR with c_mcharset := charset, c_ch := ch } }

/-- The blank that is held back is put. -/
def EN_FPUTC.flush (io : INOUT) : INOUT :=
  if io.out_enLWSP ≠ 0 then { EN_FPUTC1 io.out_enLWSP io .M_US_ASCII none with out_enLWSP := 0 }
  else io

/-- A blank is held back until the next character. -/
def EN_FPUTC (ch : Int) (io : INOUT) (charset : MCharset) (encoding : Option Encoding) : INOUT :=
  let io := if 0 ≤ ch ∧ ch < 256 then { io with out_lastputch := ch } else io
  if ch = XC_EN_FOLD then
    let (lwsp, io) :=
      if io.out_enLWSP ≠ 0 then (io.out_enLWSP, { io with out_enLWSP := 0 })
      else (SPACE, { io with SPACE_WAS_GEN := true })
    EN_FPUTC1 lwsp (EN_FPUTC1 NL io .M_US_ASCII none) .M_US_ASCII none
  else
    let io := EN_FPUTC.flush io
    if LWSP_CHAR ch = true ∧ charset = .M_US_ASCII ∧ encoding = none then { io with out_enLWSP := ch }
    else EN_FPUTC1 ch io charset encoding

/-! ## Words -/

/-- The loop of `noencode_word`: the line that is read, the last character, and the state. -/
def noencode_word.scan : Nat → List UInt8 → Int → INOUT → List UInt8 × Int × INOUT
  | 0, line, ch, io => (line, ch, io)
  | n + 1, line, _, io =>
    let (CH, io) := EN_FGETC io
    let ch := CH.c_ch
    if io.in_mcharset ≠ .M_US_ASCII then (line, ch, if ch ≠ EOF then EN_UNGETC CH io else io)
    else if ch = EOF then (line, ch, io)
    else if ch = NL then
      let (NCH, io) := EN_FGETC io
      if NCH.c_ch = NL then (line ++ [byte ch], NLNL, io)
      else if NCH.c_ch = EOF then (line ++ [byte ch], ch, io)
      else (line ++ [byte ch], ch, EN_UNGETC NCH io)
    else if LWSP_CHAR ch then (line ++ [byte ch], ch, io)
    else noencode_word.scan n (line ++ [byte ch]) ch io

/-- `noencode_word`: at most `MAXCOL + 1` characters are passed through. -/
def noencode_word (io : INOUT) : Int × INOUT :=
  let canbe_folded := io.MIME_ENCODED
  let (line, ch, io) := noencode_word.scan 73 [] 0 io
  let io :=
    if line.head? ≠ some 10 ∧ canbe_folded = true ∧ MAXCOL + 2 < io.out_column + line.length then
      EN_FPUTC XC_EN_FOLD io .M_US_ASCII none
    else io
  (ch, (line.takeWhile (· ≠ 0)).foldl (fun io c => EN_FPUTC c.toNat io .M_US_ASCII none) io)

section
variable (encode_word : INOUT → Int × INOUT)

/-- The words that are encoded, one after the other. -/
def encodeWords : Nat → INOUT → Option (Int × INOUT)
  | 0, _ => none
  | n + 1, io =>
    let (ch, io) := encode_word io
    if io.in_mcharset = .M_US_ASCII ∨ ch = EOF then some (ch, io) else encodeWords n io

/-- The loop of `MIME_headerEncode0X`, for `turns` turns at most. -/
def encodeTurns : Nat → INOUT → Option (Int × INOUT)
  | 0, _ => none
  | turns + 1, io =>
    let (CH, io) := EN_FGETC io
    let io := EN_UNGETC CH io
    if CH.c_mcharset = .M_US_ASCII then
      let (ch, io) := noencode_word io
      if ch = EOF ∨ ch = NLNL then some (ch, io) else encodeTurns turns io
    else
      (encodeWords encode_word turns io).bind fun (ch, io) =>
        if ch = EOF then some (ch, io) else encodeTurns turns io

/-- `MIME_headerEncode0X`, with a null `MimeConv`. -/
def MIME_headerEncode0X (turns : Nat) (io : INOUT) : Option (Int × INOUT) :=
  (encodeTurns encode_word turns io).map fun (ch, io) =>
    (ch, if ch = EOF then EN_FPUTC ch io .M_US_ASCII none else io)

/-- The loop of `fgets` and `fputs`, with a line of `MAX_LNSIZE` bytes. -/
def copyLines : Nat → List UInt8 → List UInt8
  | 0, _ => []
  | n + 1, input =>
    let line := (input.takeWhile (· ≠ 10) ++ if 10 ∈ input then [10] else []).take 1023
    if input = [] then [] else line.takeWhile (· ≠ 0) ++ copyLines n (input.drop line.length)

/-- `MIME_headerEncodeX`: what it writes. -/
def MIME_headerEncodeX (turns : Nat) (end_CRLF : Bool) (input : List UInt8) :
    Option (List UInt8) :=
  (MIME_headerEncode0X encode_word turns (INOUT_init input end_CRLF)).map fun (ch, io) =>
    if ch ≠ EOF then
      let io := NLfputc NL io
      io.out_file ++ copyLines (io.in_file.length + 1) io.in_file
    else io.out_file

end

/-! ## Plain characters -/

/-- The bytes of a header without escapes. -/
def PlainText (s : List UInt8) : Prop := ∀ c ∈ s, c ≠ 0 ∧ c < 128 ∧ c ≠ 27

/-- No charset but `M_US_ASCII` is in use, and only a blank is held back. -/
structure Plain (io : INOUT) : Prop where
  code8B : io.in_charcode8B = none
  charset : io.in_mcharset = .M_US_ASCII
  encoded : io.MIME_ENCODED = false
  prev : io.out_prevCHAR.c_mcharset = .M_US_ASCII
  held : io.out_enLWSP = 0 ∨ LWSP_CHAR io.out_enLWSP = true

/-- What reading plain characters leaves as it is. -/
structure Reads (crlf : Bool) (io io' : INOUT) : Prop where
  plain : Plain io'
  out : io'.out_file = io.out_file
  held : io'.out_enLWSP = io.out_enLWSP
  ends : io'.end_CRLF = io.end_CRLF ∨ io'.end_CRLF = crlf

variable {crlf : Bool} {io : INOUT} {ch : Int} {rest s u : List UInt8} {c : UInt8}

theorem Reads.trans {a b c : INOUT} (hab : Reads crlf a b) (hbc : Reads crlf b c) :
    Reads crlf a c where
  plain := hbc.plain
  out := hbc.out.trans hab.out
  held := hbc.held.trans hab.held
  ends := by
    rcases hbc.ends with h | h
    · rw [h]
      exact hab.ends
    · exact .inr h

theorem plain_init (input : List UInt8) (end_CRLF : Bool) : Plain (INOUT_init input end_CRLF) :=
  ⟨rfl, rfl, rfl, rfl, .inl rfl⟩

theorem charset8B_none (h : io.in_charcode8B = none) (ch : Int) : charset8B ch io = io := by
  unfold charset8B
  rw [h]
  simp

theorem GOT1_plain {i : INOUT} (h : i.in_charcode8B = none) (n : Nat) (hch : ch ≠ ESC) :
    GOT1 (n + 1) ch i = (ch, i) := by
  unfold GOT1
  rw [if_pos hch, charset8B_none h]

theorem exit_plain (CH : CHARx) (h : Plain io) (hCH : CH.c_mcharset = .M_US_ASCII) (crlf : Bool) :
    (EN_FGETC.exit CH io).1.c_ch = CH.c_ch ∧ (EN_FGETC.exit CH io).1.c_mcharset = .M_US_ASCII ∧
      Reads crlf io (EN_FGETC.exit CH io).2 ∧
      (EN_FGETC.exit CH io).2.in_PUSHED = io.in_PUSHED ∧
      (EN_FGETC.exit CH io).2.in_file = io.in_file ∧
      (EN_FGETC.exit CH io).2.end_CRLF = io.end_CRLF := by
  unfold EN_FGETC.exit
  dsimp only
  split
  · exact ⟨rfl, rfl, ⟨⟨h.code8B, rfl, rfl, h.prev, h.held⟩, rfl, rfl, .inl rfl⟩, rfl, rfl, rfl⟩
  · exact ⟨rfl, hCH, ⟨⟨h.code8B, h.charset, h.encoded, h.prev, h.held⟩, rfl, rfl, .inl rfl⟩,
      rfl, rfl, rfl⟩

/-- A character is got: the state after it has nothing pushed, and the rest of the input. -/
structure Got (crlf : Bool) (io : INOUT) (ch : Int) (left : List UInt8) (r : CHARx × INOUT) :
    Prop where
  c_ch : r.1.c_ch = ch
  c_mcharset : r.1.c_mcharset = .M_US_ASCII
  reads : Reads crlf io r.2
  empty : r.2.in_PUSHED.Empty
  file : r.2.in_file = left
  newline : ch = NL → r.2.end_CRLF = crlf

theorem got_exit {i : INOUT} {CH : CHARx} (hreads : Reads crlf io i)
    (hCH : CH.c_mcharset = .M_US_ASCII) (hempty : i.in_PUSHED.Empty)
    (hnl : CH.c_ch = NL → i.end_CRLF = crlf) :
    Got crlf io CH.c_ch i.in_file (EN_FGETC.exit CH i) := by
  obtain ⟨hch, hcs, hexit, hpush, hfile, hends⟩ := exit_plain CH hreads.plain hCH crlf
  refine ⟨hch, hcs, hreads.trans hexit, ?_, hfile, ?_⟩
  · rw [hpush]
    exact hempty
  · rw [hends]
    exact hnl

/-- The characters that are not read yet: those of the file, after one that may be pushed. -/
inductive Left (crlf : Bool) (rest : List UInt8) (io : INOUT) : List UInt8 → Prop
  | file {s : List UInt8} (hempty : io.in_PUSHED.Empty) (hfile : io.in_file = bytes crlf s ++ rest) :
      Left crlf rest io s
  | pushed {c : UInt8} {s : List UInt8} {CH : CHARx} {b : RRBUFF}
      (hget : io.in_PUSHED.get = some (CH, b)) (hempty : b.Empty) (hch : CH.c_ch = c.toNat)
      (hcs : CH.c_mcharset = .M_US_ASCII) (hfile : io.in_file = bytes crlf s ++ rest)
      (hnl : c = 10 → io.end_CRLF = crlf) : Left crlf rest io (c :: s)
  | pushedEOF {CH : CHARx} {b : RRBUFF} (hget : io.in_PUSHED.get = some (CH, b)) (hempty : b.Empty)
      (hch : CH.c_ch = EOF) (hcs : CH.c_mcharset = .M_US_ASCII) (hfile : io.in_file = [])
      (hrest : rest = []) : Left crlf rest io []

theorem EN_FGETC_pushed (h : Plain io) {CH : CHARx} {b : RRBUFF}
    (hget : io.in_PUSHED.get = some (CH, b)) (hempty : b.Empty) (hcs : CH.c_mcharset = .M_US_ASCII)
    (hnl : CH.c_ch = NL → io.end_CRLF = crlf) : Got crlf io CH.c_ch io.in_file (EN_FGETC io) := by
  unfold EN_FGETC
  rw [hget]
  exact got_exit (i := { io with
      in_PUSHED := b, in_mcharset := CH.c_mcharset, in_bcharset := CH.c_bcharset,
      in_encoding := CH.c_encoding })
    ⟨⟨h.code8B, hcs, h.encoded, h.prev, h.held⟩, rfl, rfl, .inl rfl⟩ hcs hempty hnl

theorem EN_FGETC_file (h : Plain io) (hempty : io.in_PUSHED.Empty) {file : List UInt8} {ends : Bool}
    (hget : NLfgetc io = (ch, { io with in_file := file, end_CRLF := ends })) (hch : ch ≠ ESC)
    (hends : ends = io.end_CRLF ∨ ends = crlf) (hnl : ch = NL → ends = crlf) :
    Got crlf io ch file (EN_FGETC io) := by
  unfold EN_FGETC
  rw [RRBUFF.get_empty hempty]
  dsimp only
  rw [hget]
  dsimp only
  rw [GOT1_plain (i := { io with in_file := file, end_CRLF := ends }) h.code8B _ hch]
  have hreads : Reads crlf io { io with in_file := file, end_CRLF := ends } :=
    ⟨⟨h.code8B, h.charset, h.encoded, h.prev, h.held⟩, rfl, rfl, hends⟩
  exact @got_exit crlf io _ ⟨ch, io.in_mcharset, io.in_bcharset, io.in_encoding⟩ hreads h.charset
    hempty hnl

/-- After the text is the end of the input, or the text ends in two line ends. -/
def Ended (rest s : List UInt8) : Prop := rest = [] ∨ [10, 10] <:+ s

theorem Ended.tail (h : Ended rest (c :: s)) (hc : c :: s ≠ [10, 10]) : Ended rest s := by
  rcases h with h | h
  · exact .inl h
  · rcases List.suffix_cons_iff.mp h with heq | h
    · exact absurd heq.symm hc
    · exact .inr h

theorem Ended.rest_of_short (h : Ended rest s) (hs : s.length < 2) : rest = [] := by
  rcases h with h | h
  · exact h
  · have hle := h.length_le
    simp only [List.length_cons, List.length_nil] at hle
    omega

theorem Ended.rest_of_last (h : Ended rest (c :: s)) (hs : s = []) : rest = [] := by
  subst hs
  exact h.rest_of_short (by simp)

/-- A character of the text is got. -/
theorem Left.get (h : Plain io) (hleft : Left crlf rest io (c :: s)) (ht : c ≠ 0 ∧ c < 128 ∧ c ≠ 27)
    (hu : Uniform crlf (c :: s)) (hrest : c = 13 → s = [] → rest = []) :
    Got crlf io c.toNat (bytes crlf s ++ rest) (EN_FGETC io) := by
  have hNL : (c.toNat : Int) = NL → c = 10 := fun heq => (toNat_eq_iff c 10 (by omega)).mp heq
  cases hleft with
  | file hempty hfile =>
    have hread := NLfgetc_bytes hfile hu hrest
    refine EN_FGETC_file h hempty hread ?_ ?_ ?_
    · intro heq
      exact ht.2.2 ((toNat_eq_iff c 27 (by omega)).mp heq)
    · by_cases hc : c = 10
      · simp [hc]
      · simp [hc]
    · intro heq
      rw [if_pos (hNL heq)]
  | pushed hget hempty hch hcs hfile hnl =>
    rw [← hch, ← hfile]
    exact EN_FGETC_pushed h hget hempty hcs fun heq => hnl (hNL (hch ▸ heq))

/-- At the end of the input `EOF` is got. -/
theorem Left.get_EOF (h : Plain io) (hleft : Left crlf rest io []) (hrest : rest = []) :
    Got crlf io EOF [] (EN_FGETC io) := by
  subst hrest
  cases hleft with
  | file hempty hfile =>
    rw [bytes_nil, List.nil_append] at hfile
    have hsame : (EOF, io) = (EOF, { io with in_file := [], end_CRLF := io.end_CRLF }) := by
      rw [← hfile]
    exact EN_FGETC_file h hempty ((NLfgetc_nil hfile).trans hsame) (by simp [EOF, ESC])
      (.inl rfl) (by simp [EOF, NL])
  | pushedEOF hget hempty hch hcs hfile =>
    rw [← hch, ← hfile]
    exact EN_FGETC_pushed h hget hempty hcs (by rw [hch]; simp [EOF, NL])

/-- What is got and pushed is left again. -/
theorem Got.unget {r : CHARx × INOUT} (h : Got crlf io c.toNat (bytes crlf s ++ rest) r) :
    Left crlf rest (EN_UNGETC r.1 r.2) (c :: s) := by
  obtain ⟨b, hget, hempty⟩ := RRBUFF.get_push h.empty r.1
  refine .pushed hget hempty h.c_ch h.c_mcharset h.file ?_
  rintro rfl
  exact h.newline rfl

theorem Got.unget_EOF {r : CHARx × INOUT} (h : Got crlf io EOF [] r) :
    Left crlf [] (EN_UNGETC r.1 r.2) [] := by
  obtain ⟨b, hget, hempty⟩ := RRBUFF.get_push h.empty r.1
  exact .pushedEOF hget hempty h.c_ch h.c_mcharset h.file rfl

theorem Reads.unget {io' : INOUT} (h : Reads crlf io io') (CH : CHARx) :
    Reads crlf io (EN_UNGETC CH io') :=
  ⟨⟨h.plain.code8B, h.plain.charset, h.plain.encoded, h.plain.prev, h.plain.held⟩, h.out, h.held,
    h.ends⟩

/-! ## The scan of a word -/

/-- How the scan of a word ends: `u` is read, with characters left after it, or up to the second of
two line ends, or up to the end of the input. -/
inductive Scanned (crlf : Bool) (rest s u : List UInt8) (ch : Int) (io : INOUT) : Prop
  | more {s' : List UInt8} (hs : s = u ++ s') (hleft : Left crlf rest io s') (hended : Ended rest s')
      (hEOF : ch ≠ EOF) (hNLNL : ch ≠ NLNL)
  | stop {s' : List UInt8} (hs : s = u ++ 10 :: s') (hlast : 10 ∈ u.getLast?) (hch : ch = NLNL)
      (hfile : io.in_file = bytes crlf s' ++ rest) (hends : io.end_CRLF = crlf)
  | done (hs : s = u) (hch : ch = EOF) (hrest : rest = [])

/-- A character before what is scanned. -/
theorem Scanned.cons (h : Scanned crlf rest s u ch io) (c : UInt8) :
    Scanned crlf rest (c :: s) (c :: u) ch io := by
  cases h with
  | more hs hleft hended hEOF hNLNL => exact .more (by rw [hs]; rfl) hleft hended hEOF hNLNL
  | stop hs hlast hch hfile hends =>
    refine .stop (by rw [hs]; rfl) ?_ hch hfile hends
    rw [List.getLast?_cons, Option.mem_def.mp hlast]
    rfl
  | done hs hch hrest => exact .done (by rw [hs]) hch hrest

theorem toNat_ne_EOF (c : UInt8) : (c.toNat : Int) ≠ EOF := by
  unfold EOF
  omega

theorem toNat_ne_NLNL (c : UInt8) : (c.toNat : Int) ≠ NLNL := by
  unfold NLNL
  omega

/-- The scan reads plain characters into the line. At a line end it looks ahead. -/
theorem noencode_word.scan_spec (n : Nat) (line : List UInt8) (h : Plain io)
    (hleft : Left crlf rest io s) (ht : PlainText s) (hu : Uniform crlf s) (he : Ended rest s)
    (hch : n = 0 → ch ≠ EOF ∧ ch ≠ NLNL) :
    ∃ u ch' io', noencode_word.scan n line ch io = (line ++ u, ch', io') ∧ Reads crlf io io' ∧
      Scanned crlf rest s u ch' io' ∧ (10 ∈ u → io'.end_CRLF = crlf) ∧
      (n ≠ 0 → u = [] → ch' = EOF) := by
  induction n generalizing s io line ch with
  | zero =>
    obtain ⟨hEOF, hNLNL⟩ := hch rfl
    refine ⟨[], ch, io, by rw [noencode_word.scan, List.append_nil], ?_,
      .more rfl hleft he hEOF hNLNL, by simp, by simp⟩
    exact ⟨h, rfl, rfl, .inl rfl⟩
  | succ n ih =>
    cases s with
    | nil =>
      have hrest := he.rest_of_short (by simp)
      have hgot := hleft.get_EOF h hrest
      refine ⟨[], EOF, (EN_FGETC io).2, ?_, hgot.reads, .done rfl rfl hrest, by simp, fun _ _ => rfl⟩
      unfold noencode_word.scan
      dsimp only
      rw [hgot.reads.plain.charset, hgot.c_ch, if_neg (by simp), if_pos rfl, List.append_nil]
    | cons c s =>
      have hgot := hleft.get h (ht c (List.mem_cons_self ..)) hu fun _ => he.rest_of_last
      have htail : PlainText s := fun d hd => ht d (List.mem_cons_of_mem _ hd)
      unfold noencode_word.scan
      dsimp only
      rw [hgot.reads.plain.charset, hgot.c_ch, if_neg (by simp), if_neg (toNat_ne_EOF c), byte_toNat]
      have hfile : Left crlf rest (EN_FGETC io).2 s := .file hgot.empty hgot.file
      by_cases hnl : (c.toNat : Int) = NL
      · have hc : c = 10 := (toNat_eq_iff c 10 (by omega)).mp hnl
        have hends := hgot.newline hnl
        subst hc
        rw [if_pos hnl]
        cases s with
        | nil =>
          have hrest := he.rest_of_short (by simp)
          have hnext := hfile.get_EOF hgot.reads.plain hrest
          have hreads := hgot.reads.trans hnext.reads
          subst hrest
          rw [hnext.c_ch, if_neg (by simp [EOF, NL]), if_pos rfl]
          refine ⟨[10], _, _, rfl, hreads, .more rfl (.file hnext.empty hnext.file) (.inl rfl)
            (toNat_ne_EOF _) (toNat_ne_NLNL _), fun _ => ?_, by simp⟩
          rcases hnext.reads.ends with hsame | hcrlf
          · rw [hsame, hends]
          · exact hcrlf
        | cons d s =>
          have hskip : d ≠ 10 → Ended rest (d :: s) := fun hd => he.tail (by simp [hd])
          have hnext := hfile.get hgot.reads.plain (htail d (List.mem_cons_self ..)) hu.tail
            fun hcr => (hskip (by simp [hcr])).rest_of_last
          have hreads := hgot.reads.trans hnext.reads
          have hends' : (EN_FGETC (EN_FGETC io).2).2.end_CRLF = crlf := by
            rcases hnext.reads.ends with hsame | hcrlf
            · rw [hsame, hends]
            · exact hcrlf
          rw [hnext.c_ch, if_neg (toNat_ne_EOF d)]
          by_cases hd : (d.toNat : Int) = NL
          · have hd : d = 10 := (toNat_eq_iff d 10 (by omega)).mp hd
            subst hd
            rw [if_pos hnl]
            exact ⟨[10], _, _, rfl, hreads, 
              .stop rfl rfl rfl hnext.file hends', fun _ => hends', by simp⟩
          · rw [if_neg hd]
            refine ⟨[10], _, _, rfl, hreads.unget _, .more rfl hnext.unget (hskip ?_)
              (toNat_ne_EOF _) (toNat_ne_NLNL _), fun _ => hends', by simp⟩
            rintro rfl
            exact hd hnl
      · have hc : c ≠ 10 := by
          rintro rfl
          exact hnl rfl
        have hended := he.tail (by simp [hc])
        rw [if_neg hnl]
        split
        · refine ⟨[c], _, _, rfl, hgot.reads, .more rfl hfile hended (toNat_ne_EOF c)
            (toNat_ne_NLNL c), ?_, by simp⟩
          intro hmem
          exact absurd (List.mem_singleton.mp hmem).symm hc
        · obtain ⟨u, ch', io', hscan, hreads, hscanned, hends, -⟩ :=
            ih (line ++ [c]) hgot.reads.plain hfile htail hu.tail hended
              (fun _ => ⟨toNat_ne_EOF c, toNat_ne_NLNL c⟩)
          refine ⟨c :: u, ch', io', by rw [hscan]; simp, hgot.reads.trans hreads, hscanned.cons c,
            ?_, by simp⟩
          intro hmem
          exact hends ((List.mem_cons.mp hmem).resolve_left fun heq => hc heq.symm)

/-! ## What is written -/

/-- What is written and held back. -/
def written (io : INOUT) : List UInt8 :=
  io.out_file ++ if io.out_enLWSP = 0 then [] else [byte io.out_enLWSP]

theorem written_of_none (h : io.out_enLWSP = 0) : written io = io.out_file := by
  unfold written
  rw [if_pos h, List.append_nil]

theorem Reads.written_eq {io' : INOUT} (h : Reads crlf io io') : written io' = written io := by
  unfold written
  rw [h.out, h.held]

/-- A character as it is written. -/
def put (crlf : Bool) (ch : Int) : List UInt8 := if ch = NL then eol crlf else [byte ch]

/-- The output grows by `w`, and nothing else is touched. -/
structure Writes (io io' : INOUT) (w : List UInt8) : Prop where
  plain : Plain io'
  file : io'.in_file = io.in_file
  pushed : io'.in_PUSHED = io.in_PUSHED
  ends : io'.end_CRLF = io.end_CRLF
  written_eq : written io' = written io ++ w

theorem NLfputc_out (ch : Int) (io : INOUT) :
    NLfputc ch io = { io with out_file := io.out_file ++ put io.end_CRLF ch } := by
  unfold NLfputc put eol fputc
  by_cases hNL : ch = NL
  · subst hNL
    cases hends : io.end_CRLF
    · simp [hends]
      rfl
    · simp
      exact ⟨rfl, rfl⟩
  · simp [hNL]

/-- A character is put as it is, where neither a word nor a fold is open. -/
theorem EN_FPUTC1_plain (h : Plain io) (ch : Int) :
    Plain (EN_FPUTC1 ch io .M_US_ASCII none) ∧
      (EN_FPUTC1 ch io .M_US_ASCII none).in_file = io.in_file ∧
      (EN_FPUTC1 ch io .M_US_ASCII none).in_PUSHED = io.in_PUSHED ∧
      (EN_FPUTC1 ch io .M_US_ASCII none).end_CRLF = io.end_CRLF ∧
      (EN_FPUTC1 ch io .M_US_ASCII none).out_enLWSP = io.out_enLWSP ∧
      (EN_FPUTC1 ch io .M_US_ASCII none).out_file =
        io.out_file ++ if ch = EOF then [] else put io.end_CRLF ch := by
  have hcs : ¬ MCharset.M_US_ASCII ≠ io.out_prevCHAR.c_mcharset := by simp [h.prev]
  have hfold : ¬ (ch ≠ NL ∧ (none : Option Encoding) = none ∧ io.MIME_ENCODED = true ∧
      MAXCOL ≤ io.out_column ∧ LWSP_CHAR ch = true) := by simp [h.encoded]
  unfold EN_FPUTC1
  rw [if_neg hcs]
  dsimp only
  rw [if_neg hfold]
  by_cases hEOF : ch = EOF
  · rw [if_neg (by simpa using hEOF), if_pos hEOF, List.append_nil]
    exact ⟨⟨h.code8B, h.charset, h.encoded, rfl, h.held⟩, rfl, rfl, rfl, rfl, rfl⟩
  · rw [if_pos hEOF, if_neg hEOF]
    unfold EN_FPUTC0
    rw [NLfputc_out]
    split
    · exact ⟨⟨h.code8B, h.charset, h.encoded, rfl, h.held⟩, rfl, rfl, rfl, rfl, rfl⟩
    · exact ⟨⟨h.code8B, h.charset, h.encoded, rfl, h.held⟩, rfl, rfl, rfl, rfl, rfl⟩

theorem put_toNat (crlf : Bool) (c : UInt8) :
    put crlf c.toNat = if c = 10 then eol crlf else [c] := by
  unfold put
  rw [byte_toNat]
  have hNL : (c.toNat : Int) = NL ↔ c = 10 := toNat_eq_iff c 10 (by omega)
  simp only [hNL]

/-- The blank that is held back is written first. -/
theorem flush_written (h : Plain io) :
    Writes io (EN_FPUTC.flush io) [] ∧ (EN_FPUTC.flush io).out_enLWSP = 0 := by
  unfold EN_FPUTC.flush
  by_cases hheld : io.out_enLWSP = 0
  · rw [if_neg (by simpa using hheld)]
    exact ⟨⟨h, rfl, rfl, rfl, (List.append_nil _).symm⟩, hheld⟩
  · rw [if_pos hheld]
    have hblank : io.out_enLWSP = TAB ∨ io.out_enLWSP = SPACE := by
      simpa [LWSP_CHAR] using h.held.resolve_left hheld
    have hEOF : io.out_enLWSP ≠ EOF := by
      rcases hblank with hb | hb <;> rw [hb] <;> simp [TAB, SPACE, EOF]
    have hNL : io.out_enLWSP ≠ NL := by
      rcases hblank with hb | hb <;> rw [hb] <;> simp [TAB, SPACE, NL]
    obtain ⟨hplain, hfile, hpushed, hends, -, hout⟩ := EN_FPUTC1_plain h io.out_enLWSP
    refine ⟨⟨⟨hplain.code8B, hplain.charset, hplain.encoded, hplain.prev, .inl rfl⟩, hfile, hpushed,
      hends, ?_⟩, rfl⟩
    unfold written
    rw [if_pos rfl, if_neg hheld, hout, if_neg hEOF, put, if_neg hNL]

/-- A plain character is written, after the blank that is held back, or held back itself. -/
theorem EN_FPUTC_plain (h : Plain io) (hc : c ≠ 0) :
    Writes io (EN_FPUTC c.toNat io .M_US_ASCII none) (put io.end_CRLF c.toNat) := by
  have hfold : (c.toNat : Int) ≠ XC_EN_FOLD := by
    unfold XC_EN_FOLD
    omega
  have hlast : (0 : Int) ≤ c.toNat ∧ (c.toNat : Int) < 256 := by
    have := c.toNat_lt
    omega
  have hio : Plain { io with out_lastputch := (c.toNat : Int) } :=
    ⟨h.code8B, h.charset, h.encoded, h.prev, h.held⟩
  obtain ⟨hw, hnone⟩ := flush_written hio
  have hpos : (c.toNat : Int) ≠ 0 := fun heq => hc ((toNat_eq_iff c 0 (by omega)).mp heq)
  have hwritten : (EN_FPUTC.flush { io with out_lastputch := (c.toNat : Int) }).out_file =
      written io := by
    rw [← written_of_none hnone, hw.written_eq, List.append_nil]
    rfl
  unfold EN_FPUTC
  rw [if_pos hlast]
  dsimp only
  rw [if_neg hfold]
  split
  · rename_i hblank
    have hNL : (c.toNat : Int) ≠ NL := by
      intro heq
      rw [heq] at hblank
      simp [LWSP_CHAR, NL, TAB, SPACE] at hblank
    refine ⟨⟨hw.plain.code8B, hw.plain.charset, hw.plain.encoded, hw.plain.prev, .inr hblank.1⟩,
      hw.file, hw.pushed, hw.ends, ?_⟩
    rw [written, if_neg hpos, hwritten, put, if_neg hNL]
  · obtain ⟨hplain, hfile, hpushed, hends, hheld, hout⟩ := EN_FPUTC1_plain hw.plain (c.toNat : Int)
    refine ⟨hplain, hfile.trans hw.file, hpushed.trans hw.pushed, hends.trans hw.ends, ?_⟩
    have hends' : (EN_FPUTC.flush { io with out_lastputch := (c.toNat : Int) }).end_CRLF =
        io.end_CRLF := hw.ends
    rw [written_of_none (hheld.trans hnone), hout, if_neg (toNat_ne_EOF c), hwritten, hends']

/-- Nothing is held back after a line end. -/
theorem EN_FPUTC_NL (h : Plain io) :
    (EN_FPUTC ((10 : UInt8).toNat : Int) io .M_US_ASCII none).out_enLWSP = 0 := by
  have hfold : ((10 : UInt8).toNat : Int) ≠ XC_EN_FOLD := by
    unfold XC_EN_FOLD
    omega
  have hlast : (0 : Int) ≤ ((10 : UInt8).toNat : Int) ∧ ((10 : UInt8).toNat : Int) < 256 := by simp
  have hblank : LWSP_CHAR ((10 : UInt8).toNat : Int) = false := rfl
  have hio : Plain { io with out_lastputch := ((10 : UInt8).toNat : Int) } :=
    ⟨h.code8B, h.charset, h.encoded, h.prev, h.held⟩
  obtain ⟨hw, hnone⟩ := flush_written hio
  obtain ⟨-, -, -, -, hheld, -⟩ := EN_FPUTC1_plain hw.plain ((10 : UInt8).toNat : Int)
  unfold EN_FPUTC
  rw [if_pos hlast]
  dsimp only
  rw [if_neg hfold, if_neg fun hb => Bool.false_ne_true (hblank.symm.trans hb.1), hheld, hnone]

/-- At the end of the input the blank that is held back is written. -/
theorem EN_FPUTC_EOF (h : Plain io) : (EN_FPUTC EOF io .M_US_ASCII none).out_file = written io := by
  obtain ⟨hw, hnone⟩ := flush_written h
  obtain ⟨-, -, -, -, -, hout⟩ := EN_FPUTC1_plain hw.plain EOF
  have hfold : EOF ≠ XC_EN_FOLD := by
    unfold EOF XC_EN_FOLD
    omega
  have hblank : LWSP_CHAR EOF = false := rfl
  have hlast : ¬ (0 ≤ EOF ∧ EOF < 256) := by simp [EOF]
  unfold EN_FPUTC
  rw [if_neg hlast]
  dsimp only
  rw [if_neg hfold, if_neg (by simp [hblank]), hout, if_pos rfl, List.append_nil,
    ← written_of_none hnone, hw.written_eq, List.append_nil]

/-! ## Words -/

theorem Writes.trans {a b c : INOUT} {v w : List UInt8} (hab : Writes a b v) (hbc : Writes b c w) :
    Writes a c (v ++ w) where
  plain := hbc.plain
  file := hbc.file.trans hab.file
  pushed := hbc.pushed.trans hab.pushed
  ends := hbc.ends.trans hab.ends
  written_eq := by rw [hbc.written_eq, hab.written_eq, List.append_assoc]

/-- Plain characters are written one after the other. -/
theorem puts_plain (h : Plain io) (ht : ∀ c ∈ u, c ≠ 0) :
    Writes io (u.foldl (fun io c => EN_FPUTC c.toNat io .M_US_ASCII none) io)
      (bytes io.end_CRLF u) := by
  induction u generalizing io with
  | nil => exact ⟨h, rfl, rfl, rfl, (List.append_nil _).symm⟩
  | cons c u ih =>
    have hput := EN_FPUTC_plain h (ht c (List.mem_cons_self ..))
    have hrest := ih hput.plain fun d hd => ht d (List.mem_cons_of_mem _ hd)
    rw [hput.ends] at hrest
    rw [List.foldl_cons, bytes_cons, ← put_toNat]
    exact hput.trans hrest

/-- Without line ends the kind of line ends does not matter. -/
theorem bytes_congr {a b : Bool} (h : 10 ∈ u → a = b) : bytes a u = bytes b u := by
  by_cases hmem : 10 ∈ u
  · rw [h hmem]
  · unfold bytes
    rw [List.flatMap_congr]
    intro c hc
    have hlf : c ≠ 10 := by
      rintro rfl
      exact hmem hc
    rw [if_neg hlf, if_neg hlf]

theorem Left.congr {io' : INOUT} (h : Left crlf rest io s) (hfile : io'.in_file = io.in_file)
    (hpushed : io'.in_PUSHED = io.in_PUSHED) (hends : io'.end_CRLF = io.end_CRLF) :
    Left crlf rest io' s := by
  cases h with
  | file hempty hin => exact .file (by rwa [hpushed]) (by rwa [hfile])
  | pushed hget hempty hch hcs hin hnl =>
    exact .pushed (by rwa [hpushed]) hempty hch hcs (by rwa [hfile]) (by rwa [hends])
  | pushedEOF hget hempty hch hcs hin hrest =>
    exact .pushedEOF (by rwa [hpushed]) hempty hch hcs (by rwa [hfile]) hrest

theorem Scanned.congr {io' : INOUT} (h : Scanned crlf rest s u ch io)
    (hfile : io'.in_file = io.in_file) (hpushed : io'.in_PUSHED = io.in_PUSHED)
    (hends : io'.end_CRLF = io.end_CRLF) : Scanned crlf rest s u ch io' := by
  cases h with
  | more hs hleft hended hEOF hNLNL =>
    exact .more hs (hleft.congr hfile hpushed hends) hended hEOF hNLNL
  | stop hs hlast hch hin hcrlf => exact .stop hs hlast hch (by rwa [hfile]) (by rwa [hends])
  | done hs hch hrest => exact .done hs hch hrest

theorem Scanned.prefix (h : Scanned crlf rest s u ch io) : u <+: s := by
  cases h with
  | more hs => exact ⟨_, hs.symm⟩
  | stop hs => exact ⟨_, hs.symm⟩
  | done hs => rw [hs]

/-- `noencode_word` writes what it reads. -/
theorem noencode_word_spec (h : Plain io) (hleft : Left crlf rest io s) (ht : PlainText s)
    (hu : Uniform crlf s) (he : Ended rest s) :
    ∃ u, Plain (noencode_word io).2 ∧
      Scanned crlf rest s u (noencode_word io).1 (noencode_word io).2 ∧
      written (noencode_word io).2 = written io ++ bytes crlf u ∧
      (10 ∈ u.getLast? → (noencode_word io).2.out_enLWSP = 0) ∧
      (u = [] → (noencode_word io).1 = EOF) := by
  obtain ⟨u, ch', io', hscan, hreads, hscanned, hends, hprogress⟩ :=
    noencode_word.scan_spec 73 [] h hleft ht hu he (by simp)
  have hzero : ∀ c ∈ u, c ≠ 0 := fun c hc => (ht c ( hscanned.prefix.subset hc)).1
  have hline : u.takeWhile (· ≠ 0) = u := by
    rw [List.takeWhile_eq_self_iff]
    intro c hc
    simpa using hzero c hc
  have hw := puts_plain hreads.plain hzero
  have hword : noencode_word io =
      (ch', u.foldl (fun io c => EN_FPUTC c.toNat io .M_US_ASCII none) io') := by
    unfold noencode_word
    dsimp only
    rw [hscan, List.nil_append]
    dsimp only
    rw [if_neg (by simp [h.encoded]), hline]
  rw [hword]
  refine ⟨u, hw.plain, hscanned.congr hw.file hw.pushed hw.ends, ?_, ?_, hprogress (by simp)⟩
  · rw [hw.written_eq, hreads.written_eq, bytes_congr hends]
  · intro hlast
    obtain ⟨v, rfl⟩ := List.getLast?_eq_some_iff.mp (Option.mem_def.mp hlast)
    rw [List.foldl_append]
    exact EN_FPUTC_NL (puts_plain hreads.plain fun c hc => hzero c (List.mem_append_left _ hc)).plain

/-! ## Headers -/

/-- The loop ends, and has written what it has read: all of the text, or what is before the second of
two line ends. -/
theorem encodeTurns_spec (encode_word : INOUT → Int × INOUT) {turns : Nat} (h : Plain io)
    (hleft : Left crlf rest io s) (ht : PlainText s) (hu : Uniform crlf s) (he : Ended rest s)
    (hturns : s.length < turns) :
    ∃ ch io', encodeTurns encode_word turns io = some (ch, io') ∧ Plain io' ∧
      ((ch = EOF ∧ rest = [] ∧ written io' = written io ++ bytes crlf s) ∨
        (ch ≠ EOF ∧ ∃ u s', s = u ++ 10 :: s' ∧ io'.out_file = written io ++ bytes crlf u ∧
          io'.in_file = bytes crlf s' ++ rest ∧ io'.end_CRLF = crlf)) := by
  induction turns generalizing s io with
  | zero => omega
  | succ turns ih =>
    -- the character that is looked at is pushed back
    obtain ⟨hcs, hreads, hagain⟩ : (EN_FGETC io).1.c_mcharset = .M_US_ASCII ∧
        Reads crlf io (EN_UNGETC (EN_FGETC io).1 (EN_FGETC io).2) ∧
        Left crlf rest (EN_UNGETC (EN_FGETC io).1 (EN_FGETC io).2) s := by
      cases s with
      | nil =>
        have hrest := he.rest_of_short (by simp)
        have hgot := hleft.get_EOF h hrest
        subst hrest
        exact ⟨hgot.c_mcharset, hgot.reads.unget _, hgot.unget_EOF⟩
      | cons c s =>
        have hgot := hleft.get h (ht c (List.mem_cons_self ..)) hu fun _ => he.rest_of_last
        exact ⟨hgot.c_mcharset, hgot.reads.unget _, hgot.unget⟩
    obtain ⟨u, hplain, hscanned, hwritten, hnone, hprogress⟩ :=
      noencode_word_spec hreads.plain hagain ht hu he
    rw [hreads.written_eq] at hwritten
    unfold encodeTurns
    dsimp only
    rw [if_pos hcs]
    cases hscanned with
    | more hs hleft' hended hEOF hNLNL =>
      rename_i s'
      have hne : u ≠ [] := fun hnil => hEOF (hprogress hnil)
      have hpos := List.length_pos_of_ne_nil hne
      rw [if_neg (not_or.mpr ⟨hEOF, hNLNL⟩)]
      have hlen := congrArg List.length hs
      rw [List.length_append] at hlen
      have hu' : Uniform crlf s' := fun hlf hcr => hu hlf (hcr.trans ⟨u, [], by rw [hs]; simp⟩)
      obtain ⟨ch, io', hrun, hplain', hcases⟩ := ih hplain hleft'
        (fun c hc => ht c (hs ▸ List.mem_append_right _ hc)) hu' hended (by omega)
      refine ⟨ch, io', hrun, hplain', ?_⟩
      rw [hwritten] at hcases
      rcases hcases with ⟨hch, hrest, hw⟩ | ⟨hch, v, s'', hs', hw, hfile, hends⟩
      · exact .inl ⟨hch, hrest, by rw [hw, hs, bytes_append, List.append_assoc]⟩
      · exact .inr ⟨hch, u ++ v, s'', by rw [hs, hs', List.append_assoc],
          by rw [hw, bytes_append, List.append_assoc], hfile, hends⟩
    | stop hs hlast hch hfile hends =>
      rw [if_pos (.inr hch)]
      refine ⟨_, _, rfl, hplain, .inr ⟨?_, u, _, hs, ?_, hfile, hends⟩⟩
      · rw [hch]
        unfold NLNL EOF
        omega
      · rw [← written_of_none (hnone hlast), hwritten]
    | done hs hch hrest =>
      rw [if_pos (.inl hch)]
      exact ⟨_, _, rfl, hplain, .inl ⟨hch, hrest, by rw [hwritten, hs]⟩⟩

/-- A line of `fgets` is what the input begins with. -/
theorem line_prefix (input : List UInt8) :
    (input.takeWhile (· ≠ 10) ++ if 10 ∈ input then [10] else []).take 1023 <+: input := by
  refine (List.take_prefix _ _).trans ?_
  have hsplit := List.takeWhile_append_dropWhile (p := fun c : UInt8 => decide (c ≠ 10)) (l := input)
  split
  · rename_i hmem
    cases hdrop : input.dropWhile fun c => decide (c ≠ 10) with
    | nil =>
      rw [List.dropWhile_eq_nil_iff] at hdrop
      exact absurd (hdrop 10 hmem) (by simp)
    | cons c t =>
      have hc := List.head?_dropWhile_not (fun c : UInt8 => decide (c ≠ 10)) input
      rw [hdrop] at hc
      have hc : c = 10 := by simpa using hc
      rw [hdrop, hc] at hsplit
      exact ⟨t, by simpa using hsplit⟩
  · rw [List.append_nil]
    exact List.takeWhile_prefix _

/-- A body without NUL is copied. -/
theorem copyLines_spec {n : Nat} {input : List UInt8} (hn : input.length < n)
    (hzero : ∀ c ∈ input, c ≠ 0) : copyLines n input = input := by
  induction n generalizing input with
  | zero => omega
  | succ n ih =>
    unfold copyLines
    dsimp only
    by_cases hnil : input = []
    · rw [if_pos hnil, hnil]
    · rw [if_neg hnil]
      obtain ⟨rest, hrest⟩ := line_prefix input
      have hpos : ((input.takeWhile (· ≠ 10) ++ if 10 ∈ input then [10] else []).take 1023) ≠ [] := by
        obtain ⟨c, t, rfl⟩ := List.exists_cons_of_ne_nil hnil
        by_cases hc : c = 10
        · simp [hc]
        · simp [hc]
      generalize ((input.takeWhile (· ≠ 10) ++ if 10 ∈ input then [10] else []).take 1023) = line
        at hrest hpos
      subst hrest
      have hline : line.takeWhile (· ≠ 0) = line := by
        rw [List.takeWhile_eq_self_iff]
        intro c hc
        simpa using hzero c (List.mem_append_left _ hc)
      have hlen := List.length_pos_of_ne_nil hpos
      rw [List.length_append] at hn
      rw [hline, List.drop_left, ih (by omega) fun c hc => hzero c (List.mem_append_right _ hc)]

/-- A message: a header, and a body after an empty line. Line ends are 10 in the header. -/
structure Message where
  crlf : Bool
  head : List UInt8
  body : Option (List UInt8)

/-- The message as it is read. -/
def Message.text (m : Message) : List UInt8 :=
  bytes m.crlf m.head ++
    match m.body with
    | none => []
    | some body => eol m.crlf ++ body

/-- The header has plain characters and one kind of line ends. It ends where an empty line is. -/
structure Message.Wf (m : Message) : Prop where
  plain : PlainText m.head
  uniform : Uniform m.crlf m.head
  lines : ∀ body ∈ m.body, (m.head = [] ∨ 10 ∈ m.head.getLast?) ∧ ∀ c ∈ body, c ≠ 0

theorem zero_not_mem_bytes (h : ∀ c ∈ s, c ≠ 0) : ∀ c ∈ bytes crlf s, c ≠ 0 := by
  intro c hc
  obtain ⟨d, hd, hmem⟩ := List.mem_flatMap.mp hc
  by_cases hlf : d = 10
  · rw [if_pos hlf] at hmem
    rintro rfl
    cases crlf <;> simp [eol] at hmem
  · rw [if_neg hlf, List.mem_singleton] at hmem
    rw [hmem]
    exact h d hd

/-- What is read is written: a text of plain characters, and what is after two line ends. -/
theorem headerEncode_text (encode_word : INOUT → Int × INOUT) (end_CRLF crlf : Bool)
    (ht : PlainText s) (hu : Uniform crlf s) (he : Ended rest s) (hzero : ∀ c ∈ rest, c ≠ 0)
    {turns : Nat} (hturns : s.length < turns) :
    MIME_headerEncodeX encode_word turns end_CRLF (bytes crlf s ++ rest) =
      some (bytes crlf s ++ rest) := by
  have hleft : Left crlf rest (INOUT_init (bytes crlf s ++ rest) end_CRLF) s := .file rfl rfl
  obtain ⟨ch, io, hrun, hplain, hcases⟩ :=
    encodeTurns_spec encode_word (plain_init _ end_CRLF) hleft ht hu he hturns
  have hinit : written (INOUT_init (bytes crlf s ++ rest) end_CRLF) = [] := rfl
  rw [hinit, List.nil_append] at hcases
  unfold MIME_headerEncodeX MIME_headerEncode0X
  rw [hrun, Option.map_some, Option.map_some]
  rcases hcases with ⟨hch, hrest, hw⟩ | ⟨hch, u, s', hs, hw, hfile, hends⟩
  · dsimp only
    rw [if_neg (by simpa using hch), if_pos hch, hch, EN_FPUTC_EOF hplain, hw, hrest,
      List.append_nil]
  · have hbody : ∀ c ∈ bytes crlf s' ++ rest, c ≠ 0 := by
      intro c hc
      rcases List.mem_append.mp hc with hc | hc
      · refine zero_not_mem_bytes (fun d hd => (ht d ?_).1) c hc
        rw [hs]
        exact List.mem_append_right _ (List.mem_cons_of_mem _ hd)
      · exact hzero c hc
    dsimp only
    rw [if_pos hch, if_neg hch, NLfputc_out]
    dsimp only
    rw [hfile, copyLines_spec (Nat.lt_succ_self _) hbody, hw, hends, hs, bytes_append, bytes_cons, put,
      if_pos rfl, if_pos rfl, List.nil_append]
    simp only [List.append_assoc]

/-- A header of plain characters is written as it is, if it is not empty. -/
theorem headerEncode_same (encode_word : INOUT → Int × INOUT) (end_CRLF : Bool) (m : Message)
    (hm : m.Wf) (hhead : m.body.isSome → m.head ≠ []) {turns : Nat}
    (hturns : m.head.length + 1 < turns) :
    MIME_headerEncodeX encode_word turns end_CRLF m.text = some m.text := by
  unfold Message.text
  cases hbody : m.body with
  | none =>
    exact headerEncode_text encode_word end_CRLF m.crlf hm.plain hm.uniform (.inl rfl) (by simp)
      (by omega)
  | some body =>
    obtain ⟨hlast, hzero⟩ := hm.lines body (by rw [hbody]; rfl)
    have hlast := hlast.resolve_left (hhead (by rw [hbody]; rfl))
    obtain ⟨lines, hlines⟩ := List.getLast?_eq_some_iff.mp (Option.mem_def.mp hlast)
    have hplain : PlainText (m.head ++ [10]) := by
      intro c hc
      rcases List.mem_append.mp hc with hc | hc
      · exact hm.plain c hc
      · rw [List.mem_singleton.mp hc]
        simp
    have huniform : Uniform m.crlf (m.head ++ [10]) := by
      intro hlf hcr
      rcases List.infix_concat_iff.mp hcr with hsuf | hinf
      · rcases List.suffix_concat_iff.mp hsuf with hnil | ⟨t, hcut, ht⟩
        · exact absurd hnil (by simp)
        · have hcut : t = [13] := (List.append_inj_left' hcut rfl).symm
          rw [hcut, hlines] at ht
          rcases List.suffix_concat_iff.mp ht with hnil | ⟨t, hcut, -⟩
          · exact absurd hnil (by simp)
          · have hcut := List.append_inj_right' (show [] ++ [13] = t ++ [10] from hcut) rfl
            simp at hcut
      · exact hm.uniform hlf hinf
    have hended : Ended body (m.head ++ [10]) := .inr ⟨lines, by rw [hlines]; simp⟩
    have hlen : (m.head ++ [10]).length < turns := by simpa using hturns
    have htext := headerEncode_text encode_word end_CRLF m.crlf hplain huniform hended hzero hlen
    rw [bytes_append] at htext
    simpa [bytes, List.append_assoc] using htext

theorem headerEncode_same_one :
    MIME_headerEncodeX (fun io => (EOF, io)) 10 false
        (⟨true, [65, 58, 32, 66, 10], some [27, 200]⟩ : Message).text =
      some (⟨true, [65, 58, 32, 66, 10], some [27, 200]⟩ : Message).text :=
  headerEncode_same (fun io => (EOF, io)) false ⟨true, [65, 58, 32, 66, 10], some [27, 200]⟩
    ⟨by simp [PlainText], by simp [Uniform], by simp⟩ (by simp) (by simp)

/-- After an empty header the line ends of the body are taken for those of the header. -/
theorem emptyHeader_changed :
    (⟨false, [], some [13, 10]⟩ : Message).Wf ∧
      MIME_headerEncodeX (fun io => (EOF, io)) 10 false (⟨false, [], some [13, 10]⟩ : Message).text ≠
        some (⟨false, [], some [13, 10]⟩ : Message).text := by
  refine ⟨⟨by simp [PlainText], by simp [Uniform], by simp⟩, ?_⟩
  have hrun : MIME_headerEncodeX (fun io => (EOF, io)) 10 false [10, 13, 10] =
      some [13, 10, 13, 10] := rfl
  have htext : (⟨false, [], some [13, 10]⟩ : Message).text = [10, 13, 10] := rfl
  rw [htext, hrun]
  simp

end delegate.mimehead
