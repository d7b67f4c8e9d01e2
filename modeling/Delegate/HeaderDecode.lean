-- The decoder of headers (mimekit/mimehead.cpp): the blanks that are held back, the scan of an
-- encoded word, and the turns over a text. What is behind a word that was scanned to its end is a
-- parameter.
import Delegate.HeaderEncode

namespace delegate.mimehead

/-! ## Writing -/

def XC_DE_UNFOLD : Int := -2147483645
def XC_DE_CATENATE : Int := -2147483644
def XC_DE_AFTER_EWORD : Int := -2147483643
def XC_DE_FORMFEED : Int := -2147483642
def XC_DE_DEL_LWSP : Int := -2147483641
def XC_DE_IGN_LWSP : Int := -2147483640
def XC_DE_OFLUSH : Int := -2147483639
def XC_DE_EWORD_SP : Int := -2147483638
def XC_DE_EWORD_TAB : Int := -2147483637
def XC_DE_FIELD_TOP : Int := -2147483636
def XC_DE_TOOLONG : Int := -268435455

/-- `CODESW_SEQ`: the column `iso2022` of `BasicCharsets`. -/
def CODESW_SEQ (bset : Nat) : List UInt8 :=
  if bset = B_US_ASCII then [27, 40, 66]
  else if bset = B_JP_ASCII then [27, 40, 74]
  else if bset = B_JP_KANJI1 then [27, 36, 64]
  else if bset = B_JP_KANJI2 then [27, 36, 66]
  else []

def fputs (s : List UInt8) (io : INOUT) : INOUT := { io with out_file := io.out_file ++ s }

def DE_FPUTC1X (CH : CHARx) (io : INOUT) : INOUT :=
  let ch :=
    if CH.c_ch = XC_DE_EWORD_SP then SPACE
    else if CH.c_ch = XC_DE_EWORD_TAB then TAB
    else CH.c_ch
  let cset := CH.c_bcharset
  let io :=
    if cset ≠ io.out_prev_bcharset then
      { fputs (CODESW_SEQ cset) io with out_prev_bcharset := cset }
    else io
  let io := { io with AFTER_EWORD := false }
  if ch = EOF ∨ ch = XC_DE_OFLUSH then io
  else NLfputc ch { io with out_column := if ch = NL then 0 else io.out_column + 1 }

/-- A character in the current ASCII family. -/
def inASCII (ch : Int) (io : INOUT) : CHARx := ⟨ch, .M_US_ASCII, io.out_whichASCII, none⟩

def DE_FPUTC1 (ch : Int) (io : INOUT) : INOUT := DE_FPUTC1X (inASCII ch io) io

def CLEAR_LWSP (io : INOUT) : INOUT :=
  { io with out_deLWSP := ({ io.out_deLWSP.1 with c_ch := 0 }, io.out_deLWSP.2) }

/-- Writes the blanks that are held. -/
def DE_FPUTCX.flush (io : INOUT) : INOUT :=
  if io.out_deLWSP.1.c_ch = 0 then io
  else
    let io := DE_FPUTC1X io.out_deLWSP.1 io
    CLEAR_LWSP (if io.out_deLWSP.2.c_ch = 0 then io else DE_FPUTC1X io.out_deLWSP.2 io)

/-- A blank or a line end after a blank that is held. -/
def DE_FPUTCX.hold (CH : CHARx) (io : INOUT) : INOUT :=
  if CH.c_ch = NL ∧ io.out_deLWSP.1.c_ch = NL then io
  else if CH.c_ch = NL then
    let io := if io.AFTER_EWORD then io else DE_FPUTC1X io.out_deLWSP.1 io
    { io with out_deLWSP := (CH, { io.out_deLWSP.2 with c_ch := 0 }) }
  else { io with out_deLWSP := (io.out_deLWSP.1, CH) }

def DE_FPUTCX (CH : CHARx) (io : INOUT) : INOUT :=
  let ch := CH.c_ch
  if ch = XC_DE_DEL_LWSP then CLEAR_LWSP io
  else if ch = XC_DE_IGN_LWSP then { io with IGN_POST_SPACE := true }
  else if io.IGN_POST_SPACE ∧ LWSP_CHAR ch then io
  else
    let io :=
      if io.IGN_POST_SPACE ∧ 0 ≤ ch ∧ ch ≤ 255 then { io with IGN_POST_SPACE := false } else io
    if ch = XC_DE_AFTER_EWORD then { io with AFTER_EWORD := true }
    else if ch = XC_DE_CATENATE then
      let PCH := if io.out_deLWSP.1.c_ch = NL then io.out_deLWSP.2 else io.out_deLWSP.1
      CLEAR_LWSP (if io.AFTER_EWORD ∨ PCH.c_ch = 0 then io else DE_FPUTC1X PCH io)
    else if ch = XC_DE_UNFOLD then
      if io.out_deLWSP.1.c_ch = NL ∧ io.out_deLWSP.2.c_ch ≠ 0 then
        CLEAR_LWSP (DE_FPUTC1X io.out_deLWSP.2 io)
      else io
    else if ch = XC_DE_FORMFEED then DE_FPUTC1 NL (DE_FPUTC1 FORMFEED (DE_FPUTCX.flush io))
    else if ch = XC_DE_FIELD_TOP then
      CLEAR_LWSP (if io.out_deLWSP.1.c_ch = NL then DE_FPUTC1X io.out_deLWSP.1 io else io)
    else if io.out_deLWSP.1.c_ch ≠ 0 ∧ (ch = NL ∨ LWSP_CHAR ch) then DE_FPUTCX.hold CH io
    else
      let io := DE_FPUTCX.flush io
      if io.UNFOLD_LINE ∧ (ch = NL ∨ LWSP_CHAR ch) then
        { io with out_deLWSP := (CH, { io.out_deLWSP.2 with c_ch := 0 }) }
      else DE_FPUTC1X CH io

def DE_FPUTC (ch : Int) (io : INOUT) : INOUT := DE_FPUTCX (inASCII ch io) io

/-! ## Words -/

/-- The loops of `scan_eword` over the charset and over the encoding, with `n` places left: how it
ends, what is read, and the part. -/
def scan_eword.part : Nat → List UInt8 → List UInt8 → INOUT →
    Int × List UInt8 × List UInt8 × INOUT
  | 0, reads, part, io => (XC_DE_TOOLONG, reads, part, io)
  | n + 1, reads, part, io =>
    let (cs, io) := NLfgetc io
    if cs = NL ∨ cs = EOF then (cs, reads, part, io)
    else if cs = 63 then (0, reads ++ [byte cs], part, io)
    else scan_eword.part n (reads ++ [byte cs]) (part ++ [byte cs]) io

/-- The loop of `scan_eword` over the text. A character after a question mark is read again. -/
def scan_eword.text : Nat → List UInt8 → List UInt8 → INOUT →
    Int × List UInt8 × List UInt8 × INOUT
  | 0, reads, text, io => (XC_DE_TOOLONG, reads, text, io)
  | n + 1, reads, text, io =>
    let (cs, io) := NLfgetc io
    if cs = NL ∨ cs = EOF then (cs, reads, text, io)
    else if cs = 63 then
      let reads := reads ++ [63]
      let (cs, io) := NLfgetc io
      if cs = NL ∨ cs = EOF then (cs, reads, text, io)
      else if cs = 61 then (0, reads ++ [61], text, io)
      else scan_eword.text n (reads ++ [byte cs]) (text ++ [63]) (ungetc cs io)
    else scan_eword.text n (reads ++ [byte cs]) (text ++ [byte cs]) io

/-- How it ends, what is read, the charset, the encoding and the text. -/
def scan_eword (io : INOUT) :
    Int × List UInt8 × (List UInt8 × List UInt8 × List UInt8) × INOUT :=
  let (eow, reads, charset, io) := scan_eword.part 32 [] [] io
  if eow ≠ 0 then (eow, reads, (charset, [], []), io)
  else
    let (eow, reads, encoding, io) := scan_eword.part 32 reads [] io
    if eow ≠ 0 then (eow, reads, (charset, encoding, []), io)
    else
      let (eow, reads, text, io) := scan_eword.text 120 reads [] io
      (eow, reads, (charset, encoding, text), io)

/-- `decode_word`: `DECODE` is what it does with a word that was scanned to its end. -/
def decode_word (DECODE : List UInt8 × List UInt8 × List UInt8 → INOUT → INOUT) (io : INOUT) :
    Int × INOUT :=
  let (eow, reads, word, io) := scan_eword io
  if eow = NL ∨ eow = EOF ∨ eow = XC_DE_TOOLONG then
    let io := fputs ([61, 63] ++ reads.takeWhile (· ≠ 0)) (DE_FPUTC XC_DE_OFLUSH io)
    (eow, if eow = NL then ungetc eow io else io)
  else (0, DECODE word io)

def nodecode_word (ch : Int) (io : INOUT) : INOUT :=
  if io.MIME_ENCODED then
    if io.out_column < MAXCOL then
      DE_FPUTC ch (if LWSP_CHAR ch then io else DE_FPUTC XC_DE_UNFOLD io)
    else if LWSP_CHAR ch then
      let io := DE_FPUTC XC_DE_OFLUSH io
      DE_FPUTC ch (if MAXCOL ≤ io.out_column then DE_FPUTC NL io else io)
    else DE_FPUTC ch io
  else DE_FPUTC ch io

/-! ## Headers -/

def DE_FGETC (io : INOUT) : Int × INOUT :=
  let (ch, io) := NLfgetc io
  let (ch, io) :=
    if ch = FORMFEED then
      let (ch, io) := NLfgetc io
      let (ch, io) :=
        if ch = NL then (XC_DE_FORMFEED, io)
        else (FORMFEED, if ch ≠ EOF then ungetc ch io else io)
      (ch, { io with MIME_ENCODED := false })
    else if ch = NL then
      let (ch, io) := NLfgetc io
      let io := if LWSP_CHAR ch then io else { io with MIME_ENCODED := false }
      if ch = NL then (NLNL, io) else (NL, if ch ≠ EOF then ungetc ch io else io)
    else (ch, io)
  (ch, { io with in_prevch := ch })

/-- The turns of the loop of `MIME_headerDecodeX`, with the last character. -/
def decodeTurns (DECODE : List UInt8 × List UInt8 × List UInt8 → INOUT → INOUT) :
    Nat → INOUT → Option (Int × INOUT)
  | 0, _ => none
  | n + 1, io =>
    let prev_ch := io.in_prevch
    let (ch, io) := DE_FGETC io
    if ch = EOF then some (ch, io)
    else if ch = 61 then
      let (ch, io) := NLfgetc io
      if ch = EOF then some (ch, io)
      else if ch = 63 then
        let (eow, io) := decode_word DECODE io
        if eow = EOF then some (ch, io) else decodeTurns DECODE n io
      else decodeTurns DECODE n (ungetc ch (DE_FPUTC 61 io))
    else if ch = NLNL then
      some (ch, DE_FPUTC NL (DE_FPUTC NL { DE_FPUTC XC_DE_OFLUSH io with UNFOLD_LINE := false }))
    else
      let io :=
        if prev_ch = NL ∧ ch ≠ NL ∧ ¬ LWSP_CHAR ch then DE_FPUTC XC_DE_FIELD_TOP io else io
      decodeTurns DECODE n (nodecode_word ch io)

/-- The loop that copies the body. -/
def copyBody : Nat → INOUT → Option INOUT
  | 0, _ => none
  | n + 1, io =>
    let (ch, io) := NLfgetc io
    if ch = EOF then some io else copyBody n (DE_FPUTC ch io)

/-- `MIME_headerDecodeX` without a `MimeConv`, with the body too. -/
def MIME_headerDecodeX (DECODE : List UInt8 × List UInt8 × List UInt8 → INOUT → INOUT)
    (turns : Nat) (end_CRLF : Bool) (input : List UInt8) : Option INOUT := do
  let (ch, io) ← decodeTurns DECODE turns { INOUT_init input end_CRLF with UNFOLD_LINE := true }
  let io := { io with UNFOLD_LINE := false }
  (if ch ≠ EOF then copyBody turns io else some io).map (DE_FPUTC EOF)

/-- Drops the bytes 255, but not the second of two. -/
def dropFF : List UInt8 → List UInt8
  | [] => []
  | [c] => if c = 255 then [] else [c]
  | c :: d :: rest => if c = 255 then d :: dropFF rest else c :: dropFF (d :: rest)

/-- `MIME_strHeaderDecodeX` into a buffer that is large enough. -/
def MIME_strHeaderDecodeX (DECODE : List UInt8 × List UInt8 × List UInt8 → INOUT → INOUT)
    (turns : Nat) (end_CRLF : Bool) (ins : List UInt8) : Option (List UInt8) := do
  let io ← MIME_headerDecodeX DECODE turns end_CRLF (ins.takeWhile (· ≠ 0))
  some (dropFF (io.out_file.takeWhile (· ≠ 0)))

end delegate.mimehead
