-- Quoted-printable: `MIME_toQP` and `MIME_fromQP` over files
-- (mimekit/mimecodes.cpp), `str_toqp` and `str_fromqp` over strings
-- (mimekit/str_codes.cpp).
import Delegate.Base64
import Delegate.Percent

open percent segs

namespace delegate.mimecodes

def CR : UInt8 := 13

/-! ## The encoder -/

def iscntrl (ch : UInt8) : Bool := ch < 32 || ch = 127

def isspace (ch : UInt8) : Bool := (9 ≤ ch && ch ≤ 13) || ch = 32

/-- What `QPIX` has for a character, as `init_QP` fills it. -/
inductive Qp
  | QP_THRU
  | QP_ESC
  deriving DecidableEq, Repr

def QPIX (ix : UInt8) : Qp :=
  if 0x80 ≤ ix || iscntrl ix && !isspace ix || ix = EQ then .QP_ESC else .QP_THRU

def hexd (n : UInt8) : UInt8 := hexDig n.toNat

/-- What is written for a character at a column, and the next column. -/
def qp1 (ocol : Nat) (ich : UInt8) : List UInt8 × Nat :=
  if QPIX ich = .QP_ESC ∨ ocol = 0 ∧ ich = 46 then
    ([EQ, hexd (ich >>> 4 &&& 0xF), hexd (ich &&& 0xF)], ocol + 3)
  else if ich = LF then ([ich], 0)
  else ([ich], ocol + 1)

/-- The loop of `MIME_toQP`. -/
def MIME_toQP.loop (ocol : Nat) : List UInt8 → List UInt8
  | [] => if 0 < ocol then [EQ, LF] else []
  | ich :: file =>
    let p := qp1 ocol ich
    if 72 < p.2 then p.1 ++ [EQ, LF] ++ loop 0 file
    else p.1 ++ loop p.2 file

/-- `MIME_toQP(in,out)`: what it writes. -/
def MIME_toQP (file : List UInt8) : List UInt8 := MIME_toQP.loop 0 file

/-! ## The decoder -/

/-- `MIME_fromQP(in,out)`: what it writes. -/
def MIME_fromQP : List UInt8 → List UInt8
  | [] => []
  | ch :: file =>
    if ch ≠ EQ then ch :: MIME_fromQP file
    else
      match file with
      | [] => []
      | ch1 :: file =>
        if ch1 = CR then
          match file with
          | [] => []
          | ch2 :: file2 =>
            if ch2 = LF then MIME_fromQP file2
            -- the character after CR is given back, and CR is no digit
            else EQ :: CR :: MIME_fromQP (ch2 :: file2)
        else if ch1 = LF then MIME_fromQP file
        else if ishex ch1 = false then EQ :: ch1 :: MIME_fromQP file
        else
          match file with
          | [] => []
          | ch2 :: file =>
            if ishex ch2 = false then EQ :: ch1 :: ch2 :: MIME_fromQP file
            else (Tok.esc ch1 ch2).byte :: MIME_fromQP file

/-! ## Over strings -/

/-- `str_callfunc(func,in,isize,out,osize)`: the text it leaves in `out`, which is as long as its
result. -/
def str_callfunc (func : List UInt8 → List UInt8) (str : List UInt8) (osize : Nat) : List UInt8 :=
  let written := (func str).take osize
  if osize ≤ written.length then written.take (osize - 1) else written

/-- `str_toqp(in,isize,out,osize)` -/
def str_toqp (str : List UInt8) (osize : Nat) : List UInt8 :=
  let out := str_callfunc MIME_toQP str osize
  let len := out.length
  if 2 < len ∧ out.getD (len - 2) 0 = EQ ∧ out.getD (len - 1) 0 = LF then out.take (len - 2)
  else out

/-- `str_fromqp(in,isize,out,osize)` -/
def str_fromqp (str : List UInt8) (osize : Nat) : List UInt8 := str_callfunc MIME_fromQP str osize

/-! ## Pieces of the coded text -/

/-- What the encoder writes: a character, an escape, or a soft break. -/
inductive Piece
  | raw (b : UInt8)
  | esc (b : UInt8)
  | soft

/-- The characters of a piece. -/
def Piece.text : Piece → List UInt8
  | raw b => [b]
  | esc b => [EQ, hexDig (b.toNat / 16), hexDig (b.toNat % 16)]
  | soft => [EQ, LF]

/-- The bytes that a piece stands for. -/
def Piece.bytes : Piece → List UInt8
  | raw b => [b]
  | esc b => [b]
  | soft => []

def Piece.Wf : Piece → Prop
  | raw b => b ≠ EQ
  | _ => True

theorem digit_spec (c : UInt8) : ishex c = true → c ≠ CR ∧ c ≠ LF ∧ c ≠ EQ := by
  revert c
  decide +kernel

/-- The decoder takes a piece. -/
theorem fromQP_piece {p : Piece} (h : p.Wf) (file : List UInt8) :
    MIME_fromQP (p.text ++ file) = p.bytes ++ MIME_fromQP file := by
  cases p with
  | raw b =>
    exact (MIME_fromQP.eq_def (b :: file)).trans (if_pos h)
  | esc b =>
    obtain ⟨hhi, hlo⟩ := enc_wf b
    obtain ⟨hcr, hlf, -⟩ := digit_spec _ hhi
    have hbyte := enc_byte b
    unfold enc at hbyte
    simp [Piece.text, Piece.bytes, MIME_fromQP, hcr, hlf, hhi, hlo, hbyte]
  | soft =>
    have hcr : LF ≠ CR := by decide
    change MIME_fromQP (EQ :: LF :: file) = MIME_fromQP file
    rw [MIME_fromQP.eq_def]
    simp [hcr]

theorem fromQP_pieces {ps : List Piece} (h : ∀ p ∈ ps, p.Wf) :
    MIME_fromQP (ps.flatMap Piece.text) = ps.flatMap Piece.bytes := by
  induction ps with
  | nil => rfl
  | cons p ps ih =>
    rw [List.flatMap_cons, List.flatMap_cons, fromQP_piece (h p List.mem_cons_self),
      ih fun q hq => h q (List.mem_cons_of_mem _ hq)]

/-- What is written for a character is a piece. -/
theorem qp1_piece (ocol : Nat) (ich : UInt8) :
    ∃ p : Piece, p.Wf ∧ p.bytes = [ich] ∧ (qp1 ocol ich).1 = p.text := by
  have hhi : ∀ b : UInt8, hexd (b >>> 4 &&& 0xF) = hexDig (b.toNat / 16) := by decide +kernel
  have hlo : ∀ b : UInt8, hexd (b &&& 0xF) = hexDig (b.toNat % 16) := by decide +kernel
  unfold qp1
  by_cases hesc : QPIX ich = .QP_ESC ∨ ocol = 0 ∧ ich = 46
  · rw [if_pos hesc, hhi, hlo]
    exact ⟨.esc ich, trivial, rfl, rfl⟩
  · have hne : ich ≠ EQ := by
      rintro rfl
      exact hesc (.inl rfl)
    rw [if_neg hesc]
    split
    · exact ⟨.raw ich, hne, rfl, rfl⟩
    · exact ⟨.raw ich, hne, rfl, rfl⟩

theorem toQP_pieces (ocol : Nat) (file : List UInt8) :
    ∃ ps : List Piece, (∀ p ∈ ps, p.Wf) ∧ MIME_toQP.loop ocol file = ps.flatMap Piece.text ∧
      ps.flatMap Piece.bytes = file := by
  induction file generalizing ocol with
  | nil =>
    unfold MIME_toQP.loop
    split
    · exact ⟨[.soft], by simp [Piece.Wf], rfl, rfl⟩
    · exact ⟨[], by simp, rfl, rfl⟩
  | cons ich file ih =>
    obtain ⟨p, hp, hbytes, htext⟩ := qp1_piece ocol ich
    unfold MIME_toQP.loop
    dsimp only
    split
    · obtain ⟨ps, hps, hloop, hfile⟩ := ih 0
      refine ⟨p :: .soft :: ps, ?_, ?_, ?_⟩
      · simp only [List.forall_mem_cons]
        exact ⟨hp, trivial, hps⟩
      · rw [htext, hloop, List.append_assoc]
        rfl
      · rw [List.flatMap_cons, List.flatMap_cons, hfile, hbytes]
        rfl
    · obtain ⟨ps, hps, hloop, hfile⟩ := ih (qp1 ocol ich).2
      refine ⟨p :: ps, ?_, ?_, ?_⟩
      · simp only [List.forall_mem_cons]
        exact ⟨hp, hps⟩
      · rw [htext, hloop]
        rfl
      · rw [List.flatMap_cons, hfile, hbytes]
        rfl

/-! ## The last soft break -/

/-- No piece ends with the character that begins an escape. -/
theorem getLast_text {p : Piece} (h : p.Wf) (a : List UInt8) :
    (a ++ p.text).getLast? ≠ some EQ := by
  cases p with
  | raw b =>
    simp only [Piece.text, List.getLast?_append, List.getLast?_singleton, Option.some_or]
    exact fun heq => h (Option.some.inj heq)
  | esc b =>
    obtain ⟨-, hlo⟩ := enc_wf b
    obtain ⟨-, -, hne⟩ := digit_spec _ hlo
    simp [Piece.text, hne]
  | soft => simp [Piece.text, LF, EQ]

theorem getLast_pieces {ps : List Piece} (h : ∀ p ∈ ps, p.Wf) :
    (ps.flatMap Piece.text).getLast? ≠ some EQ := by
  rcases List.eq_nil_or_concat ps with rfl | ⟨qs, p, rfl⟩
  · simp
  · rw [List.concat_eq_append, List.flatMap_append, List.flatMap_singleton]
    exact getLast_text (h p (by simp)) _

/-- A coded text that ends with a soft break stands for the same without it. -/
theorem pieces_dropSoft {ps : List Piece} (h : ∀ p ∈ ps, p.Wf) {y : List UInt8}
    (hy : ps.flatMap Piece.text = y ++ [EQ, LF]) :
    ∃ qs : List Piece, (∀ p ∈ qs, p.Wf) ∧ y = qs.flatMap Piece.text ∧
      qs.flatMap Piece.bytes = ps.flatMap Piece.bytes := by
  rcases List.eq_nil_or_concat ps with rfl | ⟨qs, p, rfl⟩
  · simp at hy
  · rw [List.concat_eq_append] at *
    have hqs : ∀ q ∈ qs, q.Wf := fun q hq => h q (List.mem_append_left _ hq)
    rw [List.flatMap_append, List.flatMap_singleton] at hy
    cases p with
    | raw b =>
      -- the break is that of the text, and nothing ends with the character before it
      have hlast := congrArg (fun l => l.dropLast.getLast?) hy
      simp [Piece.text] at hlast
      exact absurd hlast (getLast_pieces hqs)
    | esc b =>
      obtain ⟨-, hlo⟩ := enc_wf b
      obtain ⟨-, hlf, -⟩ := digit_spec _ hlo
      have hlast := congrArg List.getLast? hy
      simp [Piece.text] at hlast
      exact absurd hlast hlf
    | soft =>
      refine ⟨qs, hqs, ?_, by simp [Piece.bytes]⟩
      exact (List.append_cancel_right hy).symm

theorem fromQP_toQP (file : List UInt8) : MIME_fromQP (MIME_toQP file) = file := by
  obtain ⟨ps, hps, hloop, hbytes⟩ := toQP_pieces 0 file
  unfold MIME_toQP
  rw [hloop, fromQP_pieces hps, hbytes]

theorem str_callfunc_eq {func : List UInt8 → List UInt8} {str : List UInt8} {osize : Nat}
    (h : (func str).length < osize) : str_callfunc func str osize = func str := by
  unfold str_callfunc
  rw [List.take_of_length_le (by omega)]
  exact if_neg (by omega)

/-- The last two characters of a text. -/
theorem take_append_two {l : List UInt8} {a b : UInt8} (hlen : 2 < l.length)
    (ha : l.getD (l.length - 2) 0 = a) (hb : l.getD (l.length - 1) 0 = b) :
    l = l.take (l.length - 2) ++ [a, b] := by
  have hlt : l.length - 2 < l.length := by omega
  have hlt' : l.length - 1 < l.length := by omega
  rw [List.getD_eq_getElem _ _ hlt] at ha
  rw [List.getD_eq_getElem _ _ hlt'] at hb
  conv_lhs => rw [← List.take_append_drop (l.length - 2) l]
  have hnext : l.length - 2 + 1 = l.length - 1 := by omega
  have hend : l.length - 1 + 1 = l.length := by omega
  rw [List.drop_eq_getElem_cons hlt, ha]
  simp only [hnext]
  rw [List.drop_eq_getElem_cons hlt', hb]
  simp only [hend, List.drop_length]

theorem fromQP_str_toqp (file : List UInt8) {osize : Nat} (h : (MIME_toQP file).length < osize) :
    MIME_fromQP (str_toqp file osize) = file := by
  unfold str_toqp
  dsimp only
  rw [str_callfunc_eq h]
  by_cases hsoft : 2 < (MIME_toQP file).length ∧
      (MIME_toQP file).getD ((MIME_toQP file).length - 2) 0 = EQ ∧
      (MIME_toQP file).getD ((MIME_toQP file).length - 1) 0 = LF
  · rw [if_pos hsoft]
    obtain ⟨ps, hps, hloop, hbytes⟩ := toQP_pieces 0 file
    have hend := take_append_two hsoft.1 hsoft.2.1 hsoft.2.2
    obtain ⟨qs, hqs, hy, heq⟩ := pieces_dropSoft hps (hloop.symm.trans hend)
    rw [hy, fromQP_pieces hqs, heq, hbytes]
  · rw [if_neg hsoft]
    exact fromQP_toQP file

/-! ## Lines -/

/-- A line of mail that is not too long, and that is not taken for the end of the message. -/
def Line (l : List UInt8) : Prop := l.length ≤ 76 ∧ l.head? ≠ some 46

/-- What is written for a character makes the line longer by as much as the column. -/
theorem qp1_line {ocol : Nat} {ich : UInt8} (hne : (qp1 ocol ich).1 ≠ [LF]) :
    LF ∉ (qp1 ocol ich).1 ∧ (qp1 ocol ich).2 = ocol + (qp1 ocol ich).1.length ∧
      (qp1 ocol ich).1.length ≤ 3 ∧ (ocol = 0 → (qp1 ocol ich).1.head? ≠ some 46) := by
  have hdig : ∀ b : UInt8, hexd (b >>> 4 &&& 0xF) ≠ LF ∧ hexd (b &&& 0xF) ≠ LF := by
    decide +kernel
  unfold qp1 at *
  split
  · obtain ⟨hhi, hlo⟩ := hdig ich
    have heq : LF ≠ EQ := by decide
    have hdot : EQ ≠ 46 := by decide
    simp [hhi.symm, hlo.symm, heq, hdot]
  · rename_i hesc
    rw [if_neg hesc] at hne
    split
    · rename_i hlf
      rw [if_pos hlf, hlf] at hne
      exact absurd rfl hne
    · rename_i hlf
      refine ⟨?_, rfl, Nat.succ_le_succ (Nat.zero_le _), ?_⟩
      · rw [List.mem_singleton]
        exact fun h => hlf h.symm
      · intro hcol hdot
        exact hesc (.inr ⟨hcol, Option.some.inj hdot⟩)

theorem qp1_lf {ocol : Nat} {ich : UInt8} (h : (qp1 ocol ich).1 = [LF]) : (qp1 ocol ich).2 = 0 := by
  unfold qp1 at *
  split
  · rename_i hesc
    rw [if_pos hesc] at h
    simp at h
  · rename_i hesc
    rw [if_neg hesc] at h
    split
    · rfl
    · rename_i hlf
      rw [if_neg hlf] at h
      exact absurd (List.cons.inj h).1 hlf

theorem line_append {cur p : List UInt8} (hcur : Line cur) (hlen : (cur ++ p).length ≤ 76)
    (hp : cur = [] → p.head? ≠ some 46) : Line (cur ++ p) := by
  refine ⟨hlen, ?_⟩
  cases cur with
  | nil => exact hp rfl
  | cons c cur => exact hcur.2

/-- All lines are good, where the part of the first one that is written is. -/
theorem lines_toQP (ocol : Nat) (file cur : List UInt8) (hlf : LF ∉ cur) (hcur : Line cur)
    (hlen : cur.length = ocol) (hcol : ocol ≤ 72) :
    ∀ l ∈ segments LF (cur ++ MIME_toQP.loop ocol file), Line l := by
  have hnil : Line [] := ⟨Nat.zero_le _, by simp⟩
  have hbreak : ∀ {a : List UInt8}, LF ∉ a → LF ∉ a ++ [EQ] := by
    intro a ha
    have heq : LF ≠ EQ := by decide
    simp [ha, heq]
  induction file generalizing ocol cur with
  | nil =>
    unfold MIME_toQP.loop
    split
    · have hend : cur ++ [EQ, LF] = (cur ++ [EQ]) ++ LF :: [] := by simp
      rw [hend, segments_append_sep (hbreak hlf), segments_of_not_mem List.not_mem_nil]
      intro l hl
      simp only [List.mem_cons, List.not_mem_nil, or_false] at hl
      rcases hl with rfl | rfl
      · apply line_append hcur
        · rw [List.length_append, List.length_singleton]
          omega
        · simp [EQ]
      · exact hnil
    · rw [List.append_nil, segments_of_not_mem hlf]
      intro l hl
      rwa [List.mem_singleton.mp hl]
  | cons ich file ih =>
    unfold MIME_toQP.loop
    dsimp only
    by_cases hline : (qp1 ocol ich).1 = [LF]
    · rw [qp1_lf hline, if_neg (by omega), hline, List.singleton_append, segments_append_sep hlf]
      intro l hl
      rcases List.mem_cons.mp hl with rfl | hl
      · exact hcur
      · exact ih 0 [] List.not_mem_nil hnil rfl (Nat.zero_le _) l hl
    · obtain ⟨hplf, hcolumn, hthree, hdot⟩ := qp1_line hline
      generalize qp1 ocol ich = p at *
      have hmem : LF ∉ cur ++ p.1 := by
        rw [List.mem_append, not_or]
        exact ⟨hlf, hplf⟩
      have hlong : (cur ++ p.1).length = p.2 := by
        rw [List.length_append, hlen, hcolumn]
      have hgood : Line (cur ++ p.1) := by
        apply line_append hcur
        · omega
        · rintro rfl
          exact hdot hlen.symm
      split
      · have hend : cur ++ (p.1 ++ [EQ, LF] ++ MIME_toQP.loop 0 file) =
            (cur ++ p.1 ++ [EQ]) ++ LF :: MIME_toQP.loop 0 file := by simp
        rw [hend, segments_append_sep (hbreak hmem)]
        intro l hl
        rcases List.mem_cons.mp hl with rfl | hl
        · apply line_append hgood
          · rw [List.length_append, List.length_singleton]
            omega
          · simp [EQ]
        · exact ih 0 [] List.not_mem_nil hnil rfl (Nat.zero_le _) l hl
      · rw [← List.append_assoc]
        exact ih p.2 (cur ++ p.1) hmem hgood hlong (by omega)

/-- Quoted-printable text stands for what was coded, over files and over strings, and its lines
are good. -/
theorem quotedPrintable_there_and_back (x : List UInt8) :
    MIME_fromQP (MIME_toQP x) = x ∧
      (∀ osize osize', (MIME_toQP x).length < osize → x.length < osize' →
        str_fromqp (str_toqp x osize) osize' = x) ∧
      ∀ l ∈ segments LF (MIME_toQP x), Line l := by
  refine ⟨fromQP_toQP x, ?_, ?_⟩
  · intro osize osize' hout hin
    have hback := fromQP_str_toqp x hout
    unfold str_fromqp
    rw [str_callfunc_eq (by rwa [hback]), hback]
  · exact lines_toQP 0 x [] List.not_mem_nil ⟨Nat.zero_le _, by simp⟩ rfl (Nat.zero_le _)

end delegate.mimecodes
