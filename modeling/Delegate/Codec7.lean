-- The codec of texts in one line (rary/codec.cpp): `encode7` writes a text as it is, with
-- a letter for its line end, or else its bytes as two characters each.
import Delegate.CText

namespace delegate.codec

/-! ## The pure model -/

def T_TEXT : UInt8 := 55

def T_LTEXT : UInt8 := 108

def T_RTEXT : UInt8 := 114

def T_BINARY : UInt8 := 98

def D_BASE : UInt8 := 64

def CR : UInt8 := 13

def LF : UInt8 := 10

/-- The value of a character, which is signed. -/
def signed (c : UInt8) : Int := if c < 128 then c.toNat else c.toNat - 256

/-- The loop of `encode7` over the characters of the text: the type of the text, unless it goes to
`binary`. A CR or an LF is the line end of the text or makes it binary. -/
def textType : List UInt8 → Option UInt8
  | [] => some T_TEXT
  | sc :: srcs =>
    if sc = CR then
      if srcs.head? = some LF ∧ srcs.length = 1 then some T_RTEXT else none
    else if sc = LF then
      if srcs.length = 0 then some T_LTEXT else none
    else if sc = 27 then textType srcs
    else if signed sc < 0x20 ∨ 0x7F ≤ signed sc then none
    else textType srcs

/-- `strncpy`: the text up to its NUL, and NULs. -/
def strncpy (s : List UInt8) (n : Nat) : List UInt8 :=
  let t := (s.take n).takeWhile (· ≠ 0)
  t ++ List.replicate (n - t.length) 0

/-- Two characters for each byte. -/
def nibbles (srcs : List UInt8) : List UInt8 :=
  srcs.flatMap fun sc : UInt8 => [(sc >>> 4) + D_BASE, (sc &&& 0xF) + D_BASE]

/-- `encode7`: the length that is returned, and the buffer, which held `old` before. -/
def encode7 (srcs old : List UInt8) : Nat × List UInt8 :=
  let slen := srcs.length
  match textType srcs with
  | some type =>
    if type = T_TEXT then
      (1 + slen + 1, type :: strncpy srcs slen ++ [LF, 0] ++ old.drop (1 + slen + 2))
    else (1 + slen, type :: strncpy srcs slen ++ old.drop (1 + slen))
  | none =>
    (1 + 2 * slen + 1, T_BINARY :: nibbles srcs ++ [LF, 0] ++ old.drop (1 + 2 * slen + 2))

/-- The text of a buffer up to its NUL. -/
def cstr (s : List UInt8) : List UInt8 := s.takeWhile (· ≠ 0)

/-- The loop of `decode7` over two characters each. -/
def bytesOf : List UInt8 → List UInt8
  | ec1 :: ec2 :: ep =>
    if ec1 = 0 ∨ ec1 = CR ∨ ec1 = LF then []
    else ((ec1 - D_BASE) <<< 4 ||| (ec2 - D_BASE)) :: bytesOf ep
  | [ec1] =>
    if ec1 = 0 ∨ ec1 = CR ∨ ec1 = LF then [] else [(ec1 - D_BASE) <<< 4 ||| (0 - D_BASE)]
  | [] => []

/-- `strpbrk(srcs,"\\r\\n")`: the text before the first of them, if there is one. -/
def beforeEnd (srcs : List UInt8) : Option (List UInt8) :=
  if srcs.any (fun c => c = CR ∨ c = LF) then
    some (srcs.takeWhile fun c => ¬(c = CR ∨ c = LF))
  else none

/-- `decode7`: the bytes of the text, and the length that is returned. -/
def decode7 (encs : List UInt8) : List UInt8 × Nat :=
  let type := encs.headD 0
  if type = T_BINARY then
    let srcs := bytesOf encs.tail
    (srcs, srcs.length)
  else
    let srcs :=
      if type = T_TEXT ∨ type = T_LTEXT ∨ type = T_RTEXT then
        let srcs := cstr encs.tail
        match beforeEnd srcs with
        | none => srcs
        | some dp =>
          if type = T_TEXT then dp
          else if type = T_LTEXT then dp ++ [LF]
          else dp ++ [CR, LF]
      else cstr encs
    (srcs, srcs.length)

/-! ## The types of texts -/

/-- A character of a line. -/
def Plain (c : UInt8) : Prop := c ≠ 0 ∧ c ≠ CR ∧ c ≠ LF

/-- A text of a type is a line with the line end of the type. -/
inductive Typed : UInt8 → List UInt8 → Prop
  | text {t : List UInt8} (h : ∀ c ∈ t, Plain c) : Typed T_TEXT t
  | ltext {t : List UInt8} (h : ∀ c ∈ t, Plain c) : Typed T_LTEXT (t ++ [LF])
  | rtext {t : List UInt8} (h : ∀ c ∈ t, Plain c) : Typed T_RTEXT (t ++ [CR, LF])

theorem Typed.cons {type c : UInt8} {s : List UInt8} (hc : Plain c) (h : Typed type s) :
    Typed type (c :: s) := by
  have hmem : ∀ {t : List UInt8}, (∀ x ∈ t, Plain x) → ∀ x ∈ c :: t, Plain x := by
    intro t ht x hx
    rcases List.mem_cons.mp hx with rfl | hx
    · exact hc
    · exact ht x hx
  cases h with
  | text h => exact .text (hmem h)
  | ltext h => exact .ltext (hmem h)
  | rtext h => exact .rtext (hmem h)

theorem typed_of_textType {type : UInt8} {s : List UInt8} (h : textType s = some type) :
    Typed type s := by
  induction s with
  | nil =>
    cases h
    exact .text (by simp)
  | cons c s ih =>
    rw [textType] at h
    split at h
    · rename_i hcr
      split at h
      · rename_i hend
        cases h
        obtain ⟨hlf, hone⟩ := hend
        obtain ⟨d, rfl⟩ := List.length_eq_one_iff.mp hone
        have hd : d = LF := by simpa using hlf
        rw [hcr, hd]
        exact @Typed.rtext [] (by simp)
      · cases h
    · rename_i hcr
      split at h
      · rename_i hlf
        split at h
        · rename_i hend
          cases h
          rw [hlf, List.length_eq_zero_iff.mp hend]
          exact @Typed.ltext [] (by simp)
        · cases h
      · rename_i hlf
        split at h
        · rename_i hesc
          refine .cons ⟨?_, hcr, hlf⟩ (ih h)
          rw [hesc]
          decide
        · split at h
          · cases h
          · rename_i hrange
            refine .cons ⟨?_, hcr, hlf⟩ (ih h)
            rintro rfl
            exact hrange (.inl (by decide))

theorem Typed.no_nul {type : UInt8} {s : List UInt8} (h : Typed type s) : ∀ c ∈ s, c ≠ 0 := by
  cases h with
  | text h => exact fun c hc => (h c hc).1
  | ltext h =>
    intro c hc
    rcases List.mem_append.mp hc with hc | hc
    · exact (h c hc).1
    · rw [List.mem_singleton.mp hc]
      decide
  | rtext h =>
    intro c hc
    rcases List.mem_append.mp hc with hc | hc
    · exact (h c hc).1
    · simp only [List.mem_cons, List.not_mem_nil, or_false] at hc
      rcases hc with rfl | rfl
      · decide
      · decide

/-! ## What is read back -/

theorem cstr_append {s : List UInt8} (h : ∀ c ∈ s, c ≠ 0) (rest : List UInt8) :
    cstr (s ++ rest) = s ++ cstr rest :=
  List.takeWhile_append_of_pos fun c hc => decide_eq_true (h c hc)

theorem strncpy_eq {s : List UInt8} (h : ∀ c ∈ s, c ≠ 0) : strncpy s s.length = s := by
  have hall : s.takeWhile (· ≠ 0) = s :=
    List.takeWhile_eq_self_iff.mpr fun c hc => decide_eq_true (h c hc)
  unfold strncpy
  dsimp only
  rw [List.take_length, hall, Nat.sub_self, List.replicate_zero, List.append_nil]

theorem beforeEnd_append {t : List UInt8} (h : ∀ c ∈ t, Plain c) {e : UInt8}
    (he : e = CR ∨ e = LF) (rest : List UInt8) : beforeEnd (t ++ e :: rest) = some t := by
  have hany : (t ++ e :: rest).any (fun c => c = CR ∨ c = LF) = true := by
    rw [List.any_append, List.any_cons, decide_eq_true he, Bool.true_or, Bool.or_true]
  have hplain : ∀ c ∈ t, (decide ¬(c = CR ∨ c = LF)) = true := by
    intro c hc
    obtain ⟨-, hcr, hlf⟩ := h c hc
    exact decide_eq_true (not_or.mpr ⟨hcr, hlf⟩)
  have hend : ¬(decide ¬(e = CR ∨ e = LF)) = true := by
    rw [decide_eq_true_eq, not_not]
    exact he
  unfold beforeEnd
  rw [if_pos hany, List.takeWhile_append_of_pos hplain, List.takeWhile_cons, if_neg hend,
    List.append_nil]

/-- The two characters of a byte. -/
theorem byte_of_nibbles (c : UInt8) :
    ((c >>> 4) + D_BASE - D_BASE) <<< 4 ||| ((c &&& 0xF) + D_BASE - D_BASE) = c := by
  have hall : ∀ n : Fin 256, ((UInt8.ofFin n >>> 4) + D_BASE - D_BASE) <<< 4 |||
      ((UInt8.ofFin n &&& 0xF) + D_BASE - D_BASE) = UInt8.ofFin n := by
    decide +kernel
  exact hall c.toFin

theorem nibble_plain (c : UInt8) : Plain ((c >>> 4) + D_BASE) := by
  have hall : ∀ n : Fin 256, (UInt8.ofFin n >>> 4) + D_BASE ≠ 0 ∧
      (UInt8.ofFin n >>> 4) + D_BASE ≠ CR ∧ (UInt8.ofFin n >>> 4) + D_BASE ≠ LF := by
    decide +kernel
  exact hall c.toFin

theorem bytesOf_nibbles (s rest : List UInt8) : bytesOf (nibbles s ++ LF :: rest) = s := by
  induction s with
  | nil =>
    cases rest with
    | nil => rfl
    | cons c rest => exact if_pos (.inr (.inr rfl))
  | cons c s ih =>
    obtain ⟨hnul, hcr, hlf⟩ := nibble_plain c
    have hread : nibbles (c :: s) ++ LF :: rest =
        ((c >>> 4) + D_BASE) :: ((c &&& 0xF) + D_BASE) :: (nibbles s ++ LF :: rest) := rfl
    rw [hread, bytesOf, if_neg (not_or.mpr ⟨hnul, not_or.mpr ⟨hcr, hlf⟩⟩), byte_of_nibbles, ih]

/-- A text of a type is read back whatever stands behind it. -/
theorem decode7_typed {type : UInt8} {s : List UInt8} (h : Typed type s) (rest : List UInt8)
    (hrest : type = T_TEXT → ∃ r, rest = LF :: r) :
    decode7 (type :: (s ++ rest)) = (s, s.length) := by
  have hread := cstr_append h.no_nul rest
  unfold decode7
  dsimp only [List.headD_cons, List.tail_cons]
  cases h with
  | text ht =>
    obtain ⟨r, rfl⟩ := hrest rfl
    have hline : cstr (LF :: r) = LF :: cstr r := List.takeWhile_cons_of_pos (by decide)
    rw [if_neg (by decide), if_pos (.inl rfl), hread, hline, beforeEnd_append ht (.inr rfl)]
    rfl
  | @ltext t ht =>
    rw [if_neg (by decide), if_pos (.inr (.inl rfl)), hread, List.append_assoc,
      List.singleton_append, beforeEnd_append ht (.inr rfl)]
    rfl
  | @rtext t ht =>
    rw [if_neg (by decide), if_pos (.inr (.inr rfl)), hread, List.append_assoc,
      List.cons_append, beforeEnd_append ht (.inl rfl)]
    rfl

theorem decode7_binary (s rest : List UInt8) :
    decode7 (T_BINARY :: (nibbles s ++ LF :: rest)) = (s, s.length) := by
  unfold decode7
  dsimp only [List.headD_cons, List.tail_cons]
  rw [if_pos rfl, bytesOf_nibbles]

theorem length_nibbles (s : List UInt8) : (nibbles s).length = 2 * s.length := by
  unfold nibbles
  rw [List.length_flatMap]
  simp [Nat.mul_comm]

/-- The length that `encode7` returns covers a text that is read back whatever stands behind it. -/
theorem encode7_text (srcs old : List UInt8) :
    ∃ text rest, encode7 srcs old = (text.length, text ++ rest) ∧
      ∀ rest, decode7 (text ++ rest) = (srcs, srcs.length) := by
  unfold encode7
  dsimp only
  cases htype : textType srcs with
  | none =>
    refine ⟨T_BINARY :: (nibbles srcs ++ [LF]), 0 :: old.drop (1 + 2 * srcs.length + 2), ?_, ?_⟩
    · dsimp only
      rw [List.length_cons, List.length_append, length_nibbles, List.length_singleton]
      simp only [List.cons_append, List.append_assoc, List.nil_append, Prod.mk.injEq, and_true]
      omega
    · intro rest
      rw [List.cons_append, List.append_assoc]
      exact decode7_binary srcs rest
  | some type =>
    have htyped := typed_of_textType htype
    dsimp only
    rw [strncpy_eq htyped.no_nul]
    split
    · refine ⟨type :: (srcs ++ [LF]), 0 :: old.drop (1 + srcs.length + 2), ?_, ?_⟩
      · rw [List.length_cons, List.length_append, List.length_singleton]
        simp only [List.cons_append, List.append_assoc, List.nil_append, Prod.mk.injEq, and_true]
        omega
      · intro rest
        rw [List.cons_append, List.append_assoc]
        exact decode7_typed htyped _ fun _ => ⟨rest, rfl⟩
    · rename_i htext
      refine ⟨type :: srcs, old.drop (1 + srcs.length), ?_, ?_⟩
      · rw [List.length_cons, Nat.add_comm]
      · intro rest
        rw [List.cons_append]
        exact decode7_typed htyped rest fun h => absurd h htext

/-- `decode7` gives back the bytes and the length of every text, from the buffer of `encode7` as
well as from the characters that its length covers. -/
theorem decode7_encode7 (srcs old : List UInt8) :
    decode7 (encode7 srcs old).2 = (srcs, srcs.length) ∧
      decode7 ((encode7 srcs old).2.take (encode7 srcs old).1) = (srcs, srcs.length) := by
  obtain ⟨text, rest, henc, hdec⟩ := encode7_text srcs old
  rw [henc]
  refine ⟨hdec rest, ?_⟩
  rw [List.take_left]
  simpa using hdec []

end delegate.codec
