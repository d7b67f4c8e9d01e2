-- Percent-encoded text as a sequence of tokens: raw bytes, and escapes of two
-- hexadecimal digits.
import Mathlib.Data.FinEnum
import Mathlib.Tactic.Linarith

namespace percent

/-! ## Digits -/

/-- A hexadecimal digit. -/
def ishex (c : UInt8) : Bool :=
  (48 ≤ c && c ≤ 57) || (65 ≤ c && c ≤ 70) || (97 ≤ c && c ≤ 102)

/-- The value of a digit. -/
def hexVal (c : UInt8) : Nat :=
  if c ≤ 57 then c.toNat - 48 else if c ≤ 70 then c.toNat - 55 else c.toNat - 87

theorem hexVal_lt (c : UInt8) : ishex c = true → hexVal c < 16 := by
  revert c
  decide +kernel

theorem ishex_ne (c : UInt8) : ishex c = true → c ≠ 0 ∧ c ≠ 37 := by
  revert c
  decide +kernel

/-! ## Tokens -/

/-- A raw byte, or an escape with its two digits. -/
inductive Tok
  | raw (b : UInt8)
  | esc (hi lo : UInt8)
  deriving DecidableEq, Repr

/-- The byte of a token. -/
def Tok.byte : Tok → UInt8
  | raw b => b
  | esc hi lo => UInt8.ofNat (hexVal hi * 16 + hexVal lo)

def Tok.text : Tok → List UInt8
  | raw b => [b]
  | esc hi lo => [37, hi, lo]

/-- The tokens of a text. A percent sign that no two digits follow is a raw byte. -/
def tokens : List UInt8 → List Tok
  | [] => []
  | c :: hi :: lo :: cs =>
    if c = 37 ∧ ishex hi = true ∧ ishex lo = true then .esc hi lo :: tokens cs
    else .raw c :: tokens (hi :: lo :: cs)
  | c :: cs => .raw c :: tokens cs

/-- The bytes of a text, with each escape decoded once. -/
def decode (cs : List UInt8) : List UInt8 := (tokens cs).map Tok.byte

/-- The first token of a text, and the text after it. -/
inductive Head : List UInt8 → Tok → List UInt8 → Prop
  | esc {hi lo cs} : ishex hi = true → ishex lo = true → Head (37 :: hi :: lo :: cs) (.esc hi lo) cs
  | bare {cs} : ¬(ishex (cs.getD 0 0) = true ∧ ishex (cs.getD 1 0) = true) →
      Head (37 :: cs) (.raw 37) cs
  | raw {c cs} : c ≠ 37 → Head (c :: cs) (.raw c) cs

theorem exists_head (c : UInt8) (cs : List UInt8) : ∃ t rest, Head (c :: cs) t rest := by
  by_cases hc : c = 37
  · subst hc
    by_cases hhex : ishex (cs.getD 0 0) = true ∧ ishex (cs.getD 1 0) = true
    · obtain ⟨hhi, hlo⟩ := hhex
      match cs with
      | [] => cases hhi
      | [_] => cases hlo
      | hi :: lo :: cs => exact ⟨_, _, .esc hhi hlo⟩
    · exact ⟨_, _, .bare hhex⟩
  · exact ⟨_, _, .raw hc⟩

section
variable {cs rest : List UInt8} {t : Tok}

theorem tokens_raw {c : UInt8}
    (h : ¬(c = 37 ∧ ishex (cs.getD 0 0) = true ∧ ishex (cs.getD 1 0) = true)) :
    tokens (c :: cs) = .raw c :: tokens cs := by
  match cs with
  | [] => rfl
  | [_] => rfl
  | hi :: lo :: cs => exact if_neg h

theorem Head.tokens (h : Head cs t rest) : percent.tokens cs = t :: percent.tokens rest := by
  cases h with
  | esc hhi hlo => exact if_pos ⟨rfl, hhi, hlo⟩
  | bare hno => exact tokens_raw fun hand => hno hand.2
  | raw hc => exact tokens_raw fun hand => hc hand.1

theorem Head.decode (h : Head cs t rest) : percent.decode cs = t.byte :: percent.decode rest := by
  unfold percent.decode
  rw [h.tokens, List.map_cons]

theorem Head.text_append (h : Head cs t rest) : cs = t.text ++ rest := by
  cases h <;> rfl

theorem decode_eq_nil : decode cs = [] ↔ cs = [] := by
  constructor
  · intro h
    cases cs with
    | nil => rfl
    | cons c cs =>
      obtain ⟨t, rest, hhead⟩ := exists_head c cs
      rw [hhead.decode] at h
      cases h
  · rintro rfl
    rfl

/-! ## Escapes -/

/-- A digit, in upper case. -/
def hexDig (n : Nat) : UInt8 := UInt8.ofNat (if n < 10 then 48 + n else 55 + n)

/-- The escape of a byte. -/
def enc (b : UInt8) : Tok := .esc (hexDig (b.toNat / 16)) (hexDig (b.toNat % 16))

@[simp] theorem enc_byte (b : UInt8) : (enc b).byte = b := by
  revert b
  decide +kernel

/-- The digits of an escape are digits. -/
def Tok.Wf : Tok → Prop
  | raw b => b ≠ 37
  | esc hi lo => ishex hi = true ∧ ishex lo = true

theorem enc_wf (b : UInt8) : (enc b).Wf := by
  have hdig : ∀ b : UInt8, ishex (hexDig (b.toNat / 16)) = true ∧
      ishex (hexDig (b.toNat % 16)) = true := by
    decide +kernel
  exact hdig b

theorem head_text (h : t.Wf) : Head (t.text ++ rest) t rest := by
  cases t with
  | raw b => exact .raw h
  | esc hi lo => exact .esc h.1 h.2

/-- A text that is made of tokens, none of them a stray percent sign, has these tokens. -/
theorem tokens_flatMap {ts : List Tok} (h : ∀ t ∈ ts, t.Wf) : tokens (ts.flatMap Tok.text) = ts := by
  induction ts with
  | nil => rfl
  | cons t ts ih =>
    rw [List.flatMap_cons, (head_text (h t List.mem_cons_self)).tokens,
      ih fun t' ht' => h t' (List.mem_cons_of_mem _ ht')]

/-! ## Prefixes -/

/-- A prefix that holds the first token begins with it. -/
theorem Head.take (h : Head cs t rest) {n : Nat} (hn : t.text.length ≤ n) :
    Head (cs.take n) t (rest.take (n - t.text.length)) := by
  cases h with
  | esc hhi hlo =>
    obtain ⟨m, rfl⟩ : ∃ m, n = m + 3 := ⟨n - 3, by simp only [Tok.text, List.length] at hn; omega⟩
    exact .esc hhi hlo
  | bare hno =>
    obtain ⟨m, rfl⟩ : ∃ m, n = m + 1 := ⟨n - 1, by simp only [Tok.text, List.length] at hn; omega⟩
    refine .bare fun hhex => hno ?_
    match m, rest with
    | 0, _ => cases hhex.1
    | 1, [] => cases hhex.1
    | 1, _ :: _ => cases hhex.2
    | m + 2, [] => exact hhex
    | m + 2, [_] => exact hhex
    | m + 2, _ :: _ :: _ => exact hhex
  | raw hc =>
    obtain ⟨m, rfl⟩ : ∃ m, n = m + 1 := ⟨n - 1, by simp only [Tok.text, List.length] at hn; omega⟩
    exact .raw hc

/-- A prefix that is cut inside an escape holds its characters as raw bytes. -/
theorem decode_take_esc {hi lo : UInt8} (n : Nat) (hn : n < 3) :
    decode ((37 :: hi :: lo :: cs).take n) = [37, hi].take n := by
  match n, hn with
  | 0, _ => rfl
  | 1, _ => rfl
  | 2, _ => rfl

/-- Some prefix of the text denotes these bytes. -/
def Begins (cs bs : List UInt8) : Prop := ∃ n ≤ cs.length, decode (cs.take n) = bs

theorem begins_nil : Begins cs [] := ⟨0, Nat.zero_le _, rfl⟩

theorem not_begins_cons {b : UInt8} {bs : List UInt8} : ¬Begins [] (b :: bs) := by
  rintro ⟨n, -, hn⟩
  rw [List.take_nil] at hn
  cases hn

/-- The bytes are not those of a prefix that is cut inside the first token. -/
def Uncut (t : Tok) (b : UInt8) (bs : List UInt8) : Prop :=
  match t with
  | .raw _ => True
  | .esc hi _ => b = 37 → bs ≠ [hi] ∧ (t.byte ≠ 37 → bs ≠ [])

instance instDecidableUncut : (t : Tok) → (b : UInt8) → (bs : List UInt8) → Decidable (Uncut t b bs)
  | .raw _, _, _ => isTrue trivial
  | .esc _ _, _, _ => inferInstanceAs (Decidable (_ → _))

/-- A text begins with some bytes if its first token is the first of them and the rest begins
with the others. -/
theorem Head.begins_cons (h : Head cs t rest) {b : UInt8} {bs : List UInt8} (hcut : Uncut t b bs) :
    Begins cs (b :: bs) ↔ t.byte = b ∧ Begins rest bs := by
  have hlen : cs.length = t.text.length + rest.length := by
    rw [h.text_append, List.length_append]
  constructor
  · rintro ⟨n, hn, hdec⟩
    by_cases hle : t.text.length ≤ n
    · rw [(h.take hle).decode, List.cons.injEq] at hdec
      exact ⟨hdec.1, n - t.text.length, by omega, hdec.2⟩
    · cases h with
      | @esc hi lo cs hhi hlo =>
        have hlt : n < 3 := by simpa [Tok.text] using hle
        rw [decode_take_esc n hlt] at hdec
        match n, hlt with
        | 0, _ => cases hdec
        | 1, _ =>
          obtain ⟨rfl, rfl⟩ := List.cons.inj hdec
          by_cases hbyte : (Tok.esc hi lo).byte = 37
          · exact ⟨hbyte, begins_nil⟩
          · exact absurd rfl ((hcut rfl).2 hbyte)
        | 2, _ =>
          obtain ⟨rfl, rfl⟩ := List.cons.inj hdec
          exact absurd rfl (hcut rfl).1
      | bare hno =>
        have hzero : n = 0 := by simpa [Tok.text] using hle
        subst hzero
        cases hdec
      | raw hc =>
        have hzero : n = 0 := by simpa [Tok.text] using hle
        subst hzero
        cases hdec
  · rintro ⟨hbyte, n, hn, hdec⟩
    refine ⟨t.text.length + n, by omega, ?_⟩
    rw [(h.take (Nat.le_add_right _ _)).decode, Nat.add_sub_cancel_left, hbyte, hdec]

end

end percent
