-- The escapes of a URL are unified before the URL names a cache file
-- (`url_escunify`, src/cache.cpp). The result is a canonical form: it denotes
-- the bytes of the URL, and it is that of every URL with the same tokens.
import Delegate.CachePath
import Delegate.Percent

open ctext percent

namespace delegate.cache

/-! ## Bytes and characters -/

/-- The character of a byte. -/
def chr (b : UInt8) : Char := Char.ofNat b.toNat

def chars (cs : List UInt8) : Text := cs.map chr

theorem chr_toNat (b : UInt8) : (chr b).toNat = b.toNat := by
  revert b
  decide +kernel

theorem chr_injective : Function.Injective chr := by
  intro a b h
  have hnat := congrArg Char.toNat h
  rw [chr_toNat, chr_toNat] at hnat
  exact UInt8.toNat_inj.mp hnat

theorem chars_injective : Function.Injective chars := List.map_injective_iff.mpr chr_injective

theorem chars_append (a b : List UInt8) : chars (a ++ b) = chars a ++ chars b := List.map_append

theorem isxdigit_chr (b : UInt8) : isxdigit (chr b) = ishex b := by
  revert b
  decide +kernel

theorem chr_eq_percent {b : UInt8} : chr b = '%' ↔ b = 37 := by
  constructor
  · intro h
    exact chr_injective h
  · rintro rfl
    rfl

/-! ## What a token is written as -/

/-- A byte that is kept outside of an escape. -/
def kept (b : UInt8) : Bool := (chr b).isAlphanum || keptSet.contains (chr b)

/-- What the tokens of a URL are compared by. A byte that is not kept counts as its escape, and the
case of the digits of an escape does not count. -/
inductive Sign
  | raw (b : UInt8)
  | esc (b : UInt8)
  deriving DecidableEq, Repr

def sign : Tok → Sign
  | .raw b => if kept b then .raw b else .esc b
  | .esc hi lo => .esc (Tok.esc hi lo).byte

/-- The token that a sign is written as. -/
def Sign.tok : Sign → Tok
  | raw b => .raw b
  | esc b => enc b

theorem sign_raw_of_kept {b : UInt8} (h : kept b = true) : sign (.raw b) = .raw b := if_pos h

theorem sign_raw_of_not_kept {b : UInt8} (h : ¬kept b = true) : sign (.raw b) = .esc b := if_neg h

theorem sign_byte (t : Tok) : (sign t).tok.byte = t.byte := by
  cases t with
  | raw b =>
    by_cases hb : kept b = true
    · rw [sign_raw_of_kept hb]
      rfl
    · rw [sign_raw_of_not_kept hb]
      exact enc_byte b
  | esc hi lo => exact enc_byte _

theorem kept_ne {b : UInt8} (h : kept b = true) : b ≠ 37 := by
  rintro rfl
  cases h

theorem sign_wf (t : Tok) : (sign t).tok.Wf := by
  cases t with
  | raw b =>
    by_cases hb : kept b = true
    · rw [sign_raw_of_kept hb]
      exact kept_ne hb
    · rw [sign_raw_of_not_kept hb]
      exact enc_wf b
  | esc hi lo => exact enc_wf _

/-- Writing a sign and reading it gives the sign. -/
theorem sign_tok (t : Tok) : sign (sign t).tok = sign t := by
  have henc : ∀ b, sign (enc b) = .esc b := fun b => congrArg Sign.esc (enc_byte b)
  cases t with
  | raw b =>
    by_cases hb : kept b = true
    · rw [sign_raw_of_kept hb]
      exact sign_raw_of_kept hb
    · rw [sign_raw_of_not_kept hb]
      exact henc b
  | esc hi lo => exact henc _

/-! ## One turn of the loop -/

theorem unifyChar_chr (b : UInt8) : unifyChar (chr b) = chars (sign (.raw b)).tok.text := by
  have hupper : ∀ b : UInt8, '%' :: hexUpper ((chr b).toNat % 256) = chars (enc b).text := by
    decide +kernel
  by_cases hb : kept b = true
  · rw [sign_raw_of_kept hb]
    exact if_pos hb
  · rw [sign_raw_of_not_kept hb]
    exact (if_neg hb).trans (hupper b)

/-- A digit in upper case. -/
theorem toUpper_chr (b : UInt8) : ishex b = true → (chr b).toUpper = chr (hexDig (hexVal b)) := by
  revert b
  decide +kernel

theorem enc_esc {hi lo : UInt8} (hhi : ishex hi = true) (hlo : ishex lo = true) :
    (enc (Tok.esc hi lo).byte).text = [37, hexDig (hexVal hi), hexDig (hexVal lo)] := by
  have hvhi := hexVal_lt hi hhi
  have hvlo := hexVal_lt lo hlo
  have hbyte : (Tok.esc hi lo).byte.toNat = hexVal hi * 16 + hexVal lo := by
    rw [Tok.byte, UInt8.toNat_ofNat']
    omega
  have hdiv : (hexVal hi * 16 + hexVal lo) / 16 = hexVal hi := by omega
  have hmod : (hexVal hi * 16 + hexVal lo) % 16 = hexVal lo := by omega
  rw [enc, hbyte, hdiv, hmod]
  rfl

/-- Outside of an escape, one character is written. -/
theorem url_escunify_char {c : Char} {s : Text}
    (h : ¬∃ a b r, s = a :: b :: r ∧ c = '%' ∧ isxdigit a = true ∧ isxdigit b = true) :
    url_escunify (c :: s) = unifyChar c ++ url_escunify s := by
  match s with
  | [] => simp [url_escunify]
  | [d] => simp [url_escunify]
  | a :: b :: r =>
    rw [url_escunify, if_neg]
    rintro ⟨hc, ha, hb⟩
    exact h ⟨a, b, r, rfl, hc, ha, hb⟩

/-- One turn of the loop takes one token, and writes its sign. -/
theorem url_escunify_head {cs rest : List UInt8} {t : Tok} (h : Head cs t rest) :
    url_escunify (chars cs) = chars (sign t).tok.text ++ url_escunify (chars rest) := by
  cases h with
  | @esc hi lo _ hhi hlo =>
    have hchars : chars (37 :: hi :: lo :: rest) = '%' :: chr hi :: chr lo :: chars rest := rfl
    have htext : (sign (.esc hi lo)).tok.text = [37, hexDig (hexVal hi), hexDig (hexVal lo)] :=
      enc_esc hhi hlo
    rw [hchars, url_escunify, if_pos ⟨rfl, (isxdigit_chr hi).trans hhi, (isxdigit_chr lo).trans hlo⟩,
      toUpper_chr hi hhi, toUpper_chr lo hlo, htext]
    rfl
  | bare hno =>
    rw [← unifyChar_chr]
    apply url_escunify_char
    rintro ⟨a, b, r, hs, -, ha, hb⟩
    match rest, hs with
    | x :: y :: r', hs =>
      obtain ⟨hx, hs⟩ := List.cons.inj hs
      obtain ⟨hy, -⟩ := List.cons.inj hs
      rw [← hx, isxdigit_chr] at ha
      rw [← hy, isxdigit_chr] at hb
      exact hno ⟨ha, hb⟩
  | @raw c cs hc =>
    rw [← unifyChar_chr]
    apply url_escunify_char
    rintro ⟨a, b, r, -, hc', -, -⟩
    exact hc (chr_eq_percent.mp hc')

/-! ## The whole text -/

/-- What is written for a URL. -/
def unified (cs : List UInt8) : List UInt8 := (tokens cs).flatMap fun t => (sign t).tok.text

theorem url_escunify_chars (cs : List UInt8) : url_escunify (chars cs) = chars (unified cs) := by
  induction hn : cs.length using Nat.strongRecOn generalizing cs with
  | ind n ih =>
    cases cs with
    | nil => rfl
    | cons c cs =>
      obtain ⟨t, rest, hhead⟩ := exists_head c cs
      have hlt : rest.length < n := by
        have hlen := congrArg List.length hhead.text_append
        have hpos : 0 < t.text.length := by cases t <;> simp [Tok.text]
        rw [List.length_append] at hlen
        omega
      rw [url_escunify_head hhead, ih _ hlt rest rfl, ← chars_append, unified, unified,
        hhead.tokens, List.flatMap_cons]

/-- The tokens of the result are the signs of those of the URL. -/
theorem tokens_unified (cs : List UInt8) :
    tokens (unified cs) = (tokens cs).map fun t => (sign t).tok := by
  have hflat : unified cs = ((tokens cs).map fun t => (sign t).tok).flatMap Tok.text := by
    rw [List.flatMap_map]
    rfl
  rw [hflat]
  apply tokens_flatMap
  intro t ht
  obtain ⟨t', -, rfl⟩ := List.mem_map.mp ht
  exact sign_wf t'

theorem decode_unified (cs : List UInt8) : decode (unified cs) = decode cs := by
  rw [decode, decode, tokens_unified, List.map_map]
  exact List.map_congr_left fun t _ => sign_byte t

theorem signs_unified (cs : List UInt8) :
    (tokens (unified cs)).map sign = (tokens cs).map sign := by
  rw [tokens_unified, List.map_map]
  exact List.map_congr_left fun t _ => sign_tok t

theorem unified_of_signs {cs ds : List UInt8} (h : (tokens cs).map sign = (tokens ds).map sign) :
    unified cs = unified ds := by
  have hsigns : ∀ cs, unified cs = ((tokens cs).map sign).flatMap fun g => g.tok.text := by
    intro cs
    rw [List.flatMap_map]
    rfl
  rw [hsigns, hsigns, h]

/-- The result denotes the bytes of the URL, is not changed when it is unified again, and is that
of the URLs that have the same signs. -/
theorem url_escunify_canonical (u : List UInt8) :
    ∃ w, url_escunify (chars u) = chars w ∧ decode w = decode u ∧
      url_escunify (chars w) = chars w ∧
      ∀ v, url_escunify (chars v) = url_escunify (chars u) ↔
        (tokens v).map sign = (tokens u).map sign := by
  refine ⟨unified u, url_escunify_chars u, decode_unified u, ?_, ?_⟩
  · rw [url_escunify_chars, unified_of_signs (signs_unified u)]
  · intro v
    rw [url_escunify_chars, url_escunify_chars]
    constructor
    · intro h
      have huni := chars_injective h
      rw [← signs_unified v, ← signs_unified u, huni]
    · intro h
      rw [unified_of_signs h]

end delegate.cache
