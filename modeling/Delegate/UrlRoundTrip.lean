-- A text that is escaped as a URL and unescaped again (`url_escapeX` and
-- `URL_unescape`, rary/urlesc.cpp). The escaper follows the two-byte mode of the
-- source, the unescaper that of the escaped text and that of its own output. ESC
-- is always escaped, so the escaped text never turns to two bytes a character.
import Delegate.UrlEscape
import Delegate.UrlReescape

open ctext

namespace delegate.urlroundtrip

open delegate.urlesc delegate.urlreescape percent

/-! ## Bytes and characters -/

def ofBytes (bs : List UInt8) : Text := bs.map fun b => Char.ofNat b.toNat

def toBytes (t : Text) : List UInt8 := t.map fun c => UInt8.ofNat c.toNat

@[simp] theorem toBytes_cons (c : Char) (t : Text) :
    toBytes (c :: t) = UInt8.ofNat c.toNat :: toBytes t := rfl

@[simp] theorem toBytes_append (a b : Text) : toBytes (a ++ b) = toBytes a ++ toBytes b :=
  List.map_append

/-- The character of a byte, and the byte of that character. -/
theorem byte_char (b : UInt8) : UInt8.ofNat (Char.ofNat b.toNat).toNat = b := by
  revert b
  decide +kernel

/-! ## The escaped text -/

/-- What the escaper writes for a text when there is room for all of it. -/
def encoded (f : Flags) (escs : Text) : Bool → Text → Text
  | _, [] => []
  | in2byte, ch :: sp =>
    (if f.escapes escs (in2byteAfter in2byte (ch :: sp)) ch then f.form ch else [ch]) ++
      encoded f escs (in2byteAfter in2byte (ch :: sp)) sp

theorem encoded_escaped {f : Flags} {escs : Text} {b : Bool} {ch : Char} {sp : Text}
    (h : f.escapes escs (in2byteAfter b (ch :: sp)) ch = true) :
    encoded f escs b (ch :: sp) = f.form ch ++ encoded f escs (in2byteAfter b (ch :: sp)) sp := by
  rw [encoded, if_pos h]

theorem encoded_bare {f : Flags} {escs : Text} {b : Bool} {ch : Char} {sp : Text}
    (h : ¬f.escapes escs (in2byteAfter b (ch :: sp)) ch = true) :
    encoded f escs b (ch :: sp) = ch :: encoded f escs (in2byteAfter b (ch :: sp)) sp := by
  rw [encoded, if_neg h, List.singleton_append]

/-- The options turn the default escapes not off, and an escape is written as `%xx`. -/
structure Hex (f : Flags) : Prop where
  nodflt : f.nodflt = false
  eschtm : f.eschtm = false
  escqpt : f.escqpt = false
  escdel : f.escdel = false

theorem Hex.form {f : Flags} (h : Hex f) (ch : Char) : f.form ch = '%' :: hex2 (ch.toNat % 256) := by
  simp [Flags.form, h.eschtm, h.escqpt, h.escdel]

/-- A character that is written as it is. -/
theorem Hex.bare {f : Flags} (h : Hex f) {escs : Text} {b : Bool} {ch : Char}
    (hbare : ¬f.escapes escs b ch = true) : iscntrl ch = false ∧ ch ≠ '%' := by
  simp only [Flags.escapes, h.nodflt, Bool.not_false, Bool.true_and, Bool.or_eq_true,
    not_or, beq_iff_eq, Bool.not_eq_true] at hbare
  exact ⟨hbare.1.1.1.1.1.2, hbare.1.1.1.1.2⟩

/-! ## The escaper -/

section
variable {j : Job} (hf : Hex j.flags) (hbrk : j.sbrk = none ∨ j.sbrk = some [])

include hbrk in
theorem no_break (ch : Char) : ¬j.sbrk.any (·.contains ch) = true := by
  rcases hbrk with h | h <;> simp [h]

include hf hbrk in
/-- One character, once there is a copy. -/
theorem loop_copied (ch : Char) (sp d : Text) (b : Bool) (n : Nat)
    (hroom : (d ++ encoded j.flags j.escs b (ch :: sp)).length + 2 ≤ j.siz) :
    ∃ n' d', n ≤ n' ∧ d' ++ encoded j.flags j.escs (in2byteAfter b (ch :: sp)) sp =
        d ++ encoded j.flags j.escs b (ch :: sp) ∧
      j.loop (ch :: sp) ⟨b, n, some d⟩ = j.loop sp ⟨in2byteAfter b (ch :: sp), n', some d'⟩ := by
  have hbreak := no_break hbrk ch
  by_cases hesc : j.flags.escapes j.escs (in2byteAfter b (ch :: sp)) ch = true
  · rw [encoded_escaped hesc, hf.form] at hroom ⊢
    simp only [List.length_append, List.length_cons, urlesc.hex2, List.length_nil] at hroom
    have hfull : ¬(some d).any j.full = true := by
      simp [Job.full]
      omega
    have hfit : ¬(Flags.form j.flags ch ≠ [] ∧ j.siz - 1 ≤ d.length + (j.flags.form ch).length) := by
      rw [hf.form]
      simp only [urlesc.hex2, List.length_cons, List.length_nil]
      omega
    refine ⟨n + 1, d ++ j.flags.form ch, by omega, ?_, ?_⟩
    · rw [hf.form, List.append_assoc]
    · rw [Job.loop, if_neg hbreak, if_neg hfull]
      simp only [hesc, if_true, reduceCtorEq, false_and, if_false, Option.getD_some, hfit]
  · rw [encoded_bare hesc] at hroom ⊢
    simp only [List.length_append, List.length_cons] at hroom
    have hfull : ¬(some d).any j.full = true := by
      simp [Job.full]
      omega
    refine ⟨n, d ++ [ch], le_refl n, by simp, ?_⟩
    rw [Job.loop, if_neg hbreak, if_neg hfull]
    simp [hesc]

include hf hbrk in
/-- Once there is a copy, the rest of the text is written behind it. -/
theorem loop_writes (sp d : Text) (b : Bool) (n : Nat)
    (hroom : (d ++ encoded j.flags j.escs b sp).length + 2 ≤ j.siz) :
    ∃ n', n ≤ n' ∧
      j.loop sp ⟨b, n, some d⟩ = (n', some (d ++ encoded j.flags j.escs b sp)) := by
  induction sp generalizing d b n with
  | nil => exact ⟨n, le_refl n, by simp [Job.loop, encoded]⟩
  | cons ch sp ih =>
    obtain ⟨n1, d1, hn1, htext, hstep⟩ := loop_copied hf hbrk ch sp d b n hroom
    rw [← htext] at hroom ⊢
    obtain ⟨n2, hn2, hrun⟩ := ih d1 _ n1 hroom
    exact ⟨n2, le_trans hn1 hn2, by rw [hstep, hrun]⟩

include hf hbrk in
/-- The loop before there is a copy: all of the text goes through unescaped, or the copy begins
at the first character that is escaped. -/
theorem loop_begins (pre sp : Text) (b : Bool) (hsrc : j.src = pre ++ sp)
    (hroom : (pre ++ encoded j.flags j.escs b sp).length + 2 ≤ j.siz) :
    (encoded j.flags j.escs b sp = sp ∧ j.loop sp ⟨b, 0, none⟩ = (0, none)) ∨
      ∃ n, 0 < n ∧
        j.loop sp ⟨b, 0, none⟩ = (n, some (pre ++ encoded j.flags j.escs b sp)) := by
  induction sp generalizing pre b with
  | nil => exact .inl ⟨rfl, rfl⟩
  | cons ch sp ih =>
    have hbreak := no_break hbrk ch
    by_cases hesc : j.flags.escapes j.escs (in2byteAfter b (ch :: sp)) ch = true
    · right
      rw [encoded_escaped hesc] at hroom ⊢
      have hlen : j.src.length - (ch :: sp).length = pre.length := by
        rw [hsrc, List.length_append, Nat.add_sub_cancel]
      have htake : j.src.take pre.length = pre := by
        rw [hsrc, List.take_left]
      have hroom' : (pre ++ j.flags.form ch ++
          encoded j.flags j.escs (in2byteAfter b (ch :: sp)) sp).length + 2 ≤ j.siz := by
        rwa [List.append_assoc]
      obtain ⟨n, hn, hrun⟩ := loop_writes hf hbrk sp _ _ 1 hroom'
      refine ⟨n, hn, ?_⟩
      rw [← List.append_assoc, ← hrun, Job.loop, if_neg hbreak]
      simp only [List.length_append] at hroom
      have hlong : ¬j.siz ≤ pre.length := by omega
      have hfit : ¬(Flags.form j.flags ch ≠ [] ∧
          j.siz - 1 ≤ pre.length + (j.flags.form ch).length) := by omega
      simp only [Option.any_none, Bool.false_eq_true, if_false, hesc, if_true, hlen, htake, hlong,
        and_false, Option.getD_none, hfit, Nat.zero_add]
    · rw [encoded_bare hesc] at hroom ⊢
      have hstep : j.loop (ch :: sp) ⟨b, 0, none⟩ =
          j.loop sp ⟨in2byteAfter b (ch :: sp), 0, none⟩ := by
        rw [Job.loop, if_neg hbreak]
        simp [hesc]
      have hnext := ih (pre ++ [ch]) (in2byteAfter b (ch :: sp)) (by simp [hsrc]) (by simpa using hroom)
      rw [hstep]
      rcases hnext with ⟨hsame, hrun⟩ | ⟨n, hn, hrun⟩
      · exact .inl ⟨by rw [hsame], hrun⟩
      · exact .inr ⟨n, hn, by simpa using hrun⟩

end

/-- The escaped text, if there is room for it. In place, the room is that of the buffer between
the source and the destination. -/
theorem url_escapeX_eq (inPlace : Bool) (src : Text) (siz : Nat) (escs : Text)
    (sbrk : Option Text) (hf : Hex (scanFlags {} escs).1) (hbrk : sbrk = none ∨ sbrk = some [])
    (hroom : (encoded (scanFlags {} escs).1 (scanFlags {} escs).2 false src).length + 2 ≤
      if inPlace then min 4096 siz else siz) :
    (url_escapeX inPlace src siz escs sbrk).2 =
      encoded (scanFlags {} escs).1 (scanFlags {} escs).2 false src := by
  have hruns := loop_begins (j := ⟨src, if inPlace then min 4096 siz else siz,
    (scanFlags {} escs).1, (scanFlags {} escs).2, sbrk⟩) hf hbrk [] src false rfl hroom
  unfold url_escapeX url_escapeY
  rcases hruns with ⟨hsame, hrun⟩ | ⟨n, hn, hrun⟩
  · rw [hrun, if_pos rfl]
    change (if inPlace = true then src else XStrncpy src siz) = _
    rw [hsame] at hroom ⊢
    cases inPlace
    · simp only [Bool.false_eq_true, if_false] at hroom ⊢
      exact List.take_of_length_le (by omega)
    · rfl
  · rw [hrun, if_neg (by omega : ¬n = 0)]
    rfl

/-! ## The unescaper -/

section
variable {past out sp : List UInt8} {out2byte : Bool} {nesc : Nat}

/-- A byte that is no percent sign is copied, whatever the mode of the output is. -/
theorem unescape_bare {ch : UInt8} (hpast : 27 ∉ past) (hz : ch ≠ 0) (hpct : ch ≠ 37) :
    URL_unescape.loop false false past out false out2byte nesc (ch :: sp) =
      URL_unescape.loop false false (ch :: past) (ch :: out) false (set2B out out2byte) nesc
        sp := by
  rw [URL_unescape.loop]
  simp [set2B_false hpast, hz, hpct]

/-- The digits of an escape. -/
theorem hex2_digits (b : UInt8) : ∃ hi lo, toBytes (urlesc.hex2 ((Char.ofNat b.toNat).toNat % 256)) =
    [hi, lo] ∧ ishex hi = true ∧ ishex lo = true ∧ (Tok.esc hi lo).byte = b := by
  have hall : ∀ b : UInt8,
      let t := toBytes (urlesc.hex2 ((Char.ofNat b.toNat).toNat % 256))
      ishex (t.getD 0 0) = true ∧ ishex (t.getD 1 0) = true ∧
        (Tok.esc (t.getD 0 0) (t.getD 1 0)).byte = b := by
    decide +kernel
  exact ⟨_, _, rfl, hall b⟩

/-- An escape gives its byte. -/
theorem unescape_escape {hi lo : UInt8} (hpast : 27 ∉ past) (hhi : ishex hi = true)
    (hlo : ishex lo = true) :
    URL_unescape.loop false false past out false out2byte nesc (37 :: hi :: lo :: sp) =
      URL_unescape.loop false false (lo :: hi :: 37 :: past) ((Tok.esc hi lo).byte :: out) false
        (set2B out out2byte) (nesc + 1) sp := by
  have hhex : urlreescape.hex2 (hi :: lo :: sp) = true := by simp [urlreescape.hex2, hhi, hlo]
  have hdec : dec2X (hi :: lo :: sp) = (Tok.esc hi lo).byte := rfl
  rw [URL_unescape.loop]
  simp [set2B_false hpast, hhex, hdec]

theorem ishex_ne_esc {c : UInt8} (h : ishex c = true) : c ≠ 27 := by
  rintro rfl
  cases h

/-- The bytes of the escaped text give the source back. -/
theorem unescape_encoded {f : Flags} (hf : Hex f) (escs : Text) (b : Bool) (src : List UInt8)
    (hz : 0 ∉ src) (hpast : 27 ∉ past) :
    (URL_unescape.loop false false past out false out2byte nesc
      (toBytes (encoded f escs b (ofBytes src)))).1 = out.reverse ++ src := by
  induction src generalizing past out out2byte nesc b with
  | nil =>
    rw [show toBytes (encoded f escs b (ofBytes [])) = [] from rfl, URL_unescape.loop]
    simp
  | cons c src ih =>
    obtain ⟨hc, hz⟩ := List.ne_and_not_mem_of_not_mem_cons hz
    have hcons : ofBytes (c :: src) = Char.ofNat c.toNat :: ofBytes src := rfl
    rw [hcons]
    by_cases hesc : f.escapes escs
        (in2byteAfter b (Char.ofNat c.toNat :: ofBytes src)) (Char.ofNat c.toNat) = true
    · obtain ⟨hi, lo, hdigits, hhi, hlo, hbyte⟩ := hex2_digits c
      rw [encoded_escaped hesc, hf.form, toBytes_append, toBytes_cons, hdigits]
      change (URL_unescape.loop false false past out false out2byte nesc
        (37 :: hi :: lo :: toBytes _)).1 = _
      have hpast' : 27 ∉ lo :: hi :: 37 :: past := by
        simp [hpast, (ishex_ne_esc hhi).symm, (ishex_ne_esc hlo).symm]
      rw [unescape_escape hpast hhi hlo, hbyte, ih _ hz hpast']
      simp
    · obtain ⟨hcntrl, hpct⟩ := hf.bare hesc
      have hne37 : c ≠ 37 := by
        rintro rfl
        exact hpct rfl
      have hne27 : c ≠ 27 := by
        rintro rfl
        cases hcntrl
      rw [encoded_bare hesc, toBytes_cons, byte_char, unescape_bare hpast hc.symm hne37,
        ih _ hz (by simp [hpast, hne27.symm])]
      simp

end

/-- A text that is escaped and unescaped again is the text it was. -/
theorem url_unescape_escape (inPlace : Bool) (src : List UInt8) (hz : 0 ∉ src) (siz : Nat)
    (escs : Text) (sbrk : Option Text) (hf : Hex (scanFlags {} escs).1)
    (hbrk : sbrk = none ∨ sbrk = some [])
    (hroom : (encoded (scanFlags {} escs).1 (scanFlags {} escs).2 false (ofBytes src)).length + 2 ≤
      if inPlace then min 4096 siz else siz) :
    (URL_unescape (toBytes (url_escapeX inPlace (ofBytes src) siz escs sbrk).2) false false).1 =
      src := by
  rw [url_escapeX_eq inPlace (ofBytes src) siz escs sbrk hf hbrk hroom]
  exact unescape_encoded hf _ false src hz List.not_mem_nil

/-- `50%`, `ESC $ B`, two bytes, `ESC ( B` and a byte with the high bit, with a question mark in
the set of the characters to escape. -/
theorem url_unescape_escape_jis :
    (URL_unescape (toBytes (url_escapeX false
      (ofBytes [53, 48, 37, 27, 36, 66, 63, 33, 27, 40, 66, 63, 200]) 64 ['%', 'S', '?'] (some [])).2)
        false false).1 = [53, 48, 37, 27, 36, 66, 63, 33, 27, 40, 66, 63, 200] := by
  apply url_unescape_escape
  · decide
  · exact ⟨rfl, rfl, rfl, rfl⟩
  · exact .inr rfl
  · decide

end delegate.urlroundtrip
