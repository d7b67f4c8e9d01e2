-- Escaping of URLs. `url_escapeY` copies nothing before the first character
-- that it escapes, and leaves the loop in two places when the buffer is full.
-- `url_escapeX` reads the number of escapes to see if there was a copy at all.
import Delegate.CText

open ctext

namespace delegate.urlesc

/-! ## The escaper -/

/-- The flags of `url_escapeY`, as the head of `escs` sets them. -/
structure Flags where
  nodflt : Bool := false
  escctl : Bool := false
  escbin : Bool := false
  escspc : Bool := false
  escurl : Bool := false
  eschtm : Bool := false
  escqpt : Bool := false
  escdel : Bool := false
deriving DecidableEq, Repr

/-- The loop over the head of `escs`: the flags, and the set of characters after them. -/
def scanFlags : Flags → Text → Flags × Text
  | f, '%' :: '%' :: escs => scanFlags { f with nodflt := !f.nodflt } escs
  | f, '%' :: 'C' :: escs => scanFlags { f with escctl := true } escs
  | f, '%' :: 'H' :: escs => scanFlags { f with escbin := true } escs
  | f, '%' :: 'S' :: escs => scanFlags { f with escspc := true } escs
  | f, '%' :: 'U' :: escs => scanFlags { f with escurl := true } escs
  | f, '%' :: '&' :: escs => scanFlags { f with eschtm := true } escs
  | f, '%' :: '=' :: escs => scanFlags { f with escqpt := true } escs
  | f, '%' :: '#' :: escs => scanFlags { f with escdel := true } escs
  | f, escs => (f, escs)

/-- `ch & 0x80` -/
def is8bit (ch : Char) : Bool := ch.toNat &&& 0x80 != 0

/-- Two hexadecimal digits of a byte, as `printf("%02x")` writes them. -/
def hex2 (n : Nat) : Text := [Nat.digitChar (n / 16 % 16), Nat.digitChar (n % 16)]

/-- What `sprintf` leaves in `buf` for an escaped character. -/
def Flags.form (f : Flags) (ch : Char) : Text :=
  let n := ch.toNat % 256
  if f.escdel then []
  else if f.escqpt then '=' :: (hex2 n).map Char.toUpper
  else if f.eschtm then
    if ch = '"' then ['%', '2', '6', 'q', 'u', 'o', 't', '%', '3', 'B']
    else ['%', '2', '6', '%', '2', '3'] ++ dec n ++ ['%', '3', 'B']
  else '%' :: hex2 n

/-- Is this character escaped? -/
def Flags.escapes (f : Flags) (escs : Text) (in2byte : Bool) (ch : Char) : Bool :=
  (!f.nodflt && (is8bit ch || iscntrl ch || ch == '%')) || (f.escctl && iscntrl ch) ||
    (f.escbin && is8bit ch) || (f.escspc && isspace ch) ||
    ((!in2byte || f.escurl) && escs.contains ch)

/-- What a call of `url_escapeY` does not change. -/
structure Job where
  src : Text
  siz : Nat
  flags : Flags
  escs : Text
  sbrk : Option Text
deriving DecidableEq, Repr

/-- The variables of the loop. `dp` is the text written so far, if there is any copy. -/
structure Scan where
  in2byte : Bool := false
  nesc : Nat := 0
  dp : Option Text := none
deriving DecidableEq, Repr

/-- Is there no room for another character? -/
def Job.full (j : Job) (dp : Text) : Bool := 0 < j.siz && j.siz - 1 ≤ dp.length

/-- The exit at `OVERFLOW`. -/
def Job.overflow (j : Job) (s : Scan) : Nat × Option Text :=
  (s.nesc, s.dp.map fun d => if d.length ≤ j.siz - 1 then d else d.take (j.siz - 1))

/-- ESC and the next character switch between one and two bytes. -/
def in2byteAfter (in2byte : Bool) : Text → Bool
  | '\x1b' :: '$' :: _ => true
  | '\x1b' :: '(' :: _ => false
  | _ => in2byte

/-- The loop of `url_escapeY` from `sp` on. It gives `nesc` and the text in `dst`, if any was
written there. -/
def Job.loop (j : Job) : Text → Scan → Nat × Option Text
  | [], s => (s.nesc, s.dp)
  | ch :: sp, s =>
    if j.sbrk.any (·.contains ch) then
      (s.nesc, s.dp.map fun d => d ++ XStrncpy (ch :: sp) (j.siz - 1 - d.length))
    else if s.dp.any j.full then j.overflow s
    else
      let in2byte := in2byteAfter s.in2byte (ch :: sp)
      if j.flags.escapes j.escs in2byte ch then
        let len := j.src.length - (ch :: sp).length
        if s.dp = none ∧ j.siz ≤ len then
          j.overflow { s with in2byte, dp := some (XStrncpy j.src j.siz) }
        else
          let dp := s.dp.getD (j.src.take len)
          let buf := j.flags.form ch
          if buf ≠ [] ∧ j.siz - 1 ≤ dp.length + buf.length then
            j.overflow { s with in2byte, dp := some dp }
          else j.loop sp { in2byte, nesc := s.nesc + 1, dp := some (dp ++ buf) }
      else j.loop sp { s with in2byte, dp := s.dp.map (· ++ [ch]) }

def url_escapeY (src : Text) (siz : Nat) (escs : Text) (sbrk : Option Text) : Nat × Option Text :=
  let fe := scanFlags {} escs
  Job.loop { src, siz, flags := fe.1, escs := fe.2, sbrk } src {}

/-- `url_escapeX`: the number of escapes, and the text in `dst`. With `inPlace` the source and
the destination are one buffer, and a buffer of 4096 bytes stands between them. -/
def url_escapeX (inPlace : Bool) (src : Text) (siz : Nat) (escs : Text) (sbrk : Option Text) :
    Nat × Text :=
  let r := url_escapeY src (if inPlace then min 4096 siz else siz) escs sbrk
  if r.1 = 0 then (0, if inPlace then src else XStrncpy src siz)
  else (r.1, r.2.getD [])

/-! ## The wrappers -/

def logurlSet : Text := [' ', '\t', '\r', '\n', '%', '"', '<', '>']

def nonxalphaSet : Text := [' ', '\t', '\n', '%', '?', '#']

def safeSet : Text := [' ', '\t', '\n', '"', '#', '%', '&', '\x27', '/', '<', '>', '?']

def logurl_escapeX (src : Text) (siz : Nat) : Text := (url_escapeX false src siz logurlSet none).2

def nonxalpha_escapeX (src : Text) (siz : Nat) : Text :=
  (url_escapeX false src siz nonxalphaSet none).2

def safe_escapeX (src : Text) (siz : Nat) : Text := (url_escapeX false src siz safeSet none).2

/-- The wrappers by name. -/
inductive Wrapper
  | logurl
  | nonxalpha
  | safe
deriving DecidableEq, Repr

def Wrapper.escs : Wrapper → Text
  | .logurl => logurlSet
  | .nonxalpha => nonxalphaSet
  | .safe => safeSet

/-- The text that a wrapper leaves in `dst`, which is not `src`. -/
def Wrapper.run : Wrapper → Text → Nat → Text
  | .logurl => logurl_escapeX
  | .nonxalpha => nonxalpha_escapeX
  | .safe => safe_escapeX

theorem Wrapper.run_eq (w : Wrapper) (src : Text) (siz : Nat) :
    w.run src siz = (url_escapeX false src siz w.escs none).2 := by
  cases w <;> rfl

/-! ## Escaped text -/

/-- A character that a wrapper with this set must not leave bare: one of the set, a control
character or an 8-bit character. -/
def special (escs : Text) (c : Char) : Bool := escs.contains c || iscntrl c || is8bit c

/-- Does the text begin with two hexadecimal digits? -/
def startsHex : Text → Bool
  | x :: y :: _ => isxdigit x && isxdigit y
  | _ => false

/-- Every special character of the text is the `%` of a `%xx`. -/
def Escaped (escs : Text) : Text → Prop
  | [] => True
  | c :: t => (special escs c = true → c = '%' ∧ startsHex t = true) ∧ Escaped escs t

instance instDecidableEscaped (escs : Text) : (t : Text) → Decidable (Escaped escs t)
  | [] => isTrue trivial
  | c :: t =>
    have := instDecidableEscaped escs t
    inferInstanceAs (Decidable ((special escs c = true → c = '%' ∧ startsHex t = true) ∧
      Escaped escs t))

theorem escaped_of_bare (escs : Text) (t : Text) (h : ∀ c ∈ t, special escs c = false) :
    Escaped escs t := by
  induction t with
  | nil => trivial
  | cons c t ih =>
    constructor
    · intro hc
      rw [h c List.mem_cons_self] at hc
      cases hc
    · apply ih
      intro d hd
      exact h d (List.mem_cons_of_mem _ hd)

theorem startsHex_append (a b : Text) (h : startsHex a = true) : startsHex (a ++ b) = true := by
  match a, h with
  | x :: y :: _, h => exact h

theorem Escaped.append {escs a b : Text} (ha : Escaped escs a) (hb : Escaped escs b) :
    Escaped escs (a ++ b) := by
  induction a with
  | nil => exact hb
  | cons c a ih =>
    obtain ⟨hc, ha⟩ := ha
    refine ⟨?_, ih ha⟩
    intro hs
    obtain ⟨hp, hx⟩ := hc hs
    exact ⟨hp, startsHex_append a b hx⟩

/-- A bare text before does not change what is escaped. -/
theorem escaped_append_iff {escs a : Text} (ha : ∀ c ∈ a, special escs c = false) (b : Text) :
    Escaped escs (a ++ b) ↔ Escaped escs b := by
  induction a with
  | nil => rfl
  | cons c a ih =>
    have hc : special escs c = false := ha c List.mem_cons_self
    have hrest := ih fun d hd => ha d (List.mem_cons_of_mem _ hd)
    constructor
    · intro h
      exact hrest.mp h.2
    · intro h
      refine ⟨?_, hrest.mpr h⟩
      intro hs
      rw [hc] at hs
      cases hs

theorem toNat_of_isxdigit {c : Char} (h : isxdigit c = true) : 48 ≤ c.toNat ∧ c.toNat ≤ 102 := by
  simp only [isxdigit, Char.isDigit, Bool.or_eq_true, Bool.and_eq_true, decide_eq_true_eq] at h
  rcases h with (⟨h1, h2⟩ | ⟨h1, h2⟩) | ⟨h1, h2⟩
  all_goals
    simp [Char.le_def, UInt32.le_iff_toNat_le] at h1 h2
    omega

/-- No hexadecimal digit is special. -/
def HexBare (escs : Text) : Prop := ∀ c, isxdigit c = true → special escs c = false

theorem isxdigit_digitChar {n : Nat} (h : n < 16) : isxdigit (Nat.digitChar n) = true := by
  interval_cases n <;> decide

theorem startsHex_hex2 (n : Nat) : startsHex (hex2 n) = true := by
  have hhi : isxdigit (Nat.digitChar (n / 16 % 16)) = true :=
    isxdigit_digitChar (Nat.mod_lt _ (by omega))
  have hlo : isxdigit (Nat.digitChar (n % 16)) = true :=
    isxdigit_digitChar (Nat.mod_lt _ (by omega))
  simp only [hex2, startsHex, hhi, hlo, Bool.and_self]

/-- A `%` and two hexadecimal digits are an escaped text. -/
theorem escaped_percent {escs : Text} (hb : HexBare escs) {x y : Char}
    (h : startsHex [x, y] = true) : Escaped escs ['%', x, y] := by
  refine ⟨fun _ => ⟨rfl, h⟩, ?_⟩
  simp only [startsHex, Bool.and_eq_true] at h
  apply escaped_of_bare
  intro c hc
  rcases List.mem_pair.mp hc with rfl | rfl
  · exact hb _ h.1
  · exact hb _ h.2

/-! ## The loop of a wrapper

A wrapper sets no flags and has no break set. -/

/-- What a wrapper with this set asks of `url_escapeY`. -/
def plain (escs src : Text) (siz : Nat) : Job :=
  { src, siz, flags := {}, escs, sbrk := none }

@[simp] theorem plain_src (escs src : Text) (siz : Nat) : (plain escs src siz).src = src := rfl

@[simp] theorem plain_siz (escs src : Text) (siz : Nat) : (plain escs src siz).siz = siz := rfl

@[simp] theorem plain_flags (escs src : Text) (siz : Nat) : (plain escs src siz).flags = {} := rfl

@[simp] theorem plain_escs (escs src : Text) (siz : Nat) : (plain escs src siz).escs = escs := rfl

@[simp] theorem plain_sbrk (escs src : Text) (siz : Nat) : (plain escs src siz).sbrk = none := rfl

theorem full_plain (escs src : Text) (siz : Nat) (dp : Text) :
    (plain escs src siz).full dp = true ↔ 0 < siz ∧ siz - 1 ≤ dp.length := by
  unfold Job.full
  rw [Bool.and_eq_true, decide_eq_true_iff, decide_eq_true_iff]
  rfl

/-- A wrapper escapes a character as `%xx`. -/
theorem form_plain (ch : Char) : ({} : Flags).form ch = '%' :: hex2 (ch.toNat % 256) := rfl

/-- A wrapper escapes the special characters. -/
theorem escapes_plain {escs : Text} (hp : '%' ∈ escs) (ch : Char) :
    ({} : Flags).escapes escs false ch = special escs ch := by
  have hpc : ch = '%' → escs.contains ch = true := by
    rintro rfl
    exact List.contains_iff_mem.mpr hp
  unfold Flags.escapes special
  by_cases hc : ch = '%'
  · simp only [hpc hc, Bool.not_false, Bool.true_or, Bool.true_and, Bool.or_true]
  · cases escs.contains ch <;> cases iscntrl ch <;> cases is8bit ch <;> simp [hc]

theorem in2byteAfter_of_ne {ch : Char} (h : ch ≠ '\x1b') (b : Bool) (sp : Text) :
    in2byteAfter b (ch :: sp) = b := by
  unfold in2byteAfter
  split
  · simp_all
  · simp_all
  · rfl

section Plain
variable {escs src : Text} {siz : Nat}

theorem overflow_plain (n : Nat) (d : Text) (hlen : d.length ≤ siz - 1) :
    (plain escs src siz).overflow { nesc := n, dp := some d } = (n, some d) := by
  unfold Job.overflow
  rw [plain_siz, Option.map_some, if_pos hlen]

/-- A character before the first special one is passed over. -/
theorem loop_bare (hp : '%' ∈ escs) {ch : Char} (hch : ch ≠ '\x1b') (hs : special escs ch = false)
    (sp : Text) :
    (plain escs src siz).loop (ch :: sp) {} = (plain escs src siz).loop sp {} := by
  rw [Job.loop]
  simp only [plain_sbrk, plain_flags, plain_escs, in2byteAfter_of_ne hch, escapes_plain hp, hs,
    Option.any_none, Bool.false_eq_true, if_false, Option.map_none]

/-- The first special character begins the copy, if there is room for its escape. -/
theorem loop_first (hp : '%' ∈ escs) {ch : Char} (hch : ch ≠ '\x1b') (hs : special escs ch = true)
    (sp : Text) (n : Nat) :
    (plain escs src siz).loop (ch :: sp) { nesc := n } =
      if siz ≤ src.length - (ch :: sp).length then (n, some (XStrncpy src siz))
      else if siz - 1 ≤ (src.take (src.length - (ch :: sp).length)).length + 3 then
        (plain escs src siz).overflow
          { nesc := n, dp := some (src.take (src.length - (ch :: sp).length)) }
      else (plain escs src siz).loop sp
        { nesc := n + 1
          dp := some (src.take (src.length - (ch :: sp).length) ++
            '%' :: hex2 (ch.toNat % 256)) } := by
  have hraw : (plain escs src siz).overflow { nesc := n, dp := some (XStrncpy src siz) } =
      (n, some (XStrncpy src siz)) := by
    apply overflow_plain
    exact List.length_take_le _ _
  rw [Job.loop]
  simp only [plain_sbrk, plain_flags, plain_escs, plain_siz, plain_src, in2byteAfter_of_ne hch,
    escapes_plain hp, hs, form_plain, Option.any_none, Bool.false_eq_true, if_false, if_true,
    true_and, Option.getD_none, hraw, ne_eq, reduceCtorEq, not_false_eq_true]
  rfl

/-- One more character, once there is a copy. -/
theorem loop_copy (hp : '%' ∈ escs) {ch : Char} (hch : ch ≠ '\x1b') (sp d : Text) (n : Nat) :
    (plain escs src siz).loop (ch :: sp) { nesc := n, dp := some d } =
      if 0 < siz ∧ siz - 1 ≤ d.length then
        (plain escs src siz).overflow { nesc := n, dp := some d }
      else if special escs ch = true then
        if siz - 1 ≤ d.length + 3 then
          (plain escs src siz).overflow { nesc := n, dp := some d }
        else (plain escs src siz).loop sp
          { nesc := n + 1, dp := some (d ++ '%' :: hex2 (ch.toNat % 256)) }
      else (plain escs src siz).loop sp { nesc := n, dp := some (d ++ [ch]) } := by
  rw [Job.loop]
  simp only [plain_sbrk, plain_flags, plain_escs, plain_siz, plain_src, in2byteAfter_of_ne hch,
    escapes_plain hp, form_plain, Option.any_none, Option.any_some, Bool.false_eq_true, if_false,
    full_plain, reduceCtorEq, false_and, Option.getD_some,
    Option.map_some, ne_eq, not_false_eq_true, true_and]
  rfl

/-- Nothing is copied before the first special character. -/
theorem loop_bare_append (hp : '%' ∈ escs) (a rest : Text)
    (ha : ∀ c ∈ a, special escs c = false) (hesc : '\x1b' ∉ a) :
    (plain escs src siz).loop (a ++ rest) {} = (plain escs src siz).loop rest {} := by
  induction a with
  | nil => rfl
  | cons c a ih =>
    obtain ⟨hc, hesc'⟩ := List.ne_and_not_mem_of_not_mem_cons hesc
    rw [List.cons_append, loop_bare hp (Ne.symm hc) (ha c List.mem_cons_self)]
    exact ih (fun d hd => ha d (List.mem_cons_of_mem _ hd)) hesc'

/-- One character, once there is a copy: the loop ends with the copy as it is, or goes on with
a longer one. -/
theorem loop_step (hsiz : 0 < siz) (hp : '%' ∈ escs) (hb : HexBare escs) {ch : Char}
    (hch : ch ≠ '\x1b') (sp d : Text) (n : Nat) (hd : Escaped escs d) (hlen : d.length ≤ siz - 1) :
    (plain escs src siz).loop (ch :: sp) { nesc := n, dp := some d } = (n, some d) ∨
      ∃ n' d', n ≤ n' ∧ Escaped escs d' ∧ d'.length ≤ siz - 1 ∧
        (plain escs src siz).loop (ch :: sp) { nesc := n, dp := some d } =
          (plain escs src siz).loop sp { nesc := n', dp := some d' } := by
  rw [loop_copy hp hch, overflow_plain n d hlen]
  by_cases hfull : 0 < siz ∧ siz - 1 ≤ d.length
  · exact .inl (if_pos hfull)
  rw [if_neg hfull]
  by_cases hs : special escs ch = true
  · rw [if_pos hs]
    by_cases hfit : siz - 1 ≤ d.length + 3
    · exact .inl (if_pos hfit)
    · rw [if_neg hfit]
      refine .inr ⟨n + 1, _, by omega, hd.append (escaped_percent hb (startsHex_hex2 _)), ?_, rfl⟩
      rw [List.length_append]
      change d.length + 3 ≤ siz - 1
      omega
  · rw [if_neg hs]
    refine .inr ⟨n, _, le_refl n, hd.append ?_, ?_, rfl⟩
    · exact ⟨fun h => absurd h hs, trivial⟩
    · rw [List.length_append, List.length_singleton]
      have hroom := not_and.mp hfull hsiz
      omega

/-- Once there is a copy, it stays escaped to the end, and its length stays below the size. -/
theorem loop_keeps (hsiz : 0 < siz) (hp : '%' ∈ escs) (hb : HexBare escs) (sp : Text)
    (hesc : '\x1b' ∉ sp) (d : Text) (n : Nat) (hd : Escaped escs d) (hlen : d.length ≤ siz - 1) :
    ∃ n' t, (plain escs src siz).loop sp { nesc := n, dp := some d } = (n', some t) ∧
      n ≤ n' ∧ Escaped escs t ∧ t.length ≤ siz - 1 := by
  induction sp generalizing d n with
  | nil => exact ⟨n, d, rfl, le_refl n, hd, hlen⟩
  | cons ch sp ih =>
    obtain ⟨hch, hsp⟩ := List.ne_and_not_mem_of_not_mem_cons hesc
    rcases @loop_step escs src siz hsiz hp hb ch (Ne.symm hch) sp d n hd hlen with
      h | ⟨n1, d1, hn, hd1, hlen1, h⟩
    · exact ⟨n, d, h, le_refl n, hd, hlen⟩
    · obtain ⟨n', t, ht, hn', hrest⟩ := ih hsp d1 n1 hd1 hlen1
      exact ⟨n', t, h.trans ht, by omega, hrest⟩

end Plain

/-! ## The law of the wrappers -/

theorem Wrapper.percent_mem (w : Wrapper) : '%' ∈ w.escs := by
  cases w <;> decide

theorem Wrapper.hexBare (w : Wrapper) : HexBare w.escs := by
  intro c hc
  have hset : w.escs.contains c = false := by
    by_contra hmem
    rw [Bool.not_eq_false, List.contains_iff_mem] at hmem
    have hall : ∀ d ∈ w.escs, isxdigit d = false := by
      cases w <;> simp [Wrapper.escs, logurlSet, nonxalphaSet, safeSet] <;> decide
    rw [hall c hmem] at hc
    cases hc
  have hrange := toNat_of_isxdigit hc
  have hcntrl : iscntrl c = false := by
    unfold iscntrl
    rw [Bool.or_eq_false_iff, decide_eq_false_iff_not, beq_eq_false_iff_ne]
    omega
  have h8bit : is8bit c = false := by
    have hbit : c.toNat.testBit 7 = false := Nat.testBit_lt_two_pow (by omega)
    have hand : c.toNat &&& 0x80 = 0 := by
      rw [show 0x80 = 2 ^ 7 by rfl, Nat.and_two_pow, hbit]
      rfl
    unfold is8bit
    rw [hand]
    rfl
  unfold special
  rw [hset, hcntrl, h8bit]
  rfl

/-- `url_escapeX` of a wrapper, from the loop of `url_escapeY`. -/
theorem Wrapper.run_loop (w : Wrapper) (src : Text) (siz : Nat) :
    w.run src siz =
      if ((plain w.escs src siz).loop src {}).1 = 0 then XStrncpy src siz
      else ((plain w.escs src siz).loop src {}).2.getD [] := by
  have hflags : scanFlags {} w.escs = ({}, w.escs) := by
    cases w <;> rfl
  have hy : url_escapeY src siz w.escs none = (plain w.escs src siz).loop src {} := by
    unfold url_escapeY
    rw [hflags]
    rfl
  rw [Wrapper.run_eq]
  unfold url_escapeX
  simp only [Bool.false_eq_true, if_false, hy]
  split <;> rfl

/-- A source without special characters is copied as far as it goes. -/
theorem Wrapper.run_bare (w : Wrapper) (src : Text) (siz : Nat)
    (h : ∀ c ∈ src, special w.escs c = false) (hesc : '\x1b' ∉ src) :
    w.run src siz = src.take (siz - 1) := by
  have hloop := @loop_bare_append w.escs src siz w.percent_mem src [] h hesc
  rw [List.append_nil] at hloop
  rw [Wrapper.run_loop, hloop]
  rfl

section First
variable (w : Wrapper) {a rest : Text} {c : Char} {siz : Nat}
  (ha : ∀ x ∈ a, special w.escs x = false) (hc : special w.escs c = true)
  (hesc : '\x1b' ∉ a ++ c :: rest)
include ha hc hesc

/-- The loop at the first special character, which has the text `a` before it. -/
theorem loop_at_first :
    (plain w.escs (a ++ c :: rest) siz).loop (a ++ c :: rest) {} =
      if siz ≤ a.length then (0, some (XStrncpy (a ++ c :: rest) siz))
      else if siz - 1 ≤ a.length + 3 then
        (plain w.escs (a ++ c :: rest) siz).overflow { nesc := 0, dp := some a }
      else (plain w.escs (a ++ c :: rest) siz).loop rest
        { nesc := 1, dp := some (a ++ '%' :: hex2 (c.toNat % 256)) } := by
  have hca : c ≠ '\x1b' := by
    rintro rfl
    exact hesc (List.mem_append_right _ List.mem_cons_self)
  have hlen : (a ++ c :: rest).length - (c :: rest).length = a.length := by
    rw [List.length_append]
    omega
  rw [loop_bare_append w.percent_mem a (c :: rest) ha fun h => hesc (List.mem_append_left _ h),
    loop_first w.percent_mem hca hc rest 0, hlen, List.take_left]

/-- With no room for the escape of the first special character, the number of escapes is 0, and
the source is copied as it is. -/
theorem Wrapper.run_raw (hs : siz ≤ a.length + 4) :
    w.run (a ++ c :: rest) siz = (a ++ c :: rest).take (siz - 1) := by
  have hzero : ((plain w.escs (a ++ c :: rest) siz).loop (a ++ c :: rest) {}).1 = 0 := by
    rw [loop_at_first w ha hc hesc]
    by_cases hle : siz ≤ a.length
    · rw [if_pos hle]
    · rw [if_neg hle, if_pos (by omega)]
      rfl
  rw [Wrapper.run_loop, if_pos hzero]
  rfl

/-- With room for the escape of the first special character, all of the result is escaped. -/
theorem Wrapper.run_escaped (hs : a.length + 4 < siz) :
    (w.run (a ++ c :: rest) siz).length < siz ∧ Escaped w.escs (w.run (a ++ c :: rest) siz) := by
  have hstart : Escaped w.escs (a ++ '%' :: hex2 (c.toNat % 256)) :=
    (escaped_of_bare _ a ha).append (escaped_percent w.hexBare (startsHex_hex2 _))
  have hlen : (a ++ '%' :: hex2 (c.toNat % 256)).length ≤ siz - 1 := by
    rw [List.length_append]
    change a.length + 3 ≤ siz - 1
    omega
  have hrest : '\x1b' ∉ rest := fun h =>
    hesc (List.mem_append_right _ (List.mem_cons_of_mem _ h))
  obtain ⟨n, t, hloop, hn, ht, htl⟩ := @loop_keeps w.escs (a ++ c :: rest) siz (by omega)
    w.percent_mem w.hexBare rest hrest _ 1 hstart hlen
  have hall : (plain w.escs (a ++ c :: rest) siz).loop (a ++ c :: rest) {} = (n, some t) := by
    rw [loop_at_first w ha hc hesc, if_neg (by omega), if_neg (by omega), hloop]
  rw [Wrapper.run_loop, hall, if_neg (by simp only; omega), Option.getD_some]
  exact ⟨by omega, ht⟩

end First

/-- The head of a raw copy from the first special character on: it is escaped only if it is a
whole `%xx` of the source. -/
theorem escaped_take_iff (w : Wrapper) (c : Char) (rest : Text) (hc : special w.escs c = true)
    (n : Nat) (hn : 1 ≤ n) (hn3 : n ≤ 3) :
    Escaped w.escs ((c :: rest).take n) ↔ n = 3 ∧ c = '%' ∧ startsHex rest = true := by
  have htwo : ∀ m, m < 2 → startsHex (rest.take m) = false := by
    intro m hm
    have hlen : (rest.take m).length < 2 := lt_of_le_of_lt (List.length_take_le _ _) hm
    match h : rest.take m with
    | [] => rfl
    | [_] => rfl
    | _ :: _ :: _ =>
      rw [h] at hlen
      simp at hlen
  obtain ⟨m, rfl⟩ : ∃ m, n = m + 1 := ⟨n - 1, by omega⟩
  rw [List.take_succ_cons]
  constructor
  · intro h
    obtain ⟨hp, hx⟩ := h.1 hc
    by_cases hm : m < 2
    · rw [htwo m hm] at hx
      cases hx
    · have htake := startsHex_append _ (rest.drop m) hx
      rw [List.take_append_drop] at htake
      exact ⟨by omega, hp, htake⟩
  · rintro ⟨hm, rfl, hx⟩
    have hm2 : m = 2 := by omega
    subst hm2
    match rest, hx with
    | x :: y :: _, hx => exact escaped_percent w.hexBare hx

/-- Does the escape of the first special character fit in the buffer, or does the buffer end
before that character? With 3 bytes of room only a source that has a `%xx` there will do. -/
def FirstFits (escs src : Text) (siz : Nat) : Prop :=
  let k := (src.takeWhile fun c => !special escs c).length
  match src.dropWhile fun c => !special escs c with
  | [] => True
  | c :: rest => k + 4 < siz ∨ siz ≤ k + 1 ∨ (siz = k + 4 ∧ c = '%' ∧ startsHex rest = true)

theorem firstFits_iff {escs a rest : Text} {c : Char} (ha : ∀ x ∈ a, special escs x = false)
    (hc : special escs c = true) (siz : Nat) :
    FirstFits escs (a ++ c :: rest) siz ↔
      a.length + 4 < siz ∨ siz ≤ a.length + 1 ∨
        (siz = a.length + 4 ∧ c = '%' ∧ startsHex rest = true) := by
  have ha' : ∀ x ∈ a, (!special escs x) = true := by
    intro x hx
    rw [ha x hx]
    rfl
  have htake : (a ++ c :: rest).takeWhile (fun c => !special escs c) = a := by
    rw [List.takeWhile_append_of_pos ha', List.takeWhile_cons_of_neg (by simp [hc]),
      List.append_nil]
  have hdrop : (a ++ c :: rest).dropWhile (fun c => !special escs c) = c :: rest := by
    rw [List.dropWhile_append_of_pos ha', List.dropWhile_cons_of_neg (by simp [hc])]
  unfold FirstFits
  rw [htake, hdrop]

/-- A wrapper leaves no bare special character in the buffer exactly if the escape of the first
one fits, or the buffer ends before it. -/
theorem escape_clean_iff (w : Wrapper) (src : Text) (siz : Nat) (hesc : '\x1b' ∉ src)
    (hsiz : 1 ≤ siz) :
    ((w.run src siz).length < siz ∧ Escaped w.escs (w.run src siz)) ↔
      FirstFits w.escs src siz := by
  have hraw : (src.take (siz - 1)).length < siz := by
    have := List.length_take_le (siz - 1) src
    omega
  by_cases hbare : ∀ c ∈ src, special w.escs c = false
  · have hdrop : src.dropWhile (fun c => !special w.escs c) = [] := by
      rw [List.dropWhile_eq_nil_iff]
      intro c hc
      rw [hbare c hc]
      rfl
    have htake : Escaped w.escs (src.take (siz - 1)) :=
      escaped_of_bare _ _ fun c hc => hbare c (List.mem_of_mem_take hc)
    rw [w.run_bare src siz hbare hesc]
    unfold FirstFits
    simp only [hdrop, hraw, htake, and_self]
  · -- split the source at its first special character
    obtain ⟨a, c, rest, rfl, ha, hc⟩ : ∃ a c rest, src = a ++ c :: rest ∧
        (∀ x ∈ a, special w.escs x = false) ∧ special w.escs c = true := by
      have hsome : (src.find? (special w.escs)).isSome = true := by
        simpa [List.find?_isSome] using hbare
      obtain ⟨c, hfind⟩ := Option.isSome_iff_exists.mp hsome
      obtain ⟨hc, a, rest, hsrc, ha⟩ := List.find?_eq_some_iff_append.mp hfind
      exact ⟨a, c, rest, hsrc, fun x hx => by simpa using ha x hx, hc⟩
    rw [firstFits_iff ha hc]
    by_cases hfit : a.length + 4 < siz
    · exact iff_of_true (w.run_escaped ha hc hesc hfit) (.inl hfit)
    rw [w.run_raw ha hc hesc (by omega)]
    by_cases hshort : siz ≤ a.length + 1
    · have htake : (a ++ c :: rest).take (siz - 1) = a.take (siz - 1) :=
        List.take_append_of_le_length (by omega)
      refine iff_of_true ⟨hraw, ?_⟩ (.inr (.inl hshort))
      rw [htake]
      exact escaped_of_bare _ _ fun x hx => ha x (List.mem_of_mem_take hx)
    · have hcut : siz - 1 = a.length + (siz - 1 - a.length) := by omega
      rw [and_iff_right hraw, hcut, List.take_length_add_append, escaped_append_iff ha,
        escaped_take_iff w c rest hc _ (by omega) (by omega)]
      constructor
      · rintro ⟨hthree, hx⟩
        exact .inr (.inr ⟨by omega, hx⟩)
      · rintro (h | h | ⟨h, hx⟩)
        · exact absurd h hfit
        · exact absurd h hshort
        · exact ⟨by omega, hx⟩

theorem escape_clean_room :
    (safe_escapeX ['a', '<', 'b', '>'] 6).length < 6 ∧
      Escaped safeSet (safe_escapeX ['a', '<', 'b', '>'] 6) :=
  (escape_clean_iff .safe ['a', '<', 'b', '>'] 6 (by decide) (by decide)).mpr
    (.inl (by decide))

/-- A buffer of 4 bytes has no room for the escape of the first character, and its markup is
copied bare. -/
theorem escape_leaks :
    ¬((safe_escapeX ['<', 'b', '>'] 4).length < 4 ∧
      Escaped safeSet (safe_escapeX ['<', 'b', '>'] 4)) := by
  decide

end delegate.urlesc
