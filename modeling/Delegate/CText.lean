-- C text. A C string is the list of its characters, without the NUL at
-- the end. The calls of the C library that scanners use are pure
-- functions here: what a call finds, and what text it leaves.
import Mathlib

namespace ctext

/-- A C string. A character stands for a byte. -/
abbrev Text := List Char

/-! ## Classes of characters -/

/-- `isspace` in the C locale. -/
def isspace (c : Char) : Bool :=
  c == ' ' || c == '\t' || c == '\n' || c == '\x0b' || c == '\x0c' || c == '\r'

/-- `iscntrl` in the C locale. -/
def iscntrl (c : Char) : Bool := c.toNat < 32 || c.toNat == 127

def isxdigit (c : Char) : Bool :=
  c.isDigit || ('a' ≤ c && c ≤ 'f') || ('A' ≤ c && c ≤ 'F')

/-- The value of a hexadecimal digit. -/
def hexVal (c : Char) : Nat :=
  if c.isDigit then c.toNat - '0'.toNat
  else if 'a' ≤ c && c ≤ 'f' then c.toNat - 'a'.toNat + 10
  else c.toNat - 'A'.toNat + 10

/-! ## Search -/

/-- The text after the first `c`: `strchr(s,c)+1`. -/
def afterChr (c : Char) : Text → Option Text
  | [] => none
  | d :: s => if d = c then some s else afterChr c s

/-- The text before the first `c`, or all of it. -/
def beforeChr (c : Char) (s : Text) : Text := s.takeWhile (· ≠ c)

/-- `strstr`: the text before the first `pat`, and the text from it on. -/
def strstr (pat : Text) : Text → Option (Text × Text)
  | [] => if pat = [] then some ([], []) else none
  | c :: s =>
    if pat <+: c :: s then some ([], c :: s)
    else (strstr pat s).map (fun p => (c :: p.1, p.2))

/-- `strrchr`: the text before the last `c`, and the text after it. -/
def strrchr (c : Char) : Text → Option (Text × Text)
  | [] => none
  | d :: s =>
    match strrchr c s with
    | some p => some (d :: p.1, p.2)
    | none => if d = c then some ([], s) else none

/-- `QStrncpy(d,s,z)`: the text in `d` afterwards. -/
def XStrncpy (s : Text) (z : Nat) : Text := s.take (z - 1)

/-- `strcasecmp(a,b) == 0`. -/
def strcaseeq (a b : Text) : Bool := a.map Char.toLower == b.map Char.toLower

/-- `strcasestr(s,t) != NULL` -/
def strcasestr (s t : Text) : Bool := (strstr (t.map Char.toLower) (s.map Char.toLower)).isSome

/-- `strtailstr(s,t)`: the text `s` ends with `t`. -/
def strtailstr (s t : Text) : Bool := t.isSuffixOf s

/-- A character that is no letter comes only from itself. -/
theorem eq_of_toLower_eq {c d : Char} (hd : d.isAlpha = false) (h : c.toLower = d) : c = d := by
  unfold Char.toLower at h
  split at h
  · have hl : d.isAlpha = true := by
      subst h
      grind [Char.isAlpha, Char.isLower, Char.isUpper]
    rw [hd] at hl
    cases hl
  · exact h

/-- A scan stops at the first character that it does not take. -/
theorem while_append {p : Char → Bool} {s t : Text} (hs : ∀ c ∈ s, p c = true)
    (ht : ∀ c ∈ t.head?, p c = false) :
    (s ++ t).takeWhile p = s ∧ (s ++ t).dropWhile p = t := by
  rw [List.takeWhile_append_of_pos hs, List.dropWhile_append_of_pos hs]
  cases t with
  | nil => simp
  | cons c t => simp [ht c rfl]

theorem head_dropWhile (p : Char → Bool) (s : Text) :
    ∀ c ∈ (s.dropWhile p).head?, p c = false := by
  intro c hc
  have h := List.head?_dropWhile_not p s
  rw [Option.mem_def] at hc
  rwa [hc] at h

theorem strstr_eq_none {pat s : Text} (h : ¬ pat <:+: s) : strstr pat s = none := by
  induction s with
  | nil =>
    have hne : pat ≠ [] := fun h0 => h (h0 ▸ List.infix_rfl)
    simp [strstr, hne]
  | cons c s ih =>
    have hpre : ¬ pat <+: c :: s := fun hp => h hp.isInfix
    have htail : ¬ pat <:+: s := fun hi => h (hi.trans (List.suffix_cons c s).isInfix)
    simp [strstr, hpre, ih htail]

theorem strstr_isSome_iff {pat s : Text} : (strstr pat s).isSome = true ↔ pat <:+: s := by
  constructor
  · intro h
    by_contra hn
    rw [strstr_eq_none hn] at h
    cases h
  · intro h
    induction s with
    | nil => simp [strstr, List.infix_nil.mp h]
    | cons c s ih =>
      unfold strstr
      split
      · rfl
      · rename_i hpre
        rw [Option.isSome_map]
        exact ih ((List.infix_cons_iff.mp h).resolve_left hpre)

theorem strstr_some {pat s a b : Text} (h : strstr pat s = some (a, b)) :
    s = a ++ b ∧ pat <+: b := by
  induction s generalizing a with
  | nil =>
    rw [strstr] at h
    split at h
    · rename_i hpat
      cases h
      exact ⟨rfl, hpat ▸ List.prefix_rfl⟩
    · cases h
  | cons c s ih =>
    rw [strstr] at h
    split at h
    · rename_i hpre
      cases h
      exact ⟨rfl, hpre⟩
    · obtain ⟨p, hp, heq⟩ := Option.map_eq_some_iff.mp h
      cases heq
      obtain ⟨hs, hpre⟩ := ih hp
      exact ⟨by rw [List.cons_append, ← hs], hpre⟩

/-- No place of a text is before the one that is found. -/
theorem strstr_first {pat s a b x y : Text} (h : strstr pat s = some (a, b))
    (hs : s = x ++ pat ++ y) : a.length ≤ x.length := by
  induction s generalizing a x with
  | nil =>
    rw [(List.append_eq_nil_iff.mp (strstr_some h).1.symm).1]
    exact Nat.zero_le _
  | cons c s ih =>
    rw [strstr] at h
    split at h
    · cases h
      exact Nat.zero_le _
    · rename_i hpre
      obtain ⟨found, hfound, heq⟩ := Option.map_eq_some_iff.mp h
      cases heq
      cases x with
      | nil => exact absurd ⟨y, hs.symm⟩ hpre
      | cons d x =>
        rw [List.cons_append, List.cons_append, List.cons.injEq] at hs
        exact Nat.succ_le_succ (ih hfound hs.2)

/-- A text is found at its first place. -/
theorem strstr_append {c : Char} {pat s t : Text} (h : c ∉ s) :
    strstr (c :: pat) (s ++ (c :: pat ++ t)) = some (s, c :: pat ++ t) := by
  induction s with
  | nil =>
    rw [List.nil_append, List.cons_append, strstr, if_pos]
    exact List.prefix_append (c :: pat) t
  | cons d s ih =>
    rw [List.mem_cons, not_or] at h
    have hpre : ¬c :: pat <+: d :: (s ++ (c :: pat ++ t)) := by
      intro hp
      exact h.1 (List.cons_prefix_cons.mp hp).1
    rw [List.cons_append, strstr, if_neg hpre, ih h.2]
    rfl

theorem not_infix_of_not_mem {pat s : Text} {c : Char} (hp : c ∈ pat) (hs : c ∉ s) :
    ¬ pat <:+: s := fun h => hs (h.subset hp)

theorem afterChr_eq_none {c : Char} {s : Text} (h : c ∉ s) : afterChr c s = none := by
  induction s with
  | nil => rfl
  | cons d s ih =>
    simp only [List.mem_cons, not_or] at h
    simp [afterChr, Ne.symm h.1, ih h.2]

theorem afterChr_append {c : Char} {s t : Text} (h : c ∉ s) : afterChr c (s ++ c :: t) = some t := by
  induction s with
  | nil => simp [afterChr]
  | cons d s ih =>
    simp only [List.mem_cons, not_or] at h
    simp [afterChr, Ne.symm h.1, ih h.2]

theorem beforeChr_append {c : Char} {s t : Text} (h : c ∉ s) : beforeChr c (s ++ c :: t) = s := by
  have hs : ∀ d ∈ s, (decide (d ≠ c)) = true := by
    intro d hd
    simp only [decide_eq_true_eq]
    rintro rfl
    exact h hd
  unfold beforeChr
  rw [List.takeWhile_append_of_pos hs]
  simp

theorem strrchr_eq_none {c : Char} {s : Text} (h : c ∉ s) : strrchr c s = none := by
  induction s with
  | nil => rfl
  | cons d s ih =>
    simp only [List.mem_cons, not_or] at h
    simp [strrchr, Ne.symm h.1, ih h.2]

theorem strrchr_append {c : Char} {a b : Text} (h : c ∉ b) :
    strrchr c (a ++ c :: b) = some (a, b) := by
  induction a with
  | nil => simp [strrchr, strrchr_eq_none h]
  | cons d a ih => simp [strrchr, ih]

/-- A text without `c`, or the parts of a text around its last `c`. -/
theorem strrchr_cases (c : Char) (s : Text) :
    c ∉ s ∨ ∃ a b, s = a ++ c :: b ∧ c ∉ b := by
  induction s with
  | nil => exact .inl List.not_mem_nil
  | cons d s ih =>
    rcases ih with h | ⟨a, b, rfl, hb⟩
    · by_cases hd : d = c
      · subst hd
        exact .inr ⟨[], s, rfl, h⟩
      · apply Or.inl
        rintro (_ | ⟨_, hm⟩)
        · exact hd rfl
        · exact h hm
    · exact .inr ⟨d :: a, b, rfl, hb⟩

/-- The parts of a text around its first `c` are its own. -/
theorem append_cons_inj {c : Char} {a b x y : Text} (ha : c ∉ a) (hb : c ∉ b)
    (h : a ++ c :: x = b ++ c :: y) : a = b ∧ x = y := by
  have hbefore := congrArg (beforeChr c) h
  have hafter := congrArg (afterChr c) h
  rw [beforeChr_append ha, beforeChr_append hb] at hbefore
  rw [afterChr_append ha, afterChr_append hb] at hafter
  exact ⟨hbefore, Option.some.inj hafter⟩

/-! ## Numbers -/

/-- `(int)` of a `long`, as the C library stores the result of `strtol`:
the value is first held in the range of a `long`, then cut to 32 bits. -/
def toInt32 (z : Int) : Int := Int.bmod (max (-2 ^ 63) (min (2 ^ 63 - 1) z)) (2 ^ 32)

/-- The sign before a number: is it a minus, and the text after it. -/
def sign : Text → Bool × Text
  | '-' :: r => (true, r)
  | '+' :: r => (false, r)
  | r => (false, r)

/-- One decimal number, as `strtol` and the `%d` of `sscanf` read it:
blanks, a sign, digits. With no digit there is no number. -/
def strtol (s : Text) : Option (Int × Text) :=
  let sg := sign (s.dropWhile isspace)
  let ds := sg.2.takeWhile Char.isDigit
  let v : Int := Nat.ofDigitChars 10 ds 0
  if ds = [] then none
  else some (if sg.1 then -v else v, sg.2.dropWhile Char.isDigit)

def atoi (s : Text) : Int :=
  match strtol s with
  | none => 0
  | some (z, _) => toInt32 z

/-- What `sscanf(s,"%d-%d",&a,&b)` reads: nothing, one number or two. -/
inductive Range
  | none
  | one (a : Int)
  | two (a b : Int)
deriving DecidableEq, Repr

def scanRange (s : Text) : Range :=
  match strtol s with
  | none => .none
  | some (a, '-' :: r) =>
    match strtol r with
    | none => .one (toInt32 a)
    | some (b, _) => .two (toInt32 a) (toInt32 b)
  | some (a, _) => .one (toInt32 a)

/-- What `sscanf(s,"%x",&v)` reads into 32 bits. -/
def scanHex (s : Text) : Option (BitVec 32) :=
  let s := s.dropWhile isspace
  let s := match s with
    | '0' :: x :: r => if (x = 'x' ∨ x = 'X') ∧ r.head?.any isxdigit then r else s
    | r => r
  let ds := s.takeWhile isxdigit
  if ds = [] then none else some (BitVec.ofNat 32 (ds.foldl (fun n c => n * 16 + hexVal c) 0))

/-- A number as `printf("%d")` writes it. -/
def dec (n : Nat) : Text := Nat.toDigits 10 n

theorem dec_ne_nil (n : Nat) : dec n ≠ [] := Nat.toDigits_ne_nil

theorem isDigit_of_mem_dec {n : Nat} {c : Char} (h : c ∈ dec n) : c.isDigit = true :=
  Nat.isDigit_of_mem_toDigits (by decide) (by decide) h

theorem dec_inj {m n : Nat} (h : dec m = dec n) : m = n := by
  have hm : Nat.ofDigitChars 10 (dec m) 0 = m := Nat.ofDigitChars_ten_toDigits
  have hn : Nat.ofDigitChars 10 (dec n) 0 = n := Nat.ofDigitChars_ten_toDigits
  rw [← hm, h, hn]

/-- A character that is no digit stands nowhere in a number. -/
theorem not_mem_dec {n : Nat} {c : Char} (h : c.isDigit = false) : c ∉ dec n := by
  intro hc
  rw [isDigit_of_mem_dec hc] at h
  cases h

theorem toInt32_of_small {n : Nat} (h : n < 2 ^ 31) : toInt32 n = n := by
  unfold toInt32
  rw [Int.bmod_def]
  split <;> omega

theorem toInt32_of_range {z : Int} (hl : -2 ^ 31 ≤ z) (hh : z < 2 ^ 31) : toInt32 z = z := by
  unfold toInt32
  rw [Int.bmod_def]
  split <;> omega

theorem isspace_of_isDigit {c : Char} (h : c.isDigit = true) : isspace c = false := by
  by_contra hs
  simp only [Bool.not_eq_false, isspace, Bool.or_eq_true, beq_iff_eq] at hs
  rcases hs with ((((hs | hs) | hs) | hs) | hs) | hs <;> subst hs <;> revert h <;> decide

/-- Digits with no digit after them are read as their number. -/
theorem strtol_digits_append {ds t : Text} (hd : ∀ c ∈ ds, c.isDigit = true) (hne : ds ≠ [])
    (ht : ∀ c ∈ t.head?, c.isDigit = false) :
    strtol (ds ++ t) = some (((Nat.ofDigitChars 10 ds 0 : Nat) : Int), t) := by
  obtain ⟨htake, hdrop⟩ := while_append hd ht
  obtain ⟨d, r, hds⟩ := List.exists_cons_of_ne_nil hne
  have hd0 : d.isDigit = true := hd d (by rw [hds]; exact List.mem_cons_self)
  have hsp : (ds ++ t).dropWhile isspace = ds ++ t := by
    rw [hds, List.cons_append, List.dropWhile_cons_of_neg (by simp [isspace_of_isDigit hd0])]
  have hm : d ≠ '-' := by rintro rfl; revert hd0; decide
  have hp : d ≠ '+' := by rintro rfl; revert hd0; decide
  have hsign : sign (ds ++ t) = (false, ds ++ t) := by
    rw [hds, List.cons_append]
    unfold sign
    split
    · rename_i h; exact absurd (List.cons.inj h).1 hm
    · rename_i h; exact absurd (List.cons.inj h).1 hp
    · rfl
  simp only [strtol, hsp, hsign, htake, hdrop, hne, if_false, Bool.false_eq_true]

theorem strtol_minus_digits {ds : Text} (hd : ∀ c ∈ ds, c.isDigit = true) (hne : ds ≠ []) :
    strtol ('-' :: ds) = some (-((Nat.ofDigitChars 10 ds 0 : Nat) : Int), []) := by
  obtain ⟨htake, hdrop⟩ := @while_append Char.isDigit ds [] hd (by simp)
  rw [List.append_nil] at htake hdrop
  have hsp : ('-' :: ds).dropWhile isspace = '-' :: ds := rfl
  simp only [strtol, hsp, sign, htake, hdrop, hne, if_false, if_true]

/-- A number with no digit after it is read back whole. -/
theorem strtol_dec_append (n : Nat) (t : Text) (ht : ∀ c ∈ t.head?, c.isDigit = false) :
    strtol (dec n ++ t) = some ((n : Int), t) := by
  have hval : Nat.ofDigitChars 10 (dec n) 0 = n := Nat.ofDigitChars_ten_toDigits
  rw [strtol_digits_append (fun c hc => isDigit_of_mem_dec hc) (dec_ne_nil n) ht, hval]

theorem strtol_dec (n : Nat) : strtol (dec n) = some ((n : Int), []) := by
  have h := strtol_dec_append n [] (by simp)
  rwa [List.append_nil] at h

theorem atoi_digits {ds : Text} (hd : ∀ c ∈ ds, c.isDigit = true) (hne : ds ≠ []) :
    atoi ds = toInt32 ((Nat.ofDigitChars 10 ds 0 : Nat) : Int) := by
  have h := @strtol_digits_append ds [] hd hne (by simp)
  rw [List.append_nil] at h
  rw [atoi, h]

theorem atoi_dec {n : Nat} (h : n < 2 ^ 31) : atoi (dec n) = n := by
  simp only [atoi, strtol_dec, toInt32_of_small h]

theorem sign_cons (c : Char) (s : Text) :
    sign (c :: s) =
      if c = '-' then (true, s) else if c = '+' then (false, s) else (false, c :: s) := by
  unfold sign
  split
  · rename_i h
    cases h
    rfl
  · rename_i h
    cases h
    rfl
  · rename_i hm hp
    have hm' : c ≠ '-' := by
      rintro rfl
      exact hm s rfl
    have hp' : c ≠ '+' := by
      rintro rfl
      exact hp s rfl
    rw [if_neg hm', if_neg hp']

/-- A character that no number has in it. -/
def numberStop (c : Char) : Bool := !isspace c && !c.isDigit && c != '-' && c != '+'

/-- A number ends before a character that no number has in it. -/
theorem atoi_append_of_stop {a t : Text} (ha : ∀ c ∈ a, isspace c = false)
    (ht : ∀ c ∈ t.head?, numberStop c = true) : atoi (a ++ t) = atoi a := by
  have hdigits : ∀ b, (b ++ t).takeWhile Char.isDigit = b.takeWhile Char.isDigit := by
    intro b
    induction b with
    | nil =>
      cases t with
      | nil => rfl
      | cons c t =>
        have hc := ht c rfl
        simp only [numberStop, Bool.and_eq_true, Bool.not_eq_true', bne_iff_ne] at hc
        simp [hc.1.1.2]
    | cons c b ih =>
      by_cases hc : c.isDigit = true
      · rw [List.cons_append, List.takeWhile_cons_of_pos hc, List.takeWhile_cons_of_pos hc, ih]
      · rw [List.cons_append, List.takeWhile_cons_of_neg hc, List.takeWhile_cons_of_neg hc]
  have hblank : (a ++ t).dropWhile isspace = a ++ t ∧ a.dropWhile isspace = a := by
    cases a with
    | nil =>
      cases t with
      | nil => exact ⟨rfl, rfl⟩
      | cons c t =>
        have hc := ht c rfl
        simp only [numberStop, Bool.and_eq_true, Bool.not_eq_true', bne_iff_ne] at hc
        simp [hc.1.1.1]
    | cons c a => simp [ha c List.mem_cons_self]
  have hsign : sign (a ++ t) = ((sign a).1, (sign a).2 ++ t) := by
    cases a with
    | nil =>
      cases t with
      | nil => rfl
      | cons c t =>
        have hc := ht c rfl
        simp only [numberStop, Bool.and_eq_true, Bool.not_eq_true', bne_iff_ne] at hc
        rw [List.nil_append, sign_cons, if_neg hc.1.2, if_neg hc.2]
        rfl
    | cons c a =>
      rw [List.cons_append, sign_cons, sign_cons]
      split
      · rfl
      · split <;> rfl
  unfold atoi strtol
  simp only [hblank, hsign, hdigits]
  by_cases hd : (sign a).2.takeWhile Char.isDigit = []
  · simp only [hd, if_true]
  · simp only [hd, if_false]

theorem scanRange_dec {n : Nat} (h : n < 2 ^ 31) : scanRange (dec n) = .one n := by
  simp only [scanRange, strtol_dec, toInt32_of_small h]

end ctext
