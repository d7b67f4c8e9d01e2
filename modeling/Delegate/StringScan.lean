-- Numbers and words at the start of a text: `scanint`, `awordscan` and
-- `wordScan` (rary/String.cpp).
import Delegate.CText

open ctext

namespace delegate.string

/-! ## Numbers and words -/

/-- `INT_MAX` -/
def INT_MAX : Nat := 2147483647

/-- The loop of `scanint`. The number stays at its maximum once that is passed. -/
def scanint.digits (val : Nat) : Text → Nat × Text
  | [] => (val, [])
  | ch :: sp =>
    if ch.isDigit then
      let next := val * 10 + (ch.toNat - '0'.toNat)
      digits (if INT_MAX < next then INT_MAX else next) sp
    else (val, ch :: sp)

def scanint (str : Text) : Nat × Text := scanint.digits 0 str

/-- The word of `size - 1` letters at most, and the text after it. -/
def awordscanX : Nat → Text → Text × Text
  | size + 2, ch :: sp =>
    if ch.isAlpha then
      let (word, sp) := awordscanX (size + 1) sp
      (ch :: word, sp)
    else ([], ch :: sp)
  | _, sp => ([], sp)

/-- `awordscan`, with a word of 128 bytes. -/
def awordscan (str : Text) : Text × Text := awordscanX 128 str

/-- The blanks of `wordscanX`. -/
def wordBlank (ch : Char) : Bool :=
  ch == ' ' || ch == '\t' || ch == '\r' || ch == '\n' || ch == '\x0c'

theorem wordBlank_of_isDigit {c : Char} (h : c.isDigit = true) : wordBlank c = false := by
  simp only [wordBlank, Bool.or_eq_false_iff, beq_eq_false_iff_ne]
  refine ⟨⟨⟨⟨?_, ?_⟩, ?_⟩, ?_⟩, ?_⟩ <;> (rintro rfl; revert h; decide)

/-- `wordscanX`: the word after the blanks, of `size - 1` bytes at most, and the text after it. -/
def wordscanX (size : Nat) (s : Text) : Text × Text :=
  let s := s.dropWhile wordBlank
  let word := (s.takeWhile fun ch => !wordBlank ch).take (size - 1)
  (word, s.drop word.length)

/-- `wordScan`, with a word of 128 bytes. -/
def wordScan (s : Text) : Text × Text := wordscanX 128 s

/-! ## Numbers and words of a longer text -/

theorem scanint.digits_append {ds rest : Text} (h : ∀ c ∈ ds, c.isDigit = true)
    (hrest : ∀ c ∈ rest.head?, c.isDigit = false) {val : Nat} (hval : val ≤ INT_MAX) :
    scanint.digits val (ds ++ rest) = (min (Nat.ofDigitChars 10 ds val) INT_MAX, rest) := by
  have hmono : ∀ (ds : Text) (v w : Nat), v ≤ w →
      Nat.ofDigitChars 10 ds v ≤ Nat.ofDigitChars 10 ds w := by
    intro ds
    induction ds with
    | nil => exact fun v w hvw => by simpa [Nat.ofDigitChars_nil]
    | cons c ds ih =>
      intro v w hvw
      rw [Nat.ofDigitChars_cons, Nat.ofDigitChars_cons]
      exact ih _ _ (by omega)
  have hbig : ∀ (ds : Text) (v : Nat), v ≤ Nat.ofDigitChars 10 ds v := by
    intro ds
    induction ds with
    | nil => exact fun v => by simp [Nat.ofDigitChars_nil]
    | cons c ds ih =>
      intro v
      rw [Nat.ofDigitChars_cons]
      exact Nat.le_trans (by omega) (ih _)
  induction ds generalizing val with
  | nil =>
    rw [List.nil_append, Nat.ofDigitChars_nil, Nat.min_eq_left hval]
    cases rest with
    | nil => rfl
    | cons c rest => rw [digits, if_neg (by simpa using hrest c rfl)]
  | cons c ds ih =>
    have hc := h c (List.mem_cons_self ..)
    have htail : ∀ c ∈ ds, c.isDigit = true := fun c hc => h c (List.mem_cons_of_mem _ hc)
    have hcomm : val * 10 + (c.toNat - '0'.toNat) = 10 * val + (c.toNat - '0'.toNat) := by omega
    rw [List.cons_append, digits, if_pos hc, Nat.ofDigitChars_cons, hcomm]
    dsimp only
    by_cases hover : INT_MAX < 10 * val + (c.toNat - '0'.toNat)
    · rw [if_pos hover, ih htail (Nat.le_refl _)]
      have hmax := hbig ds INT_MAX
      have hnext := hmono ds _ _ (Nat.le_of_lt hover)
      rw [Nat.min_eq_right hmax, Nat.min_eq_right (Nat.le_trans hmax hnext)]
    · rw [if_neg hover, ih htail (by omega)]

/-- `scanint` reads the digits at the start of a text. -/
theorem scanint_append {ds rest : Text} (h : ∀ c ∈ ds, c.isDigit = true)
    (hrest : ∀ c ∈ rest.head?, c.isDigit = false) :
    scanint (ds ++ rest) = (min (Nat.ofDigitChars 10 ds 0) INT_MAX, rest) :=
  scanint.digits_append h hrest (Nat.zero_le _)

theorem scanint_of_not_digit {s : Text} (h : ∀ c ∈ s.head?, c.isDigit = false) :
    scanint s = (0, s) := by
  have := @scanint_append [] s (by simp) h
  simpa [Nat.ofDigitChars_nil] using this

theorem awordscanX_append {w rest : Text} {size : Nat} (h : ∀ c ∈ w, c.isAlpha = true)
    (hlen : w.length < size) (hrest : ∀ c ∈ rest.head?, c.isAlpha = false) :
    awordscanX size (w ++ rest) = (w, rest) := by
  induction w generalizing size with
  | nil =>
    unfold awordscanX
    split
    · rename_i ch sp heq
      rw [List.nil_append] at heq
      rw [if_neg (by simpa using hrest ch (by rw [heq]; rfl)), heq]
    · rfl
  | cons c w ih =>
    obtain ⟨k, rfl⟩ : ∃ k, size = k + 2 := by
      rw [List.length_cons] at hlen
      exact ⟨size - 2, by omega⟩
    have hw := @ih (k + 1) (fun c hc => h c (List.mem_cons_of_mem _ hc)) (by simpa using hlen)
    rw [List.cons_append, awordscanX, if_pos (h c (List.mem_cons_self ..)), hw]

/-- `awordscan` reads the letters at the start of a text. -/
theorem awordscan_append {w rest : Text} (h : ∀ c ∈ w, c.isAlpha = true) (hlen : w.length < 128)
    (hrest : ∀ c ∈ rest.head?, c.isAlpha = false) : awordscan (w ++ rest) = (w, rest) :=
  awordscanX_append h hlen hrest

/-- A word that the buffer holds, where a blank or the end follows. -/
theorem wordscanX_append {w rest : Text} (h : ∀ c ∈ w, wordBlank c = false) (hne : w ≠ [])
    {size : Nat} (hlen : w.length < size) (hrest : ∀ c ∈ rest.head?, wordBlank c = true) :
    wordscanX size (w ++ rest) = (w, rest) := by
  have hword : ((w ++ rest).takeWhile fun ch => !wordBlank ch) = w :=
    (while_append (fun c hc => by simp [h c hc]) (fun c hc => by simp [hrest c hc])).1
  have hskip : (w ++ rest).dropWhile wordBlank = w ++ rest := by
    obtain ⟨c, w, rfl⟩ := List.exists_cons_of_ne_nil hne
    simp [h c (List.mem_cons_self ..)]
  unfold wordscanX
  dsimp only
  rw [hskip, hword, List.take_of_length_le (by omega), List.drop_left]

theorem wordScan_append {w rest : Text} (h : ∀ c ∈ w, wordBlank c = false) (hne : w ≠ [])
    (hlen : w.length < 128) (hrest : ∀ c ∈ rest.head?, wordBlank c = true) :
    wordScan (w ++ rest) = (w, rest) :=
  wordscanX_append h hne hlen hrest

end delegate.string
