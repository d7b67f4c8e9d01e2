-- The lists of patterns that a text is matched with (strmatch_list and
-- strmatch1, rary/String.cpp). The last pattern that matches decides. The
-- anchors behind the text of a pattern are looked for as if the text stood
-- at the start of the target.
import Delegate.ContentCharset
import Delegate.ListElems

open ctext

namespace delegate.strmatch

/-! ## The pure model -/

def strip_spaces (value : Text) : Text :=
  ((value.dropWhile fun c => c == ' ' || c == '\t').reverse.dropWhile (· == ' ')).reverse

structure LMarg where
  l_top : Bool
  l_bottom : Bool
  l_nextch : Option Char
  l_negate : Bool
  l_seecase : Bool

/-- What the loop over a pattern sets. `pat1` is the text from `pat1` to `pp`. -/
structure Marks where
  negate : Bool
  top : Bool
  btm : Bool
  nextch : Option Char
  pat1 : Text
  deriving DecidableEq, Repr

/-- A character of a pattern, with what is behind it. `first` is `sp == pat0`. -/
def mark (first : Bool) (sc : Char) (sp : Text) (m : Marks) : Marks :=
  if sc = '!' ∧ first = true then { m with negate := true }
  else if sc = '*' ∧ m.pat1 = [] then { m with top := false }
  else if sc = '^' ∧ m.pat1 = [] then { m with top := true }
  else if sc = '*' ∧ sp = [] then { m with btm := false, nextch := none }
  else if sc = '$' ∧ sp = [] then { m with btm := true }
  else { m with pat1 := m.pat1 ++ [sc] }

/-- The loop over a pattern, with a buffer of 256 characters. -/
def scanMarks : Bool → Marks → Text → Marks
  | _, m, [] => m
  | first, m, sc :: sp =>
    if 255 ≤ m.pat1.length then m else scanMarks false (mark first sc sp m) sp

/-- `match - target`, by `strstr` or `strcasestr`. -/
def find (seecase : Bool) (pat1 target : Text) : Option Nat :=
  if seecase then (strstr pat1 target).map fun found => found.1.length
  else (rfc822.strcasefind target pat1).map fun found => found.1.length

/-- The checks of a match. `target[plen]` is zero at the end of the target. -/
def Marks.keeps (m : Marks) (target : Text) (off : Nat) : Bool :=
  let plen := m.pat1.length
  !(m.top && off != 0) && !(m.btm && target[plen]?.isSome) &&
    (m.nextch.isNone || target[plen]? == m.nextch)

def strmatch1 (lma : LMarg) (target : Text) (matched : Int) (pattern : Text) : Int :=
  let m := scanMarks true ⟨lma.l_negate, lma.l_top, lma.l_bottom, lma.l_nextch, []⟩
    (strip_spaces pattern)
  let seecase := lma.l_seecase || m.pat1.any Char.isUpper
  let found := (find seecase m.pat1 target).filter (m.keeps target)
  if found.isSome then if m.negate then 0 else 1 else matched

/-- What `cntrl` says. `strtailchr` gives its last character. -/
def anchors (cntrl : Text) : LMarg :=
  let tch := cntrl.getLast?
  ⟨cntrl.head? == some '^', tch == some '$', tch.filter (· != '^'), false, false⟩

def strmatch_list (str list cntrl : Text) : Int :=
  let matched := if list.head? = some '!' then 1 else 0
  (delegate.list.scan_ListX delegate.list.comma
    (fun lp _ now => (0, strmatch1 (anchors cntrl) str now lp)) list matched).state

/-! ## The language of the patterns -/

/-- The marks that a pattern may begin with, behind a `!`. -/
def isTopMark (c : Char) : Bool := c == '*' || c == '^'

def negated (pattern : Text) : Bool := (strip_spaces pattern).head? == some '!'

/-- A pattern without its `!`. -/
def positive (pattern : Text) : Text :=
  if negated pattern then (strip_spaces pattern).tail else strip_spaces pattern

/-- What is behind the marks: the text, and at most one mark. -/
def body (pattern : Text) : Text := (positive pattern).dropWhile isTopMark

def starred (pattern : Text) : Bool := (body pattern).getLast? == some '*'

def dollared (pattern : Text) : Bool := (body pattern).getLast? == some '$'

/-- What a pattern asks for: its text at the start of the target, at its end, or before the
character `next`. -/
structure Pattern where
  text : Text
  start : Bool
  ends : Bool
  next : Option Char
  cased : Bool

/-- A pattern, with the anchors of `cntrl` where it has no marks of its own. -/
def Pattern.read (cntrl pattern : Text) : Pattern where
  text := if starred pattern || dollared pattern then (body pattern).dropLast else body pattern
  start := (((positive pattern).takeWhile isTopMark).getLast?.or cntrl.head?) == some '^'
  ends := !starred pattern && (dollared pattern || cntrl.getLast? == some '$')
  next := if starred pattern then none else cntrl.getLast?.filter fun c => c != '^' && c != '$'
  cased := pattern.any Char.isUpper

def fold (cased : Bool) (t : Text) : Text := if cased then t else t.map Char.toLower

/-- A text occurs at an offset of the target. -/
def OccursAt (cased : Bool) (text target : Text) (k : Nat) : Prop :=
  k ≤ target.length ∧ fold cased text <+: fold cased (target.drop k)

def Pattern.Occurs (p : Pattern) (target : Text) (k : Nat) : Prop :=
  OccursAt p.cased p.text target k

/-- The anchors that are in force hold at an offset. -/
def Pattern.Anchored (p : Pattern) (target : Text) (k : Nat) : Prop :=
  (p.start = true → k = 0) ∧ (p.ends = true → k + p.text.length = target.length) ∧
    ∀ c ∈ p.next, target[k + p.text.length]? = some c

def Pattern.Matches (p : Pattern) (target : Text) : Prop :=
  ∃ k, p.Occurs target k ∧ p.Anchored target k

/-- What a pattern that matches gives. -/
def polarity (pattern : Text) : Int := if negated pattern then 0 else 1

/-- The answer of a list of patterns: the last one that matches gives it, or it is the default. -/
def Says (cntrl target : Text) (otherwise : Int) (patterns : List Text) (answer : Int) : Prop :=
  (∃ a p b, patterns = a ++ p :: b ∧ (Pattern.read cntrl p).Matches target ∧
    (∀ q ∈ b, ¬ (Pattern.read cntrl q).Matches target) ∧ answer = polarity p) ∨
  ((∀ q ∈ patterns, ¬ (Pattern.read cntrl q).Matches target) ∧ answer = otherwise)

/-- The places where the anchors of a pattern are looked for are the right ones. -/
structure Sound (cntrl target pattern : Text) : Prop where
  dollar : cntrl.getLast? = some '$' → starred pattern = false →
    ∀ k, (Pattern.read cntrl pattern).Occurs target k →
      ((Pattern.read cntrl pattern).start = true → k = 0) →
      k + (Pattern.read cntrl pattern).text.length ≠ target.length
  ends : (Pattern.read cntrl pattern).start = false → (Pattern.read cntrl pattern).ends = true →
    (Pattern.read cntrl pattern).next = none →
    ∀ k, (Pattern.read cntrl pattern).Occurs target k →
      k + (Pattern.read cntrl pattern).text.length = target.length → k = 0
  next : (Pattern.read cntrl pattern).start = false → (Pattern.read cntrl pattern).ends = false →
    ∀ c ∈ (Pattern.read cntrl pattern).next,
      (target[(Pattern.read cntrl pattern).text.length]? = some c ∧
        ∃ k, (Pattern.read cntrl pattern).Occurs target k) ↔
      ∃ k, (Pattern.read cntrl pattern).Occurs target k ∧
        target[k + (Pattern.read cntrl pattern).text.length]? = some c

/-! ## The first occurrence -/

section
variable {cased : Bool} {text target : Text} {k : Nat}

@[simp] theorem fold_length (cased : Bool) (t : Text) : (fold cased t).length = t.length := by
  cases cased <;> simp [fold]

@[simp] theorem fold_drop (cased : Bool) (t : Text) (k : Nat) :
    fold cased (t.drop k) = (fold cased t).drop k := by
  cases cased <;> simp [fold]

theorem OccursAt.le (h : OccursAt cased text target k) : k + text.length ≤ target.length := by
  have hle := h.2.length_le
  have hk := h.1
  simp at hle
  omega

theorem find_eq (cased : Bool) (text target : Text) : find cased text target =
    (strstr (fold cased text) (fold cased target)).map fun found => found.1.length := by
  cases cased with
  | true => simp [find, fold]
  | false =>
    simp only [find, fold, rfc822.strcasefind, Bool.false_eq_true, if_false, Option.map_map]
    cases h : strstr (text.map Char.toLower) (target.map Char.toLower) with
    | none => simp
    | some found =>
      have hlen := congrArg List.length (strstr_some h).1
      simp at hlen
      simp
      omega

/-- What is found is the first occurrence. -/
theorem find_some (h : find cased text target = some k) :
    OccursAt cased text target k ∧ ∀ j, OccursAt cased text target j → k ≤ j := by
  rw [find_eq, Option.map_eq_some_iff] at h
  obtain ⟨⟨a, b⟩, hfound, rfl⟩ := h
  obtain ⟨hab, hpre⟩ := strstr_some hfound
  have hlen := congrArg List.length hab
  simp at hlen
  refine ⟨⟨by simp; omega, ?_⟩, ?_⟩
  · rw [fold_drop, hab, List.drop_left]
    exact hpre
  · intro j hj
    obtain ⟨y, hy⟩ := hj.2
    have hsplit : fold cased target = (fold cased target).take j ++ fold cased text ++ y := by
      rw [List.append_assoc, hy, fold_drop, List.take_append_drop]
    have hfirst := strstr_first hfound hsplit
    simp at hfirst
    exact hfirst.1

theorem find_none (h : find cased text target = none) : ¬ OccursAt cased text target k := by
  rw [find_eq, Option.map_eq_none_iff] at h
  intro hk
  have hin : fold cased text <:+: fold cased target := by
    have hpre := hk.2
    rw [fold_drop] at hpre
    exact hpre.isInfix.trans (List.drop_suffix ..).isInfix
  have hsome := strstr_isSome_iff.mpr hin
  simp [h] at hsome

end

/-! ## The marks of a pattern -/

/-- The end of a pattern, from its text on. -/
def Marks.close (m : Marks) (s : Text) : Marks :=
  if s.getLast? = some '*' then
    { m with btm := false, nextch := none, pat1 := m.pat1 ++ s.dropLast }
  else if s.getLast? = some '$' then { m with btm := true, pat1 := m.pat1 ++ s.dropLast }
  else { m with pat1 := m.pat1 ++ s }

/-- `top` behind the marks that a pattern begins with. -/
def topOf (marks : Text) (top : Bool) : Bool :=
  (marks.getLast?.map (· == '^')).getD top

theorem topOf_cons (c : Char) (marks : Text) (top : Bool) :
    topOf (c :: marks) top = topOf marks (c == '^') := by
  cases marks with
  | nil => simp [topOf]
  | cons d marks => simp [topOf, List.getLast?_cons]

section
variable {m : Marks} {c d : Char} {s : Text}

theorem mark_inside (h : m.pat1 = [] → isTopMark c = false) :
    mark false c (d :: s) m = { m with pat1 := m.pat1 ++ [c] } := by
  have hstar : ¬ (c = '*' ∧ m.pat1 = []) := by
    rintro ⟨rfl, hnil⟩
    exact absurd (h hnil) (by decide)
  have htop : ¬ (c = '^' ∧ m.pat1 = []) := by
    rintro ⟨rfl, hnil⟩
    exact absurd (h hnil) (by decide)
  simp [mark, hstar, htop]

theorem mark_last (h : m.pat1 = [] → isTopMark c = false) : mark false c [] m = m.close [c] := by
  have hstar : ¬ (c = '*' ∧ m.pat1 = []) := by
    rintro ⟨rfl, hnil⟩
    exact absurd (h hnil) (by decide)
  have htop : ¬ (c = '^' ∧ m.pat1 = []) := by
    rintro ⟨rfl, hnil⟩
    exact absurd (h hnil) (by decide)
  unfold mark Marks.close
  rw [if_neg (by simp), if_neg hstar, if_neg htop]
  simp

theorem close_cons : ({ m with pat1 := m.pat1 ++ [c] } : Marks).close (d :: s) =
    m.close (c :: d :: s) := by
  simp [Marks.close]

theorem scanMarks_body (h : m.pat1 = [] → ∀ c ∈ s.head?, isTopMark c = false)
    (hlen : m.pat1.length + s.length ≤ 255) : scanMarks false m s = m.close s := by
  induction s generalizing m with
  | nil => simp [scanMarks, Marks.close]
  | cons c s ih =>
    rw [List.length_cons] at hlen
    have hc : m.pat1 = [] → isTopMark c = false := fun hnil => h hnil c rfl
    rw [scanMarks, if_neg (by omega)]
    cases s with
    | nil => rw [scanMarks, mark_last hc]
    | cons d s =>
      rw [mark_inside hc, ih (by simp), close_cons]
      simp at hlen ⊢
      omega

/-- Marks are read while there is no text yet. -/
theorem scanMarks_marks (h : m.pat1 = []) (hlen : s.length ≤ 255) : scanMarks false m s =
    ({ m with top := topOf (s.takeWhile isTopMark) m.top } : Marks).close
      (s.dropWhile isTopMark) := by
  induction s generalizing m with
  | nil =>
    cases m
    subst h
    simp [scanMarks, Marks.close, topOf]
  | cons c s ih =>
    rw [List.length_cons] at hlen
    by_cases hc : isTopMark c = true
    · have hmark : mark false c s m = { m with top := c == '^' } := by
        rcases (by simpa [isTopMark] using hc : c = '*' ∨ c = '^') with rfl | rfl
        · simp [mark, h]
        · simp [mark, h]
      rw [scanMarks, if_neg (by simp [h]), hmark, @ih { m with top := c == '^' } h (by omega),
        List.takeWhile_cons_of_pos hc, List.dropWhile_cons_of_pos hc]
      rw [topOf_cons]
    · rw [List.takeWhile_cons_of_neg hc, List.dropWhile_cons_of_neg hc, scanMarks_body]
      · simp [topOf]
      · intro _ d hd
        simp at hd
        simpa [hd] using hc
      · simp [h]
        omega

theorem scanMarks_first (h : m.pat1 = []) (hlen : s.length ≤ 255) : scanMarks true m s =
    if s.head? = some '!' then scanMarks false { m with negate := true } s.tail
    else scanMarks false m s := by
  cases s with
  | nil => simp [scanMarks]
  | cons c s =>
    by_cases hc : c = '!'
    · simp [scanMarks, h, mark, hc]
    · simp [scanMarks, h, mark, hc]

end

/-! ## A pattern is read by its language -/

section
variable {cntrl target pattern : Text}

theorem any_dropWhile {q r : Char → Bool} (h : ∀ c, q c = true → r c = false) (s : Text) :
    (s.dropWhile q).any r = s.any r := by
  induction s with
  | nil => simp
  | cons c s ih =>
    by_cases hc : q c = true
    · rw [List.dropWhile_cons_of_pos hc, ih, List.any_cons, h c hc, Bool.false_or]
    · rw [List.dropWhile_cons_of_neg hc]

/-- Blanks and marks are no capitals. -/
theorem any_isUpper_strip : (strip_spaces pattern).any Char.isUpper = pattern.any Char.isUpper := by
  unfold strip_spaces
  rw [List.any_reverse, any_dropWhile, List.any_reverse, any_dropWhile]
  · intro c hc
    rcases (by simpa using hc : c = ' ' ∨ c = '\t') with rfl | rfl <;> decide
  · intro c hc
    rw [(by simpa using hc : c = ' ')]
    decide

theorem any_isUpper_body : (body pattern).any Char.isUpper = pattern.any Char.isUpper := by
  rw [body, any_dropWhile]
  · refine Eq.trans ?_ any_isUpper_strip
    rw [positive]
    split
    · rename_i hneg
      cases hs : strip_spaces pattern with
      | nil => rfl
      | cons c s =>
        rw [negated, hs] at hneg
        rw [(by simpa using hneg : c = '!'), List.any_cons]
        simp
    · rfl
  · intro c hc
    rcases (by simpa [isTopMark] using hc : c = '*' ∨ c = '^') with rfl | rfl <;> decide

theorem any_isUpper_text : (Pattern.read cntrl pattern).text.any Char.isUpper =
    pattern.any Char.isUpper := by
  refine Eq.trans ?_ any_isUpper_body
  simp only [Pattern.read]
  split
  · rename_i hlast
    rcases List.eq_nil_or_concat (body pattern) with hnil | ⟨s, c, hs⟩
    · rw [hnil]
      rfl
    · have hc : c = '*' ∨ c = '$' := by
        simpa [starred, dollared, hs] using hlast
      rw [hs, List.concat_eq_append, List.dropLast_concat, List.any_append]
      rcases hc with rfl | rfl <;> simp
  · rfl

theorem strip_spaces_length (value : Text) : (strip_spaces value).length ≤ value.length := by
  have hend := (List.dropWhile_suffix (l := (value.dropWhile fun c => c == ' ' || c == '\t').reverse)
    (· == ' ')).length_le
  have hstart := (List.dropWhile_suffix (l := value) fun c => c == ' ' || c == '\t').length_le
  simp only [strip_spaces, List.length_reverse] at *
  omega

/-- The end of a pattern without a text so far. -/
theorem close_body (cntrl : Text) {m : Marks} (h : m.pat1 = []) : m.close (body pattern) =
    ⟨m.negate, m.top, !starred pattern && (dollared pattern || m.btm),
      if starred pattern then none else m.nextch, (Pattern.read cntrl pattern).text⟩ := by
  unfold Marks.close
  by_cases hstar : (body pattern).getLast? = some '*'
  · simp [Pattern.read, starred, dollared, hstar, h]
  · by_cases hdollar : (body pattern).getLast? = some '$'
    · simp [Pattern.read, starred, dollared, hdollar, h]
    · have hs : starred pattern = false := by simpa [starred] using hstar
      have hd : dollared pattern = false := by simpa [dollared] using hdollar
      simp [Pattern.read, hs, hd, hstar, hdollar, h]

/-- The next character that `strmatch1` asks for. A `$` of `cntrl` is one, too. -/
def nextchOf (cntrl pattern : Text) : Option Char :=
  if starred pattern then none else cntrl.getLast?.filter (· != '^')

def marksOf (cntrl pattern : Text) : Marks where
  negate := negated pattern
  top := (Pattern.read cntrl pattern).start
  btm := (Pattern.read cntrl pattern).ends
  nextch := nextchOf cntrl pattern
  pat1 := (Pattern.read cntrl pattern).text

theorem scanMarks_read (h : pattern.length < 255) :
    scanMarks true ⟨false, (anchors cntrl).l_top, (anchors cntrl).l_bottom,
      (anchors cntrl).l_nextch, []⟩ (strip_spaces pattern) = marksOf cntrl pattern := by
  have hlen := strip_spaces_length pattern
  have hstart : (Pattern.read cntrl pattern).start =
      topOf ((positive pattern).takeWhile isTopMark) (anchors cntrl).l_top := by
    simp only [Pattern.read, topOf, anchors]
    cases ((positive pattern).takeWhile isTopMark).getLast? with
    | none => simp
    | some c => simp
  have hrest : ∀ m : Marks, m.pat1 = [] → m.top = (anchors cntrl).l_top →
      m.btm = (anchors cntrl).l_bottom → m.nextch = (anchors cntrl).l_nextch →
      scanMarks false m (positive pattern) =
        { marksOf cntrl pattern with negate := m.negate } := by
    intro m hnil htop hbtm hnext
    have hle : (positive pattern).length ≤ 255 := by
      unfold positive
      split
      · rw [List.length_tail]
        omega
      · omega
    rw [scanMarks_marks hnil hle, ← body, close_body cntrl (by simpa using hnil), htop]
    simp only [marksOf, nextchOf, hstart, hbtm, hnext]
    simp [Pattern.read, anchors]
  rw [scanMarks_first rfl (by omega)]
  by_cases hneg : (strip_spaces pattern).head? = some '!'
  · have hnegated : negated pattern = true := by simp [negated, hneg]
    have hpositive : positive pattern = (strip_spaces pattern).tail := by simp [positive, hnegated]
    rw [if_pos hneg, ← hpositive, hrest _ rfl rfl rfl rfl, marksOf, hnegated]
  · have hnegated : negated pattern = false := by simp [negated, hneg]
    have hpositive : positive pattern = strip_spaces pattern := by simp [positive, hnegated]
    rw [if_neg hneg, ← hpositive, hrest _ rfl rfl rfl rfl, marksOf, hnegated]

/-- The test of `strmatch1`: the first occurrence, and the target behind the length of the text. -/
def Takes (cntrl target pattern : Text) : Prop :=
  (∃ k, (Pattern.read cntrl pattern).Occurs target k ∧
    (∀ j, (Pattern.read cntrl pattern).Occurs target j → k ≤ j) ∧
    ((Pattern.read cntrl pattern).start = true → k = 0)) ∧
  ((Pattern.read cntrl pattern).ends = true →
    target.length ≤ (Pattern.read cntrl pattern).text.length) ∧
  ∀ c ∈ nextchOf cntrl pattern, target[(Pattern.read cntrl pattern).text.length]? = some c

theorem strmatch1_read (h : pattern.length < 255) (now : Int) :
    strmatch1 (anchors cntrl) target now pattern =
      if ((find (Pattern.read cntrl pattern).cased (Pattern.read cntrl pattern).text target).filter
        ((marksOf cntrl pattern).keeps target)).isSome then polarity pattern else now := by
  have hcased : ((anchors cntrl).l_seecase || (marksOf cntrl pattern).pat1.any Char.isUpper) =
      (Pattern.read cntrl pattern).cased := by
    rw [marksOf, any_isUpper_text]
    simp [anchors, Pattern.read]
  have hmarks := @scanMarks_read cntrl pattern h
  have hnegate : (anchors cntrl).l_negate = false := rfl
  unfold strmatch1
  simp only [hnegate, hmarks, hcased]
  rfl

theorem keeps_iff (k : Nat) : (marksOf cntrl pattern).keeps target k = true ↔
    ((Pattern.read cntrl pattern).start = true → k = 0) ∧
    ((Pattern.read cntrl pattern).ends = true →
      target.length ≤ (Pattern.read cntrl pattern).text.length) ∧
    ∀ c ∈ nextchOf cntrl pattern, target[(Pattern.read cntrl pattern).text.length]? = some c := by
  unfold Marks.keeps marksOf
  dsimp only
  rw [Bool.and_eq_true, Bool.and_eq_true, and_assoc]
  refine and_congr ?_ (and_congr ?_ ?_)
  · cases (Pattern.read cntrl pattern).start <;> simp
  · cases (Pattern.read cntrl pattern).ends <;> simp
  · cases nextchOf cntrl pattern <;> simp

theorem takes_iff : Takes cntrl target pattern ↔
    ((find (Pattern.read cntrl pattern).cased (Pattern.read cntrl pattern).text target).filter
      ((marksOf cntrl pattern).keeps target)).isSome = true := by
  constructor
  · rintro ⟨⟨k, hk, hfirst, hstart⟩, hends, hnext⟩
    cases hfind : find (Pattern.read cntrl pattern).cased (Pattern.read cntrl pattern).text target with
    | none => exact absurd hk (find_none hfind)
    | some j =>
      obtain ⟨hj, hleast⟩ := find_some hfind
      have hjk : j = k := by
        have h1 := hleast k hk
        have h2 := hfirst j hj
        omega
      have hkeeps := (keeps_iff k).mpr ⟨hstart, hends, hnext⟩
      simp [hjk, Option.filter, hkeeps]
  · intro hsome
    obtain ⟨k, hk⟩ := Option.isSome_iff_exists.mp hsome
    obtain ⟨hfind, hkeeps⟩ := Option.filter_eq_some_iff.mp hk
    obtain ⟨hstart, hends, hnext⟩ := (keeps_iff k).mp hkeeps
    obtain ⟨hoccurs, hfirst⟩ := find_some hfind
    exact ⟨⟨k, hoccurs, hfirst, hstart⟩, hends, hnext⟩

theorem strmatch1_takes (h : pattern.length < 255) (htakes : Takes cntrl target pattern) (now : Int) :
    strmatch1 (anchors cntrl) target now pattern = polarity pattern := by
  rw [strmatch1_read h, if_pos (takes_iff.mp htakes)]

theorem strmatch1_passes (h : pattern.length < 255) (hpass : ¬ Takes cntrl target pattern)
    (now : Int) : strmatch1 (anchors cntrl) target now pattern = now := by
  rw [strmatch1_read h, if_neg (mt takes_iff.mpr hpass)]

/-! ## When a pattern is read right -/

theorem nextchOf_eq (h : cntrl.getLast? = some '$' → starred pattern = true) :
    nextchOf cntrl pattern = (Pattern.read cntrl pattern).next := by
  simp only [nextchOf, Pattern.read]
  by_cases hstar : starred pattern = true
  · simp [hstar]
  · rw [if_neg hstar, if_neg hstar]
    cases hlast : cntrl.getLast? with
    | none => rfl
    | some c =>
      have hc : c ≠ '$' := by
        rintro rfl
        exact hstar (h hlast)
      simp [Option.filter, hc]

/-- With a `$` of `cntrl`, nothing is taken. -/
theorem not_takes_dollar (h : cntrl.getLast? = some '$') (hstar : starred pattern = false) :
    ¬ Takes cntrl target pattern := by
  rintro ⟨-, hends, hnext⟩
  have hle := hends (by simp [Pattern.read, hstar, h])
  have hat := hnext '$' (by simp [nextchOf, hstar, h])
  rw [List.getElem?_eq_none hle] at hat
  cases hat

theorem exists_first {p : Pattern} (h : ∃ k, p.Occurs target k) :
    ∃ k, p.Occurs target k ∧ ∀ j, p.Occurs target j → k ≤ j := by
  classical
  exact ⟨Nat.find h, Nat.find_spec h, fun j hj => Nat.find_min' h hj⟩

/-- What is taken where the next character is not the `$` of `cntrl`. -/
theorem takes_start (hstart : (Pattern.read cntrl pattern).start = true)
    (hnext : nextchOf cntrl pattern = (Pattern.read cntrl pattern).next) :
    Takes cntrl target pattern ↔ (Pattern.read cntrl pattern).Matches target := by
  constructor
  · rintro ⟨⟨k, hk, -, hzero⟩, hends, hchar⟩
    obtain rfl := hzero hstart
    have hle := hk.le
    refine ⟨0, hk, fun _ => rfl, fun h => ?_, fun c hc => ?_⟩
    · have hge := hends h
      omega
    · rw [Nat.zero_add]
      exact hchar c (hnext ▸ hc)
  · rintro ⟨k, hk, hzero, hends, hchar⟩
    obtain rfl := hzero hstart
    refine ⟨⟨0, hk, fun j _ => Nat.zero_le j, fun _ => rfl⟩, fun h => ?_, fun c hc => ?_⟩
    · have hlen := hends h
      omega
    · have hat := hchar c (hnext ▸ hc)
      rwa [Nat.zero_add] at hat

theorem takes_anywhere (hstart : (Pattern.read cntrl pattern).start = false)
    (hnext : nextchOf cntrl pattern = (Pattern.read cntrl pattern).next) :
    Takes cntrl target pattern ↔ (∃ k, (Pattern.read cntrl pattern).Occurs target k) ∧
      ((Pattern.read cntrl pattern).ends = true →
        target.length ≤ (Pattern.read cntrl pattern).text.length) ∧
      ∀ c ∈ (Pattern.read cntrl pattern).next,
        target[(Pattern.read cntrl pattern).text.length]? = some c := by
  unfold Takes
  rw [hnext]
  refine and_congr ⟨?_, ?_⟩ Iff.rfl
  · rintro ⟨k, hk, -⟩
    exact ⟨k, hk⟩
  · intro h
    obtain ⟨k, hk, hfirst⟩ := exists_first h
    exact ⟨k, hk, hfirst, fun habs => by simp [hstart] at habs⟩

/-- The end of the target, looked for behind the length of the text. -/
theorem ends_iff (hstart : (Pattern.read cntrl pattern).start = false)
    (hends : (Pattern.read cntrl pattern).ends = true)
    (hnone : (Pattern.read cntrl pattern).next = none)
    (hnext : nextchOf cntrl pattern = (Pattern.read cntrl pattern).next) :
    (Takes cntrl target pattern ↔ (Pattern.read cntrl pattern).Matches target) ↔
      ∀ k, (Pattern.read cntrl pattern).Occurs target k →
        k + (Pattern.read cntrl pattern).text.length = target.length → k = 0 := by
  rw [takes_anywhere hstart hnext]
  constructor
  · intro h k hk hlen
    have hle := (h.mpr ⟨k, hk, by simp [hstart], fun _ => hlen, by simp [hnone]⟩).2.1 hends
    omega
  · intro h
    constructor
    · rintro ⟨⟨k, hk⟩, hle, -⟩
      have hfit := hk.le
      have hge := hle hends
      exact ⟨k, hk, by simp [hstart], fun _ => by omega, by simp [hnone]⟩
    · rintro ⟨k, hk, -, hlen, -⟩
      have hzero := h k hk (hlen hends)
      have heq := hlen hends
      exact ⟨⟨k, hk⟩, fun _ => by omega, by simp [hnone]⟩

/-- The next character, looked for behind the length of the text. -/
theorem next_iff (hstart : (Pattern.read cntrl pattern).start = false)
    (hends : (Pattern.read cntrl pattern).ends = false)
    (hnext : nextchOf cntrl pattern = (Pattern.read cntrl pattern).next) :
    (Takes cntrl target pattern ↔ (Pattern.read cntrl pattern).Matches target) ↔
      ∀ c ∈ (Pattern.read cntrl pattern).next,
        ((target[(Pattern.read cntrl pattern).text.length]? = some c ∧
          ∃ k, (Pattern.read cntrl pattern).Occurs target k) ↔
        ∃ k, (Pattern.read cntrl pattern).Occurs target k ∧
          target[k + (Pattern.read cntrl pattern).text.length]? = some c) := by
  rw [takes_anywhere hstart hnext]
  unfold Pattern.Matches Pattern.Anchored
  cases (Pattern.read cntrl pattern).next with
  | none => simp [hstart, hends]
  | some c => simp [hstart, hends, and_comm]

/-- A pattern is taken just where it matches, if and only if its anchors are looked for at the right
place. -/
theorem sound_iff : (Takes cntrl target pattern ↔ (Pattern.read cntrl pattern).Matches target) ↔
    Sound cntrl target pattern := by
  by_cases hdollar : cntrl.getLast? = some '$' ∧ starred pattern = false
  · obtain ⟨hlast, hstar⟩ := hdollar
    have hnot := @not_takes_dollar cntrl target pattern hlast hstar
    have hends : (Pattern.read cntrl pattern).ends = true := by
      simp [Pattern.read, hstar, hlast]
    have hnone : (Pattern.read cntrl pattern).next = none := by
      simp [Pattern.read, hstar, hlast]
    rw [iff_false_left hnot]
    constructor
    · intro hmatch
      have hat : ∀ k, (Pattern.read cntrl pattern).Occurs target k →
          ((Pattern.read cntrl pattern).start = true → k = 0) →
          k + (Pattern.read cntrl pattern).text.length ≠ target.length := by
        intro k hk hzero hlen
        exact hmatch ⟨k, hk, hzero, fun _ => hlen, by simp [hnone]⟩
      refine ⟨fun _ _ => hat, fun hstart _ _ k hk hlen => ?_, fun _ hno => ?_⟩
      · exact absurd hlen (hat k hk (by simp [hstart]))
      · simp [hends] at hno
    · rintro hsound ⟨k, hk, hzero, hlen, -⟩
      exact hsound.dollar hlast hstar k hk hzero (hlen hends)
  · have hnext := @nextchOf_eq cntrl pattern fun hlast => by
      by_contra hstar
      exact hdollar ⟨hlast, by simpa using hstar⟩
    have hfirst : cntrl.getLast? = some '$' → starred pattern = false →
        ∀ k, (Pattern.read cntrl pattern).Occurs target k →
          ((Pattern.read cntrl pattern).start = true → k = 0) →
          k + (Pattern.read cntrl pattern).text.length ≠ target.length :=
      fun hlast hstar => absurd ⟨hlast, hstar⟩ hdollar
    cases hstart : (Pattern.read cntrl pattern).start with
    | true =>
      refine iff_of_true (takes_start hstart hnext) ⟨hfirst, fun h => ?_, fun h => ?_⟩
      · simp [hstart] at h
      · simp [hstart] at h
    | false =>
      cases hends : (Pattern.read cntrl pattern).ends with
      | false =>
        rw [next_iff hstart hends hnext]
        refine ⟨fun h => ⟨hfirst, fun _ habs => ?_, fun _ _ => h⟩, fun h => h.next hstart hends⟩
        simp [hends] at habs
      | true =>
        cases hnone : (Pattern.read cntrl pattern).next with
        | none =>
          rw [ends_iff hstart hends hnone hnext]
          refine ⟨fun h => ⟨hfirst, fun _ _ _ => h, fun _ habs => ?_⟩,
            fun h => h.ends hstart hends hnone⟩
          simp [hends] at habs
        | some c =>
          -- Nothing stands both at the end and before a character.
          refine iff_of_true (iff_of_false ?_ ?_) ⟨hfirst, fun _ _ habs => ?_, fun _ habs => ?_⟩
          · rw [takes_anywhere hstart hnext]
            rintro ⟨-, hle, hchar⟩
            have hat := hchar c hnone
            rw [List.getElem?_eq_none (hle hends)] at hat
            cases hat
          · rintro ⟨k, -, -, hlen, hchar⟩
            have hat := hchar c hnone
            rw [List.getElem?_eq_none (hlen hends).ge] at hat
            cases hat
          · simp [hnone] at habs
          · simp [hends] at habs

end

/-! ## The answer of a list -/

section
variable {cntrl target : Text} {otherwise : Int} {ps : List Text} {p : Text} {answer : Int}

@[simp] theorem says_nil : Says cntrl target otherwise [] answer ↔ answer = otherwise := by
  simp [Says]

/-- One more pattern gives the answer if it matches. -/
theorem says_snoc : Says cntrl target otherwise (ps ++ [p]) answer ↔
    ((Pattern.read cntrl p).Matches target ∧ answer = polarity p) ∨
      (¬ (Pattern.read cntrl p).Matches target ∧ Says cntrl target otherwise ps answer) := by
  unfold Says
  constructor
  · rintro (⟨a, q, b, heq, hq, hb, hans⟩ | ⟨hnone, hans⟩)
    · rcases List.eq_nil_or_concat b with rfl | ⟨b, c, rfl⟩
      · obtain ⟨rfl, hcons⟩ := List.append_inj' heq rfl
        obtain rfl := List.singleton_inj.mp hcons
        exact .inl ⟨hq, hans⟩
      · rw [List.concat_eq_append, ← List.cons_append, ← List.append_assoc] at heq
        obtain ⟨rfl, hcons⟩ := List.append_inj' heq rfl
        obtain rfl := List.singleton_inj.mp hcons
        exact .inr ⟨hb p (by simp), .inl ⟨a, q, b, rfl, hq, fun c hc => hb c (by simp [hc]), hans⟩⟩
    · exact .inr ⟨hnone p (by simp), .inr ⟨fun q hq => hnone q (by simp [hq]), hans⟩⟩
  · rintro (⟨hp, hans⟩ | ⟨hp, ⟨a, q, b, rfl, hq, hb, hans⟩ | ⟨hnone, hans⟩⟩)
    · exact .inl ⟨ps, p, [], rfl, hp, by simp, hans⟩
    · refine .inl ⟨a, q, b ++ [p], by simp, hq, fun c hc => ?_, hans⟩
      rcases List.mem_append.mp hc with hc | hc
      · exact hb c hc
      · rwa [List.mem_singleton.mp hc]
    · refine .inr ⟨fun q hq => ?_, hans⟩
      rcases List.mem_append.mp hq with hq | hq
      · exact hnone q hq
      · rwa [List.mem_singleton.mp hq]

/-- A list has one answer, 0 or 1. -/
theorem says_one (h : otherwise = 0 ∨ otherwise = 1) (ps : List Text) :
    ∃ v, (v = 0 ∨ v = 1) ∧ ∀ answer, Says cntrl target otherwise ps answer ↔ answer = v := by
  induction ps using List.reverseRecOn with
  | nil => exact ⟨otherwise, h, fun _ => says_nil⟩
  | append_singleton ps p ih =>
    obtain ⟨v, hv, hsays⟩ := ih
    by_cases hp : (Pattern.read cntrl p).Matches target
    · refine ⟨polarity p, ?_, fun answer => ?_⟩
      · unfold polarity
        split <;> simp
      · simp [says_snoc, hp]
    · refine ⟨v, hv, fun answer => ?_⟩
      simp [says_snoc, hp, hsays]

end

/-- The patterns that are read wrong leave the answer of a list, which is given from its end. One
that is taken without a match gives what is the answer before it, and where one that matches is not
taken, either it gives what is the answer before it and that is left, or neither is so. -/
def Settled (cntrl target : Text) (otherwise : Int) : List Text → Prop
  | [] => True
  | p :: before =>
    (Sound cntrl target p ∧
      ((Pattern.read cntrl p).Matches target ∨ Settled cntrl target otherwise before)) ∨
    (¬ Sound cntrl target p ∧ ¬ (Pattern.read cntrl p).Matches target ∧
      Says cntrl target otherwise before.reverse (polarity p)) ∨
    (¬ Sound cntrl target p ∧ (Pattern.read cntrl p).Matches target ∧
      (Says cntrl target otherwise before.reverse (polarity p) ↔
        Settled cntrl target otherwise before))

section
variable {cntrl target list p : Text} {otherwise : Int}

/-- There is nothing to look for behind the text. -/
theorem sound_of_open (hends : (Pattern.read cntrl p).ends = false)
    (hnext : (Pattern.read cntrl p).next = none) : Sound cntrl target p := by
  refine ⟨fun hlast hstar => ?_, fun _ habs => ?_, fun _ _ => ?_⟩
  · simp [Pattern.read, hlast, hstar] at hends
  · simp [hends] at habs
  · simp [hnext]

theorem settled_of_sound {ps : List Text} (h : ∀ p ∈ ps, Sound cntrl target p) :
    Settled cntrl target otherwise ps := by
  induction ps with
  | nil => exact trivial
  | cons p ps ih => exact .inl ⟨h p (by simp), .inr (ih fun q hq => h q (by simp [hq]))⟩

/-- A pattern more keeps that what is set is the answer just where the list is settled. -/
theorem settled_snoc {ps : List Text} {now next : Int}
    (hother : otherwise = 0 ∨ otherwise = 1) (hnow : now = 0 ∨ now = 1)
    (htakes : Takes cntrl target p → next = polarity p)
    (hpass : ¬ Takes cntrl target p → next = now)
    (ih : Says cntrl target otherwise ps now ↔ Settled cntrl target otherwise ps.reverse) :
    Says cntrl target otherwise (ps ++ [p]) next ↔
      Settled cntrl target otherwise (ps ++ [p]).reverse := by
  obtain ⟨v, hv, hsays⟩ := @says_one cntrl target _ hother ps
  have hpol : polarity p = 0 ∨ polarity p = 1 := by
    unfold polarity
    split <;> simp
  have hsound := @sound_iff cntrl target p
  rw [List.reverse_append, List.reverse_singleton, List.singleton_append, Settled, List.reverse_reverse,
    says_snoc, ← ih, ← hsound, hsays, hsays, hsays]
  by_cases hmatch : (Pattern.read cntrl p).Matches target <;>
    by_cases htake : Takes cntrl target p
  · simp [hmatch, htake, htakes htake]
  · simp [hmatch, htake, hpass htake]
    omega
  · simp [hmatch, htake, htakes htake]
  · simp [hmatch, htake, hpass htake]

theorem strmatch1_bit (h : p.length < 255) {now : Int} (hnow : now = 0 ∨ now = 1) :
    strmatch1 (anchors cntrl) target now p = 0 ∨ strmatch1 (anchors cntrl) target now p = 1 := by
  by_cases htakes : Takes cntrl target p
  · rw [strmatch1_takes h htakes, polarity]
    split <;> simp
  · rwa [strmatch1_passes h htakes]

/-- The run over the patterns of a list. -/
theorem strmatch_run (hother : otherwise = 0 ∨ otherwise = 1) {ps : List Text}
    (hshort : ∀ p ∈ ps, p.length < 255) :
    (ps.foldl (strmatch1 (anchors cntrl) target) otherwise = 0 ∨
      ps.foldl (strmatch1 (anchors cntrl) target) otherwise = 1) ∧
    (Says cntrl target otherwise ps (ps.foldl (strmatch1 (anchors cntrl) target) otherwise) ↔
      Settled cntrl target otherwise ps.reverse) := by
  induction ps using List.reverseRecOn with
  | nil => simp [Settled, hother]
  | append_singleton ps p ih =>
    obtain ⟨hnow, hsays⟩ := ih fun q hq => hshort q (by simp [hq])
    have hp := hshort p (by simp)
    rw [List.foldl_append, List.foldl_cons, List.foldl_nil]
    exact ⟨strmatch1_bit hp hnow, settled_snoc hother hnow
      (fun h => strmatch1_takes hp h _) (fun h => strmatch1_passes hp h _) hsays⟩

theorem strmatch_list_run (hplain : delegate.list.PlainList list) : strmatch_list target list cntrl =
    (delegate.list.pieces delegate.list.comma list).foldl (strmatch1 (anchors cntrl) target)
      (if list.head? = some '!' then 1 else 0) := by
  unfold strmatch_list delegate.list.scan_ListX
  rw [delegate.list.listLoop_state (fun _ _ _ => rfl), delegate.list.elems_plain hplain]

/-- The answer of `strmatch_list` is that of the language just where the patterns that are read wrong
leave it. -/
theorem strmatch_list_says_iff (hplain : delegate.list.PlainList list)
    (hshort : ∀ p ∈ delegate.list.pieces delegate.list.comma list, p.length < 255) :
    Says cntrl target (if list.head? = some '!' then 1 else 0)
        (delegate.list.pieces delegate.list.comma list) (strmatch_list target list cntrl) ↔
      Settled cntrl target (if list.head? = some '!' then 1 else 0)
        (delegate.list.pieces delegate.list.comma list).reverse := by
  rw [strmatch_list_run hplain]
  refine (strmatch_run ?_ hshort).2
  split <;> simp

/-- `cab` and `a,!^a`: the second pattern does not match. -/
theorem strmatch_list_says_iff_cab : Says [] ['c', 'a', 'b'] 0 [['a'], ['!', '^', 'a']]
    (strmatch_list ['c', 'a', 'b'] ['a', ',', '!', '^', 'a'] []) := by
  have hplain : delegate.list.PlainList ['a', ',', '!', '^', 'a'] := by
    simp [delegate.list.PlainList]
  refine (strmatch_list_says_iff hplain (by decide)).mpr (settled_of_sound ?_)
  intro p hp
  have hmem : p ∈ [['!', '^', 'a'], ['a']] := hp
  rcases (by simpa using hmem : p = ['!', '^', 'a'] ∨ p = ['a']) with rfl | rfl
  · exact sound_of_open (by decide) (by decide)
  · exact sound_of_open (by decide) (by decide)

/-- `ab` ends with the text of `b$`, which is looked for at the start. -/
theorem strmatch_list_misreads : delegate.list.PlainList ['b', '$'] ∧
    (∀ p ∈ delegate.list.pieces delegate.list.comma ['b', '$'], p.length < 255) ∧
    ¬ Says [] ['a', 'b'] (if ['b', '$'].head? = some '!' then 1 else 0)
      (delegate.list.pieces delegate.list.comma ['b', '$'])
      (strmatch_list ['a', 'b'] ['b', '$'] []) := by
  have hplain : delegate.list.PlainList ['b', '$'] := by simp [delegate.list.PlainList]
  refine ⟨hplain, by decide, ?_⟩
  rw [strmatch_list_run hplain]
  have hmatch : (Pattern.read [] ['b', '$']).Matches ['a', 'b'] :=
    ⟨1, ⟨by decide, by decide⟩, by decide, fun _ => rfl, by simp [Pattern.read]⟩
  have hanswer : [['b', '$']].foldl (strmatch1 (anchors []) ['a', 'b']) 0 = 0 := by
    decide
  intro hsays
  have hzero : Says [] ['a', 'b'] 0 ([] ++ [['b', '$']]) 0 := hanswer ▸ hsays
  rcases says_snoc.mp hzero with ⟨-, habs⟩ | ⟨hno, -⟩
  · exact absurd habs (by decide)
  · exact hno hmatch

end

end delegate.strmatch
