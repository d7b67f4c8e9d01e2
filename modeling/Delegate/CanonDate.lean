-- `canon_date` of Strftime.cpp, which makes the year of a date one of four digits. It
-- skips the blanks at the start of the date, and the scanner of dates does not. So the
-- two can find different dates in one text.
import Delegate.ScanLocal

open calendar ctext delegate.string

namespace delegate.strftime

/-- The formats that `canon_date` tries. -/
def canonFormats : List Text := [TIMEFORM_RFC822, TIMEFORM_RFC850, TIMEFORM_ANSI_C, TIMEFORM_USENET]

/-- The text after the first format that gives a time. -/
def canonFirst (off : Int) (sp : Text) : List Text → Option Text
  | [] => some sp
  | fmt :: fmts => do
    let (clock, sp) ← scanftimeX off sp fmt true
    if 0 ≤ clock then return sp else canonFirst off sp fmts

def canon_date (off : Int) (stime : Text) : Option Text :=
  (canonFirst off (stime.dropWhile blank) canonFormats).map (stime.takeWhile blank ++ ·)

/-! ## What is kept of a date -/

/-- The format reads all fields of the text. -/
def Complete (fmt stime : Text) : Prop := (scanned fmt stime).tm ≠ none

instance (fmt stime : Text) : Decidable (Complete fmt stime) := inferInstanceAs (Decidable (_ ≠ _))

/-- The text from the short year on, if the format finds one. -/
def shortYear (fmt stime : Text) : Option Text := (Scanning.along fmt (.start stime)).yyp

/-- The date is the same after the year is made canonical: there is room for the year, the scanner
finds the same time, a second turn changes nothing, and neither does the first but for the number
that was read as the year. -/
structure Preserved (off : Int) (d d' : Text) : Prop where
  room : d'.length ≤ d.length + 2
  time : scanNNTPtime off d' = scanNNTPtime off d
  again : canon_date off d' = some d'
  rest : d' = d ∨ ∃ fmt ∈ canonFormats, ∃ y year lead,
    shortYear fmt (d.dropWhile blank) = some y ∧ (∀ c ∈ year, c.isDigit = true) ∧
      d = lead ++ y ∧ d' = lead ++ (year ++ y.dropWhile Char.isDigit)

/-- A short year that can be made canonical: it has two digits or more. If the date is one of news,
it does not begin with blanks and a month. If it does not begin with a blank, it is not before 1970,
or its year is none of the first 31. -/
def PlainYear (off : Int) (d : Text) : Prop :=
  ∀ fmt ∈ canonFormats, Complete fmt (d.dropWhile blank) →
    ∀ y ∈ shortYear fmt (d.dropWhile blank),
      2 ≤ (y.takeWhile Char.isDigit).length ∧
        (fmt = TIMEFORM_USENET →
          if d.head?.any blank then (d.dropWhile blank).head?.any Char.isDigit
          else (∃ t ∈ scanftime off d fmt, 0 ≤ t) ∨ ¬ (1 ≤ (scanint y).1 ∧ (scanint y).1 ≤ 31))

/-! ## The steps of a format -/

theorem head_of_montoi {s : Text} (h : 0 ≤ montoi (awordscan s).1) :
    ∃ c r, s = c :: r ∧ c.isAlpha = true := by
  cases s with
  | nil =>
    change 0 ≤ montoi [] at h
    rw [montoi_nil] at h
    omega
  | cons c r =>
    cases hc : c.isAlpha with
    | true => exact ⟨c, r, rfl, hc⟩
    | false =>
      rw [awordscan_of_not_alpha hc, montoi_nil] at h
      omega

theorem complete_fields {fmt T : Text} (hP : 'P' ∉ codes fmt) (h : Complete fmt T) :
    0 ≤ (scanned fmt T).mon ∧ 0 ≤ (scanned fmt T).min := by
  have hwhole : (scanned fmt T).isPartial = false :=
    @Scanning.along_inv (fun f => f.isPartial = false) fmt
      (fun c hc _ _ hd hpart =>
        ((Scanning.directive_keeps hd).2.2.2.2.2 fun he => hP (he ▸ hc)).trans hpart)
      (.start T) rfl
  unfold Complete Fields.tm at h
  rw [hwhole, if_neg (by simp)] at h
  by_contra hneg
  apply h
  rw [if_pos (by omega)]

/-- The scan of a format that begins with a word, a comma and the day. -/
theorem along_comma {c : Char} (hc : c = 'a' ∨ c = 'A') (fp T : Text) :
    (∃ r mday, (awordscan T).2 = ',' :: r ∧
      Scanning.along ('%' :: c :: ',' :: ' ' :: '%' :: 'd' :: fp) (.start T) =
        Scanning.along fp ⟨{ Fields.start with mday := mday }, (scanint (r.dropWhile blank)).2,
          none⟩) ∨
    (scanned ('%' :: c :: ',' :: ' ' :: '%' :: 'd' :: fp) T).mon = -1 := by
  have hstep : (Scanning.start T).directive c = some ⟨.start, (awordscan T).2, none⟩ := by
    rcases hc with rfl | rfl <;> rfl
  unfold scanned
  rw [Scanning.along_step hstep]
  by_cases hcomma : (awordscan T).2.head? = some ','
  · obtain ⟨r, hr⟩ : ∃ r, (awordscan T).2 = ',' :: r := by
      cases hsp : (awordscan T).2 with
      | nil =>
        rw [hsp] at hcomma
        cases hcomma
      | cons d r =>
        rw [hsp, List.head?_cons, Option.some.injEq] at hcomma
        exact ⟨r, by rw [hcomma]⟩
    left
    refine ⟨r, (scanint (r.dropWhile blank)).1, hr, ?_⟩
    rw [Scanning.along_match (by decide) (by decide) _ hr, Scanning.along_blank (by decide),
      Scanning.along_step rfl]
  · right
    exact congrArg (fun st => st.mon) (@Scanning.along_stop ',' (by decide) (by decide)
      (' ' :: '%' :: 'd' :: fp) ⟨.start, (awordscan T).2, none⟩ hcomma)

theorem complete_RFC822 {T : Text} (h : Complete TIMEFORM_RFC822 T) :
    ∃ r mday, (awordscan T).2 = ',' :: r ∧
      0 ≤ montoi (awordscan ((scanint (r.dropWhile blank)).2.dropWhile blank)).1 ∧
      Scanning.along TIMEFORM_RFC822 (.start T) =
        Scanning.along (TIMEFORM_RFC822.drop 6) ⟨{ Fields.start with mday := mday },
          (scanint (r.dropWhile blank)).2, none⟩ := by
  have hmon := (complete_fields (by decide) h).1
  rcases along_comma (.inl rfl) (TIMEFORM_RFC822.drop 6) T with ⟨r, mday, hr, halong⟩ | hneg
  · refine ⟨r, mday, hr, ?_, halong⟩
    unfold scanned at hmon
    rw [show TIMEFORM_RFC822 = '%' :: 'a' :: ',' :: ' ' :: '%' :: 'd' :: TIMEFORM_RFC822.drop 6 from
      rfl, halong] at hmon
    change 0 ≤ (Scanning.along (' ' :: '%' :: 'b' :: TIMEFORM_RFC822.drop 9) _).mon at hmon
    rw [Scanning.along_blank (by decide), Scanning.along_step rfl,
      Scanning.along_mon (by simp [RFC822_eq, codes])] at hmon
    exact hmon
  · rw [show '%' :: 'a' :: ',' :: ' ' :: '%' :: 'd' :: TIMEFORM_RFC822.drop 6 = TIMEFORM_RFC822 from
      rfl] at hneg
    omega

theorem complete_RFC850 {T : Text} (h : Complete TIMEFORM_RFC850 T) :
    ∃ r mday, (awordscan T).2 = ',' :: r ∧ (scanint (r.dropWhile blank)).2.head? = some '-' ∧
      Scanning.along TIMEFORM_RFC850 (.start T) =
        Scanning.along (TIMEFORM_RFC850.drop 6) ⟨{ Fields.start with mday := mday },
          (scanint (r.dropWhile blank)).2, none⟩ := by
  have hmon := (complete_fields (by decide) h).1
  rcases along_comma (.inr rfl) (TIMEFORM_RFC850.drop 6) T with ⟨r, mday, hr, halong⟩ | hneg
  · refine ⟨r, mday, hr, ?_, halong⟩
    by_contra hdash
    unfold scanned at hmon
    rw [show TIMEFORM_RFC850 = '%' :: 'A' :: ',' :: ' ' :: '%' :: 'd' :: TIMEFORM_RFC850.drop 6 from
      rfl, halong] at hmon
    change 0 ≤ (Scanning.along ('-' :: TIMEFORM_RFC850.drop 7) _).mon at hmon
    rw [Scanning.along_stop (by decide) (by decide) _ hdash] at hmon
    simp [Fields.start] at hmon
  · rw [show '%' :: 'A' :: ',' :: ' ' :: '%' :: 'd' :: TIMEFORM_RFC850.drop 6 = TIMEFORM_RFC850 from
      rfl] at hneg
    omega

theorem complete_ANSI_C {T : Text} (h : Complete TIMEFORM_ANSI_C T) :
    0 ≤ montoi (awordscan ((awordscan T).2.dropWhile blank)).1 ∧
      Scanning.along TIMEFORM_ANSI_C (.start T) =
        Scanning.along (TIMEFORM_ANSI_C.drop 3) ⟨.start, (awordscan T).2.dropWhile blank, none⟩ := by
  have hmon := (complete_fields (by decide) h).1
  have halong : Scanning.along TIMEFORM_ANSI_C (.start T) =
      Scanning.along (TIMEFORM_ANSI_C.drop 3) ⟨.start, (awordscan T).2.dropWhile blank, none⟩ := by
    rw [ANSI_C_eq, Scanning.along_step rfl, Scanning.along_blank (by decide)]
    rfl
  refine ⟨?_, halong⟩
  unfold scanned at hmon
  rw [halong] at hmon
  change 0 ≤ (Scanning.along ('%' :: 'b' :: TIMEFORM_ANSI_C.drop 5) _).mon at hmon
  rw [Scanning.along_step rfl, Scanning.along_mon (by simp [ANSI_C_eq, codes])] at hmon
  exact hmon

/-- The text from the month on, and from the year on, in a date of news. -/
def newsMonth (T : Text) : Text := (scanint T).2.dropWhile blank

def newsYear (T : Text) : Text := (awordscan (newsMonth T)).2.dropWhile blank

theorem along_USENET (T : Text) : ∃ mday mon, Scanning.along TIMEFORM_USENET (.start T) =
    Scanning.along (TIMEFORM_USENET.drop 6) ⟨{ Fields.start with mday := mday, mon := mon },
      newsYear T, none⟩ := by
  rw [USENET_eq, Scanning.along_step rfl, Scanning.along_blank (by decide),
    Scanning.along_step rfl, Scanning.along_blank (by decide)]
  exact ⟨_, _, rfl⟩

theorem complete_USENET {T : Text} (h : Complete TIMEFORM_USENET T) :
    0 ≤ montoi (awordscan (newsMonth T)).1 ∧
      (scanint ((scanint (newsYear T)).2.dropWhile blank)).2.head? = some ':' := by
  obtain ⟨hmon, hmin⟩ := complete_fields (by decide) h
  constructor
  · unfold scanned at hmon
    rw [USENET_eq, Scanning.along_step rfl, Scanning.along_blank (by decide),
      Scanning.along_step rfl, Scanning.along_mon (by simp [codes])] at hmon
    exact hmon
  · by_contra hcolon
    unfold scanned at hmin
    obtain ⟨mday, mon, halong⟩ := along_USENET T
    rw [halong] at hmin
    change 0 ≤ (Scanning.along ('%' :: 'Y' :: ' ' :: '%' :: 'H' :: ':' :: TIMEFORM_USENET.drop 12)
      _).min at hmin
    rw [Scanning.along_step rfl, Scanning.along_blank (by decide), Scanning.along_step rfl,
      Scanning.along_stop (by decide) (by decide) _ hcolon] at hmin
    simp [Fields.start, Scanning.readYear] at hmin

/-! ## One format at most -/

theorem dropWhile_blank_cons {c : Char} (h : blank c = false) (r : Text) :
    (c :: r).dropWhile blank = c :: r := by
  rw [List.dropWhile_cons, h, if_neg (by decide)]

theorem scanint_cons {c : Char} (h : c.isDigit = false) (r : Text) :
    scanint (c :: r) = (0, c :: r) :=
  scanint_of_not_digit (by simpa using h)

theorem blank_of_isAlpha {c : Char} (h : c.isAlpha = true) : blank c = false :=
  blank_of_isAlphanum (by simp [Char.isAlphanum, h])

theorem isDigit_of_isAlpha {c : Char} (h : c.isAlpha = true) : c.isDigit = false := by
  cases hd : c.isDigit with
  | false => rfl
  | true =>
    rw [isAlpha_of_isDigit hd] at h
    cases h

/-- A text without a blank at its start. -/
def Unblank (T : Text) : Prop := ∀ c ∈ T.head?, blank c = false

theorem unblank_dropWhile (d : Text) : Unblank (d.dropWhile blank) := head_dropWhile blank d

/-- A date of news begins with a number or with a month. -/
theorem news_cases {T : Text} (hT : Unblank T) (h : 0 ≤ montoi (awordscan (newsMonth T)).1) :
    (∃ c r, T = c :: r ∧ c.isDigit = true) ∨
      ∃ c r, T = c :: r ∧ c.isAlpha = true ∧ newsMonth T = T := by
  obtain ⟨a, s, hs, ha⟩ := head_of_montoi h
  cases T with
  | nil =>
    cases hs
  | cons c r =>
    cases hc : c.isDigit with
    | true => exact .inl ⟨c, r, rfl, hc⟩
    | false =>
      right
      have hmonth : newsMonth (c :: r) = c :: r := by
        unfold newsMonth
        rw [scanint_cons hc]
        exact dropWhile_blank_cons (hT c rfl) r
      rw [hmonth] at hs
      cases hs
      exact ⟨a, s, rfl, ha, hmonth⟩

theorem not_news_of_comma {T r : Text} (hT : Unblank T) (hr : (awordscan T).2 = ',' :: r) :
    ¬ Complete TIMEFORM_USENET T := by
  intro h
  obtain ⟨hmon, hcolon⟩ := complete_USENET h
  rcases news_cases hT hmon with ⟨c, s, rfl, hc⟩ | ⟨c, s, rfl, hc, hmonth⟩
  · rw [awordscan_of_not_alpha (isAlpha_of_isDigit hc)] at hr
    cases hr
    cases hc
  · unfold newsYear at hcolon
    rw [hmonth, hr, dropWhile_blank_cons (by decide), scanint_cons (by decide),
      dropWhile_blank_cons (by decide), scanint_cons (by decide)] at hcolon
    cases hcolon

theorem not_ANSI_of_comma {T r : Text} (hr : (awordscan T).2 = ',' :: r) :
    ¬ Complete TIMEFORM_ANSI_C T := by
  intro h
  obtain ⟨hmon, -⟩ := complete_ANSI_C h
  rw [hr, dropWhile_blank_cons (by decide), awordscan_of_not_alpha (by decide), montoi_nil] at hmon
  omega

/-- A date of news does not have a second word after its first. -/
theorem not_news_of_ANSI {T : Text} (hT : Unblank T) (h : Complete TIMEFORM_ANSI_C T) :
    ¬ Complete TIMEFORM_USENET T := by
  intro h'
  obtain ⟨hmon, -⟩ := complete_ANSI_C h
  obtain ⟨hmon', hcolon⟩ := complete_USENET h'
  obtain ⟨a, s, hs, ha⟩ := head_of_montoi hmon
  have hblank := blank_of_isAlpha ha
  have hdigit := isDigit_of_isAlpha ha
  rcases news_cases hT hmon' with ⟨c, r, rfl, hc⟩ | ⟨c, r, rfl, hc, hmonth⟩
  · rw [awordscan_of_not_alpha (isAlpha_of_isDigit hc),
      dropWhile_blank_cons (blank_of_isDigit hc)] at hs
    cases hs
    rw [hdigit] at hc
    cases hc
  · unfold newsYear at hcolon
    rw [hmonth, hs, scanint_cons hdigit, dropWhile_blank_cons hblank, scanint_cons hdigit,
      List.head?_cons, Option.some.injEq] at hcolon
    subst hcolon
    cases ha

theorem not_RFC850_of_RFC822 {T : Text} (h : Complete TIMEFORM_RFC822 T) :
    ¬ Complete TIMEFORM_RFC850 T := by
  intro h'
  obtain ⟨r, -, hr, hmon, -⟩ := complete_RFC822 h
  obtain ⟨r', -, hr', hdash, -⟩ := complete_RFC850 h'
  rw [hr] at hr'
  cases hr'
  cases hs : (scanint (r.dropWhile blank)).2 with
  | nil =>
    rw [hs] at hdash
    cases hdash
  | cons c s =>
    rw [hs, List.head?_cons, Option.some.injEq] at hdash
    subst hdash
    rw [hs, dropWhile_blank_cons (by decide), awordscan_of_not_alpha (by decide),
      montoi_nil] at hmon
    omega

/-- A text is read by one of the formats at most. -/
theorem complete_pairwise {T : Text} (hT : Unblank T) :
    canonFormats.Pairwise fun F G => ¬ (Complete F T ∧ Complete G T) := by
  have h822 : Complete TIMEFORM_RFC822 T → ∃ r, (awordscan T).2 = ',' :: r := fun h => by
    obtain ⟨r, -, hr, -⟩ := complete_RFC822 h
    exact ⟨r, hr⟩
  have h850 : Complete TIMEFORM_RFC850 T → ∃ r, (awordscan T).2 = ',' :: r := fun h => by
    obtain ⟨r, -, hr, -⟩ := complete_RFC850 h
    exact ⟨r, hr⟩
  unfold canonFormats
  simp only [List.pairwise_cons, List.mem_cons, List.not_mem_nil, or_false, forall_eq_or_imp,
    forall_eq, false_imp_iff, implies_true, List.Pairwise.nil, and_true]
  refine ⟨⟨?_, ?_, ?_⟩, ⟨?_, ?_⟩, ?_⟩
  · exact fun h => not_RFC850_of_RFC822 h.1 h.2
  · exact fun h => (h822 h.1).elim fun r hr => not_ANSI_of_comma hr h.2
  · exact fun h => (h822 h.1).elim fun r hr => not_news_of_comma hT hr h.2
  · exact fun h => (h850 h.1).elim fun r hr => not_ANSI_of_comma hr h.2
  · exact fun h => (h850 h.1).elim fun r hr => not_news_of_comma hT hr h.2
  · exact fun h => not_news_of_ANSI hT h.1 h.2

/-! ## The canonical year -/

/-- The text from the year on, with a year of four digits. -/
def canonNumber (y : Text) : Text :=
  decInt (1900 + year2internal (scanint y).1) ++ y.dropWhile Char.isDigit

theorem canon_number {y : Text} (hy : Numbered y) : Canon y (canonNumber y) := by
  obtain ⟨n, hn, hle⟩ : ∃ n, (scanint y).1 = n ∧ n ≤ INT_MAX := by
    refine ⟨_, rfl, ?_⟩
    rw [scanint_eq]
    exact Nat.min_le_right _ _
  have hyear : 0 ≤ year2internal n ∧ 1900 + year2internal n ≤ INT_MAX ∧
      year2internal (1900 + year2internal n) = year2internal n := by
    unfold INT_MAX at hle ⊢
    unfold year2internal
    split
    · rename_i h
      rw [if_neg (by omega), if_pos (by omega)]
      omega
    · split
      · rw [if_neg (by omega), if_pos (by omega)]
        omega
      · rw [if_neg (by omega), if_pos (by omega)]
        omega
  obtain ⟨k, hk⟩ := Int.eq_ofNat_of_zero_le (show 0 ≤ 1900 + year2internal n by omega)
  have hkle : k ≤ INT_MAX := by omega
  have hrest := head_dropWhile Char.isDigit y
  have hnumber : canonNumber y = dec k ++ y.dropWhile Char.isDigit := by
    unfold canonNumber
    rw [hn, hk, decInt_of_nonneg (Int.natCast_nonneg k), Int.toNat_natCast]
  have hscan : scanint (canonNumber y) = (k, y.dropWhile Char.isDigit) := by
    rw [hnumber, scanint_dec hkle hrest]
  refine ⟨hy, ?_, ?_, ?_, ?_⟩
  · obtain ⟨c, r, hc⟩ := List.exists_cons_of_ne_nil (dec_ne_nil k)
    exact ⟨c, r ++ y.dropWhile Char.isDigit, by rw [hnumber, hc, List.cons_append],
      isDigit_of_mem_dec (by rw [hc]; exact List.mem_cons_self)⟩
  · rw [hscan, hn, ← hk]
    exact hyear.2.2
  · rw [hscan, scanint_eq]
  · have hatoi : atoi (canonNumber y) = k := by
      unfold INT_MAX at hkle
      rw [hnumber, atoi, strtol_dec_append k _ hrest]
      exact toInt32_of_small (by omega)
    rw [hatoi]
    omega

/-- What a format makes of a text. -/
def edited (fmt T : Text) : Text :=
  if Complete fmt T then (Scanning.along fmt (.start T)).canonYear T else T

theorem edited_of_not_complete {fmt T : Text} (h : ¬ Complete fmt T) : edited fmt T = T :=
  if_neg h

theorem edited_of_no_year {fmt T : Text} (h : shortYear fmt T = none) : edited fmt T = T := by
  unfold shortYear at h
  unfold edited Scanning.canonYear
  rw [h]
  exact ite_self T

theorem Timegm_some {tm : Tm} (hl : 0 ≤ tm.tm_mon) (hh : tm.tm_mon ≤ 11) :
    ∃ clock, Timegm tm = some clock := by
  unfold Timegm
  rw [if_pos ⟨hl, by omega⟩]
  exact ⟨_, rfl⟩

/-- A format with names of months gives a time, which is -1 if a field is missing. -/
theorem scanftimeX_edited (off : Int) {fmt : Text} (hm : 'm' ∉ codes fmt) (T : Text) :
    ∃ clock, scanftime off T fmt = some clock ∧
      scanftimeX off T fmt true = some (clock, edited fmt T) ∧ (¬ Complete fmt T → clock = -1) := by
  have hin := inYear_names hm T
  unfold scanftime scanftimeX
  unfold scanned at hin
  dsimp only
  cases htm : (Scanning.along fmt (.start T)).tm with
  | none =>
    have hnot : ¬ Complete fmt T := not_not.mpr htm
    refine ⟨-1, rfl, ?_, fun _ => rfl⟩
    rw [edited_of_not_complete hnot]
  | some tm =>
    have hc : Complete fmt T := by
      unfold Complete scanned
      rw [htm]
      exact Option.some_ne_none tm
    obtain ⟨hl, hh⟩ := hin tm htm
    obtain ⟨clock, hclock⟩ := Timegm_some hl hh
    have hedit : edited fmt T = (Scanning.along fmt (.start T)).canonYear T := if_pos hc
    dsimp only
    unfold Timelocal
    rw [hclock, hedit]
    cases (Scanning.along fmt (.start T)).localzone with
    | true => exact ⟨_, rfl, rfl, fun h => absurd hc h⟩
    | false => exact ⟨_, rfl, rfl, fun h => absurd hc h⟩

theorem scanftime_congr {off : Int} {fmt T T' : Text} (h : scanned fmt T' = scanned fmt T) :
    scanftime off T' fmt = scanftime off T fmt := by
  rw [scanftime_eq h, scanftime_eq rfl]
  rfl

theorem scanftime_of_not_complete {off : Int} {fmt T : Text} (h : ¬ Complete fmt T) :
    scanftime off T fmt = some (-1) := by
  unfold Complete at h
  rw [scanftime_eq rfl]
  unfold scanned at h
  rw [not_not.mp h]

/-- The formats of `canon_date` have one year, no digits and names of months. -/
theorem canonFormats_plain {fmt : Text} (h : fmt ∈ canonFormats) :
    (∀ c ∈ fmt, c.isDigit = false) ∧ (codes fmt).countP isYear ≤ 1 ∧ 'P' ∉ codes fmt ∧
      'm' ∉ codes fmt := by
  simp only [canonFormats, List.mem_cons, List.not_mem_nil, or_false] at h
  rcases h with rfl | rfl | rfl | rfl
  · rw [RFC822_eq]
    simp [codes, isYear]
  · rw [RFC850_eq]
    simp [codes, isYear]
  · rw [ANSI_C_eq]
    simp [codes, isYear]
  · rw [USENET_eq]
    simp [codes, isYear]

/-- The text with its short year made canonical is read by the same format alike, and its year is
not short any more. -/
theorem edit_alike {fmt T y : Text} (hfmt : fmt ∈ canonFormats) (hc : Complete fmt T)
    (hy : shortYear fmt T = some y) :
    Numbered y ∧ ∃ p, T = p ++ y ∧ edited fmt T = p ++ canonNumber y ∧
      scanned fmt (p ++ canonNumber y) = scanned fmt T ∧
      shortYear fmt (p ++ canonNumber y) = none := by
  obtain ⟨hdigit, hone, hP, -⟩ := canonFormats_plain hfmt
  obtain ⟨hnumber, -, hyear, p, hp, halike⟩ := along_noted hdigit hone hP rfl rfl hy
  have hrun := halike _ (canon_number hnumber) (.start (p ++ canonNumber y)) rfl rfl rfl
  refine ⟨hnumber, p, hp, ?_, ?_, ?_⟩
  · change T = p ++ y at hp
    unfold shortYear at hy
    unfold edited Scanning.canonYear
    rw [if_pos hc, hy]
    dsimp only
    rw [hyear, hp, List.length_append, Nat.add_sub_cancel, List.take_left, List.append_assoc]
    rfl
  · unfold scanned
    rw [hrun]
  · unfold shortYear
    rw [hrun]

/-! ## The formats one after the other -/

theorem canonFirst_cons (off : Int) {fmt : Text} (hm : 'm' ∉ codes fmt) (T : Text)
    (fmts : List Text) : ∃ clock, scanftime off T fmt = some clock ∧
      canonFirst off T (fmt :: fmts) =
        if 0 ≤ clock then some (edited fmt T) else canonFirst off (edited fmt T) fmts := by
  obtain ⟨clock, htime, htext, -⟩ := scanftimeX_edited off hm T
  refine ⟨clock, htime, ?_⟩
  rw [canonFirst, htext]
  rfl

/-- Formats that edit nothing leave the text as it is. -/
theorem canonFirst_same (off : Int) {T : Text} {fmts : List Text}
    (hm : ∀ fmt ∈ fmts, 'm' ∉ codes fmt) (h : ∀ fmt ∈ fmts, edited fmt T = T) :
    canonFirst off T fmts = some T := by
  induction fmts with
  | nil => rfl
  | cons fmt fmts ih =>
    obtain ⟨clock, -, hfirst⟩ := canonFirst_cons off (hm fmt List.mem_cons_self) T fmts
    rw [hfirst, h fmt List.mem_cons_self, ih (fun G hG => hm G (List.mem_cons_of_mem _ hG))
      (fun G hG => h G (List.mem_cons_of_mem _ hG))]
    exact ite_self _

/-- A format that edits is the only one that does. -/
theorem canonFirst_edit (off : Int) {T : Text} {E : Text} {before after : List Text}
    (hm : ∀ fmt ∈ before ++ E :: after, 'm' ∉ codes fmt) (hb : ∀ fmt ∈ before, ¬ Complete fmt T)
    (ha : ∀ fmt ∈ after, edited fmt (edited E T) = edited E T) :
    canonFirst off T (before ++ E :: after) = some (edited E T) := by
  induction before with
  | nil =>
    obtain ⟨clock, -, hfirst⟩ := canonFirst_cons off (hm E List.mem_cons_self) T after
    rw [List.nil_append, hfirst,
      canonFirst_same off (fun G hG => hm G (List.mem_cons_of_mem _ hG)) ha]
    exact ite_self _
  | cons fmt before ih =>
    have hnot := hb fmt List.mem_cons_self
    obtain ⟨clock, htime, hfirst⟩ :=
      canonFirst_cons off (hm fmt List.mem_cons_self) T (before ++ E :: after)
    rw [scanftime_of_not_complete hnot, Option.some.injEq] at htime
    rw [List.cons_append, hfirst, if_neg (by omega), edited_of_not_complete hnot]
    exact ih (fun G hG => hm G (List.mem_cons_of_mem _ hG))
      fun G hG => hb G (List.mem_cons_of_mem _ hG)

/-- What `canon_date` makes of a date that a format finds a short year in. -/
theorem canon_date_edit (off : Int) {d E y : Text} (hE : E ∈ canonFormats)
    (hc : Complete E (d.dropWhile blank)) (hy : shortYear E (d.dropWhile blank) = some y) :
    Numbered y ∧ ∃ p, d.dropWhile blank = p ++ y ∧
      canon_date off d = some (d.takeWhile blank ++ (p ++ canonNumber y)) ∧
      Unblank (p ++ canonNumber y) ∧
      scanned E (p ++ canonNumber y) = scanned E (d.dropWhile blank) ∧
      (∀ F ∈ canonFormats, F ≠ E → ¬ Complete F (d.dropWhile blank)) ∧
      (∀ F ∈ canonFormats, F ≠ E → ¬ Complete F (p ++ canonNumber y)) ∧
      ∀ F ∈ canonFormats, edited F (p ++ canonNumber y) = p ++ canonNumber y := by
  have hT := unblank_dropWhile d
  unfold canon_date
  generalize d.dropWhile blank = T at hc hy hT ⊢
  obtain ⟨hnumber, p, hp, hedit, hscan, hyear⟩ := edit_alike hE hc hy
  have hnumber' := (canon_number hnumber).number'
  have hT' : Unblank (p ++ canonNumber y) := by
    cases p with
    | nil => exact hnumber'.head fun c => blank_of_isDigit
    | cons a p =>
      rw [hp] at hT
      exact hT
  have hc' : Complete E (p ++ canonNumber y) := by
    unfold Complete
    rw [hscan]
    exact hc
  -- the formats before and after the one that edits read neither text
  have hothers : ∀ S, Unblank S → Complete E S → ∀ F ∈ canonFormats, F ≠ E → ¬ Complete F S := by
    intro S hS hES F hF hne hFS
    have hpair := complete_pairwise hS
    obtain ⟨before, after, hsplit⟩ := List.append_of_mem hE
    rw [hsplit, List.pairwise_append, List.pairwise_cons] at hpair
    rw [hsplit, List.mem_append, List.mem_cons] at hF
    rcases hF with hF | rfl | hF
    · exact hpair.2.2 F hF E List.mem_cons_self ⟨hFS, hES⟩
    · exact hne rfl
    · exact hpair.2.1.1 F hF ⟨hES, hFS⟩
  have hsame : ∀ F ∈ canonFormats, edited F (p ++ canonNumber y) = p ++ canonNumber y := by
    intro F hF
    by_cases hFE : F = E
    · rw [hFE]
      exact edited_of_no_year hyear
    · exact edited_of_not_complete (hothers _ hT' hc' F hF hFE)
  refine ⟨hnumber, p, hp, ?_, hT', hscan, hothers T hT hc, hothers _ hT' hc', hsame⟩
  have hpair := complete_pairwise hT
  obtain ⟨before, after, hsplit⟩ := List.append_of_mem hE
  rw [hsplit, List.pairwise_append] at hpair
  have hfirst := @canonFirst_edit off T E before after
    (fun F hF => (canonFormats_plain (hsplit ▸ hF)).2.2.2)
    (fun F hF hFT => hpair.2.2 F hF E List.mem_cons_self ⟨hFT, hc⟩)
    (fun F hF => by
      rw [hedit]
      exact hsame F (by rw [hsplit]; exact List.mem_append_right _ (List.mem_cons_of_mem _ hF)))
  rw [hsplit, hfirst, hedit]
  rfl

theorem canon_date_same (off : Int) {d : Text}
    (h : ∀ fmt ∈ canonFormats, edited fmt (d.dropWhile blank) = d.dropWhile blank) :
    canon_date off d = some d := by
  unfold canon_date
  rw [canonFirst_same off (fun F hF => (canonFormats_plain hF).2.2.2) h, Option.map_some,
    List.takeWhile_append_dropWhile]

end delegate.strftime
