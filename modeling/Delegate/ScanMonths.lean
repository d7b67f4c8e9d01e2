-- Months that are read as numbers: where `scanftimeX` and `YMD_HMS_toi`
-- (rary/Strftime.cpp) compute the time of a month outside of a year.
import Delegate.DateRoundTrip
import Delegate.UTags

open ctext delegate.utag delegate.string

namespace delegate.strftime

/-! ## Months of the fields -/

/-- Either no time is computed, or that of a month of a year. -/
def InYear (f : Fields) : Prop := ∀ tm, f.tm = some tm → 0 ≤ tm.tm_mon ∧ tm.tm_mon ≤ 11

/-- The fields that `scanftimeX` reads of a text. -/
def scanned (fmt stime : Text) : Fields := (Scanning.along fmt (.start stime)).toFields

theorem tm_mon {f : Fields} {tm : Tm} (h : f.tm = some tm) : tm.tm_mon = f.mon ∧ 0 ≤ f.mon := by
  unfold Fields.tm at h
  dsimp only at h
  split at h
  · rename_i hwhole
    cases h
    exact ⟨rfl, hwhole.2.2⟩
  · split at h
    · cases h
    · cases h
      exact ⟨rfl, by omega⟩

theorem inYear_of_none {f : Fields} (h : f.tm = none) : InYear f := by
  intro tm htm
  rw [h] at htm
  cases htm

theorem inYear_of_mon {f : Fields} (h : f.mon ≤ 11) : InYear f := by
  intro tm htm
  obtain ⟨heq, hpos⟩ := tm_mon htm
  omega

theorem Montoi_le (sym : Text) : montoi sym ≤ 11 ∧ Montoi sym ≤ 11 := by
  have hlen : Month.length = 12 := rfl
  constructor
  · unfold montoi
    split
    · rename_i i hi
      obtain ⟨hi, -⟩ := List.findIdx?_eq_some_iff_findIdx_eq.mp hi
      omega
    · decide
  · unfold Montoi
    split
    · rename_i i hi
      obtain ⟨hi, -⟩ := List.findIdx?_eq_some_iff_findIdx_eq.mp hi
      omega
    · decide

/-- The name of a month is one of the twelve. -/
theorem directive_name {st st' : Scanning} {c : Char} (hc : c ≠ 'm')
    (h : st.directive c = some st') (hmon : st.mon ≤ 11) : st'.mon ≤ 11 := by
  by_cases hname : c ∈ ['b', 'B', 'm']
  · simp only [List.mem_cons, List.not_mem_nil, or_false] at hname
    rcases hname with rfl | rfl | rfl
    · cases h
      exact (Montoi_le _).1
    · cases h
      exact (Montoi_le _).2
    · exact absurd rfl hc
  · rw [(Scanning.directive_keeps h).1 hname]
    exact hmon

theorem inYear_names {fmt : Text} (hf : 'm' ∉ codes fmt) (stime : Text) :
    InYear (scanned fmt stime) :=
  inYear_of_mon (@Scanning.along_inv (fun f => f.mon ≤ 11) fmt
    (fun _ hc _ _ hd hmon => directive_name (fun h => hf (h ▸ hc)) hd hmon) (.start stime)
    (show (-1 : Int) ≤ 11 by decide))

/-- No time is computed where the format has no year. -/
theorem inYear_yearless {fmt : Text} (hf : ∀ c ∈ codes fmt, c ∉ ['y', 'Y']) (stime : Text) :
    InYear (scanned fmt stime) := by
  have hyear : (scanned fmt stime).year = -1 := @Scanning.along_inv (fun f => f.year = -1) fmt
    (fun c hc _ _ hd hyear => ((Scanning.directive_keeps hd).2.1 (hf c hc)).trans hyear)
    (.start stime) rfl
  refine inYear_of_none ?_
  unfold Fields.tm
  rw [if_neg (by omega), if_pos (by omega)]

/-- No time is computed where the format has no hour, unless the time may be partial. -/
theorem inYear_hourless {fmt : Text} (hf : ∀ c ∈ codes fmt, c ≠ 'H' ∧ c ≠ 'P') (stime : Text) :
    InYear (scanned fmt stime) := by
  obtain ⟨hhour, hwhole⟩ := @Scanning.along_inv
    (fun f => f.hour = -1 ∧ f.isPartial = false) fmt
    (fun c hc _ _ hd h => ⟨((Scanning.directive_keeps hd).2.2.2.1 (hf c hc).1).trans h.1,
      ((Scanning.directive_keeps hd).2.2.2.2.2 (hf c hc).2).trans h.2⟩) (.start stime) ⟨rfl, rfl⟩
  refine inYear_of_none ?_
  unfold scanned Fields.tm
  rw [hwhole, if_neg (by simp), if_pos (by omega)]

/-! ## Months as numbers -/

/-- The number that the digits at the start of a text are. -/
def number (s : Text) : Nat := Nat.ofDigitChars 10 (s.takeWhile Char.isDigit) 0

theorem scanint_eq (s : Text) :
    scanint s = (min (number s) INT_MAX, s.dropWhile Char.isDigit) := by
  have h := @scanint_append (s.takeWhile Char.isDigit) (s.dropWhile Char.isDigit)
    (fun c hc => List.mem_takeWhile_imp hc) (head_dropWhile _ _)
  rwa [List.takeWhile_append_dropWhile] at h

/-- The second number of a text of numbers with blanks between them. -/
def secondNumber (s : Text) : Nat := number ((s.dropWhile Char.isDigit).dropWhile blank)

theorem year2internal_nonneg (n : Nat) : 0 ≤ year2internal n := by
  unfold year2internal
  split
  · omega
  · split <;> omega

/-- With all fields read, the month alone decides. -/
theorem inYear_iff {f : Fields} (hwhole : f.isPartial = false) (hyear : 0 ≤ f.year)
    (hmday : 0 ≤ f.mday) (hhour : 0 ≤ f.hour) (hmin : 0 ≤ f.min) (hsec : 0 ≤ f.sec) :
    InYear f ↔ f.mon ≤ 11 := by
  refine ⟨fun h => ?_, inYear_of_mon⟩
  by_contra hmon
  have htm := tm_of_nonneg hwhole hyear (by omega) hmday hhour hmin hsec
  have := (h _ htm).2
  dsimp only at this
  omega

theorem ymdHMS_eq : TIMEFORM_ymdHMS = ['%', 'y', ' ', '%', 'm', ' ', '%', 'd', ' ', '%', 'H', ' ',
    '%', 'M', ' ', '%', 'S'] :=
  rfl

theorem ymdHMSZ_eq : TIMEFORM_ymdHMSZ = TIMEFORM_ymdHMS ++ [' ', '%', 'Z'] :=
  rfl

/-- What is read of a text of numbers: all fields, and the second number for the month. -/
theorem along_ymdHMS (stime rest : Text) : ∃ st : Scanning,
    Scanning.along (TIMEFORM_ymdHMS ++ rest) (.start stime) = Scanning.along rest st ∧
      st.isPartial = false ∧ 0 ≤ st.year ∧ 0 ≤ st.mday ∧ 0 ≤ st.hour ∧ 0 ≤ st.min ∧ 0 ≤ st.sec ∧
      st.mon = (min (secondNumber stime) INT_MAX : Nat) - 1 := by
  rw [ymdHMS_eq]
  simp only [List.cons_append, List.nil_append]
  rw [Scanning.along_step rfl, Scanning.along_blank (by decide), Scanning.along_step rfl,
    Scanning.along_blank (by decide), Scanning.along_step rfl, Scanning.along_blank (by decide),
    Scanning.along_step rfl, Scanning.along_blank (by decide), Scanning.along_step rfl,
    Scanning.along_blank (by decide), Scanning.along_step rfl]
  refine ⟨_, rfl, rfl, ?_, Int.natCast_nonneg _, Int.natCast_nonneg _, Int.natCast_nonneg _,
    Int.natCast_nonneg _, ?_⟩
  · simp only [Scanning.readYear, Scanning.start, Fields.start, Bool.false_eq_true, false_and,
      if_false]
    exact year2internal_nonneg _
  · simp only [Scanning.readYear, Scanning.start, scanint_eq]
    rfl

theorem inYear_ymdHMS (stime : Text) :
    InYear (scanned TIMEFORM_ymdHMS stime) ↔ secondNumber stime ≤ 12 := by
  obtain ⟨st, halong, hwhole, hyear, hmday, hhour, hmin, hsec, hmon⟩ := along_ymdHMS stime []
  have hlarge : 12 < INT_MAX := by decide
  rw [List.append_nil] at halong
  unfold scanned
  rw [halong]
  change InYear st.toFields ↔ _
  rw [inYear_iff hwhole hyear hmday hhour hmin hsec, hmon]
  omega

theorem inYear_ymdHMSZ (stime : Text) :
    InYear (scanned TIMEFORM_ymdHMSZ stime) ↔ secondNumber stime ≤ 12 := by
  obtain ⟨st, halong, hwhole, hyear, hmday, hhour, hmin, hsec, hmon⟩ :=
    along_ymdHMS stime [' ', '%', 'Z']
  have hlarge : 12 < INT_MAX := by decide
  unfold scanned
  rw [ymdHMSZ_eq, halong, Scanning.along_blank (by decide), Scanning.along_step rfl]
  refine (inYear_iff ?_ ?_ ?_ ?_ ?_ ?_).trans ?_
  · exact hwhole
  · exact hyear
  · exact hmday
  · exact hhour
  · exact hmin
  · exact hsec
  · change st.mon ≤ 11 ↔ _
    rw [hmon]
    omega

/-! ## Dates with slashes -/

theorem LS_eq : TIMEFORM_LS = ['%', 'Y', '/', '%', 'm', '/', '%', 'd', ' ', '%', 'H', ':', '%', 'M',
    ':', '%', 'S'] :=
  rfl

/-- A text with the punctuation of a date with slashes, and the digits of its month. -/
def Slashes (stime m : Text) : Prop :=
  ∃ y d b hour min rest : Text,
    stime = y ++ '/' :: (m ++ '/' :: (d ++ (b ++ (hour ++ ':' :: (min ++ ':' :: rest))))) ∧
      (∀ c ∈ y, c.isDigit = true) ∧ (∀ c ∈ m, c.isDigit = true) ∧ (∀ c ∈ d, c.isDigit = true) ∧
      (∀ c ∈ b, blank c = true) ∧ (∀ c ∈ hour, c.isDigit = true) ∧ (∀ c ∈ min, c.isDigit = true) ∧
      (b = [] → hour = [])

/-- Where the text does not have a character of the format before the seconds, no time is computed. -/
theorem inYear_stop {ch : Char} (h : ch ≠ '%') (hblank : blank ch = false) (fp : Text)
    {st : Scanning} (hwhole : st.isPartial = false) (hsec : st.sec < 0)
    (hsp : st.sp.head? ≠ some ch) : InYear (Scanning.along (ch :: fp) st).toFields := by
  rw [Scanning.along_stop h hblank fp hsp]
  refine inYear_of_none ?_
  unfold Fields.tm
  rw [hwhole, if_neg (by simp), if_pos (by omega)]

theorem not_isDigit_of_blank {c : Char} (h : blank c = true) : c.isDigit = false := by
  rw [blank, Bool.or_eq_true, beq_iff_eq, beq_iff_eq] at h
  rcases h with rfl | rfl <;> decide

/-- The month of a text with the punctuation. -/
theorem inYear_slashes {stime m : Text} (h : Slashes stime m) :
    InYear (scanned TIMEFORM_LS stime) ↔ Nat.ofDigitChars 10 m 0 ≤ 12 := by
  obtain ⟨y, d, b, hour, min, rest, rfl, hy, hm, hd, hb, hhour, hmin, hnone⟩ := h
  have hslash : ∀ (s : Text), ∀ c ∈ ('/' :: s).head?, c.isDigit = false := by simp
  have hcolon : ∀ (s : Text), ∀ c ∈ (':' :: s).head?, c.isDigit = false := by simp
  have hnext : ∀ c ∈ (b ++ (hour ++ ':' :: (min ++ ':' :: rest))).head?, c.isDigit = false := by
    cases b with
    | nil =>
      rw [hnone rfl]
      exact hcolon _
    | cons x b =>
      intro c hc
      cases hc
      exact not_isDigit_of_blank (hb x (List.mem_cons_self ..))
  have hskip : (b ++ (hour ++ ':' :: (min ++ ':' :: rest))).dropWhile blank =
      hour ++ ':' :: (min ++ ':' :: rest) := by
    refine (while_append hb ?_).2
    cases hour with
    | nil => simp [blank]
    | cons x hour =>
      intro c hc
      cases hc
      by_contra hblank
      have hdigit := hhour x (List.mem_cons_self ..)
      rw [not_isDigit_of_blank (by simpa using hblank)] at hdigit
      cases hdigit
  have hlarge : 12 < INT_MAX := by decide
  have hyear := scanint_append hy (hslash (m ++ '/' :: (d ++ (b ++ (hour ++ ':' :: (min ++ ':' :: rest))))))
  have hmon := scanint_append hm (hslash (d ++ (b ++ (hour ++ ':' :: (min ++ ':' :: rest)))))
  have hmday := scanint_append hd hnext
  have hhours := scanint_append hhour (hcolon (min ++ ':' :: rest))
  have hmins := scanint_append hmin (hcolon rest)
  unfold scanned
  rw [LS_eq, Scanning.along_step rfl, Scanning.along_match (by decide) (by decide) _ (congrArg Prod.snd hyear),
    Scanning.along_step rfl, Scanning.along_match (by decide) (by decide) _ (congrArg Prod.snd hmon),
    Scanning.along_step rfl, Scanning.along_blank (by decide)]
  dsimp only
  rw [hmday, hskip, Scanning.along_step rfl, Scanning.along_match (by decide) (by decide) _ (congrArg Prod.snd hhours),
    Scanning.along_step rfl, Scanning.along_match (by decide) (by decide) _ (congrArg Prod.snd hmins),
    Scanning.along_step rfl]
  refine (inYear_iff rfl ?_ (Int.natCast_nonneg _) (Int.natCast_nonneg _) (Int.natCast_nonneg _)
    (Int.natCast_nonneg _)).trans ?_
  · simp only [Scanning.readYear, Scanning.start, Fields.start, Bool.false_eq_true, false_and,
      if_false]
    exact year2internal_nonneg _
  · rw [hmon]
    change ((Min.min (Nat.ofDigitChars 10 m 0) INT_MAX : Nat) : Int) - 1 ≤ 11 ↔ _
    omega

/-- A text that does not have all of the punctuation is left before the seconds. -/
theorem slashes_of_not_inYear {stime : Text} (h : ¬InYear (scanned TIMEFORM_LS stime)) :
    ∃ m, Slashes stime m := by
  have hneg : (-1 : Int) < 0 := by decide
  have hcons : ∀ {s : Text} {c : Char}, ¬s.head? ≠ some c → ∃ r, s = c :: r :=
    fun hs => ⟨_, List.eq_cons_of_mem_head? (not_not.mp hs)⟩
  unfold scanned at h
  rw [LS_eq, Scanning.along_step rfl] at h
  obtain ⟨r, hyear⟩ : ∃ r, (scanint stime).2 = '/' :: r :=
    hcons fun hne => h (inYear_stop (by decide) (by decide) _ rfl hneg hne)
  rw [Scanning.along_match (by decide) (by decide) _ hyear, Scanning.along_step rfl] at h
  obtain ⟨r2, hmon⟩ : ∃ r2, (scanint r).2 = '/' :: r2 :=
    hcons fun hne => h (inYear_stop (by decide) (by decide) _ rfl hneg hne)
  rw [Scanning.along_match (by decide) (by decide) _ hmon, Scanning.along_step rfl,
    Scanning.along_blank (by decide), Scanning.along_step rfl] at h
  obtain ⟨r3, hhour⟩ : ∃ r3, (scanint ((scanint r2).2.dropWhile blank)).2 = ':' :: r3 :=
    hcons fun hne => h (inYear_stop (by decide) (by decide) _ rfl hneg hne)
  rw [Scanning.along_match (by decide) (by decide) _ hhour, Scanning.along_step rfl] at h
  obtain ⟨r4, hmin⟩ : ∃ r4, (scanint r3).2 = ':' :: r4 :=
    hcons fun hne => h (inYear_stop (by decide) (by decide) _ rfl hneg hne)
  simp only [scanint_eq] at hyear hmon hhour hmin
  have hdigits : ∀ s : Text, ∀ c ∈ s.takeWhile Char.isDigit, c.isDigit = true :=
    fun s c hc => List.mem_takeWhile_imp hc
  refine ⟨r.takeWhile Char.isDigit, stime.takeWhile Char.isDigit, r2.takeWhile Char.isDigit,
    (r2.dropWhile Char.isDigit).takeWhile blank,
    ((r2.dropWhile Char.isDigit).dropWhile blank).takeWhile Char.isDigit,
    r3.takeWhile Char.isDigit, r4, ?_, hdigits _, hdigits _, hdigits _,
    fun c hc => List.mem_takeWhile_imp hc, hdigits _, hdigits _, fun hb => ?_⟩
  · rw [← hmin, List.takeWhile_append_dropWhile, ← hhour, List.takeWhile_append_dropWhile,
      List.takeWhile_append_dropWhile, List.takeWhile_append_dropWhile, ← hmon,
      List.takeWhile_append_dropWhile, ← hyear, List.takeWhile_append_dropWhile]
  · have hstop := head_dropWhile Char.isDigit r2
    cases hrest : r2.dropWhile Char.isDigit with
    | nil => rfl
    | cons x rest =>
      rw [hrest] at hb hstop
      have hx : blank x = false := by
        by_contra hblank
        rw [List.takeWhile_cons, if_pos (by simpa using hblank)] at hb
        cases hb
      rw [List.dropWhile_cons, hx, if_neg (by decide), List.takeWhile_cons, if_neg]
      rw [hstop x rfl]
      decide

theorem inYear_LS (stime : Text) :
    InYear (scanned TIMEFORM_LS stime) ↔
      ∀ m, Slashes stime m → Nat.ofDigitChars 10 m 0 ≤ 12 := by
  refine ⟨fun h m hm => (inYear_slashes hm).mp h, fun h => ?_⟩
  by_contra hout
  obtain ⟨m, hm⟩ := slashes_of_not_inYear hout
  exact hout ((inYear_slashes hm).mpr (h m hm))

/-! ## The other formats -/

/-- The year takes all digits, so that none is left for the month. -/
theorem inYear_GOPHER (stime : Text) : InYear (scanned TIMEFORM_GOPHER stime) := by
  refine inYear_of_mon ?_
  unfold scanned
  rw [GOPHER_eq, Scanning.along_step rfl, Scanning.along_step rfl,
    Scanning.along_mon (by simp [codes])]
  have hstop : ∀ c ∈ (stime.dropWhile Char.isDigit).head?, c.isDigit = false := head_dropWhile _ _
  have hnone : scanint (scanint stime).2 = (0, (scanint stime).2) := by
    rw [scanint_eq stime]
    exact scanint_of_not_digit hstop
  change ((scanint (scanint stime).2).1 : Int) - 1 ≤ 11
  rw [hnone]
  omega

/-- The formats of this file that read no month as a number, or never all of a time. -/
def namedFormats : List Text :=
  [TIMEFORM_mdHMS, TIMEFORM_mdHMSd, TIMEFORM_mdHMSc, TIMEFORM_mdHMSm, TIMEFORM_mdHMS4,
    TIMEFORM_mdHMS5, TIMEFORM_mdHMS6, TIMEFORM_HTTPD, TIMEFORM_HTTPDs, TIMEFORM_GOPHER,
    TIMEFORM_USENET, TIMEFORM_RFC822, TIMEFORM_RFC850, TIMEFORM_ANSI_C, TIMEFORM_UXDATE,
    TIMEFORM_YmdHMS, TIMEFORM_SYSLOG, TIMEFORM_TAR, TIMEFORM_COOKIE, TIMEFORM_RFC0, TIMEFORM_RFC1,
    TIMEFORM_RFC2, TIMEFORM_RFC3, TIMEFORM_RFC4]

theorem named_codes : ∀ fmt ∈ namedFormats, 'm' ∈ codes fmt → 'Y' ∈ codes fmt ∨ 'y' ∈ codes fmt →
    'H' ∈ codes fmt ∨ 'P' ∈ codes fmt → fmt = TIMEFORM_GOPHER := by
  decide +kernel

theorem inYear_named {fmt : Text} (h : fmt ∈ namedFormats) (stime : Text) :
    InYear (scanned fmt stime) := by
  by_cases hmon : 'm' ∈ codes fmt
  · by_cases hyear : 'Y' ∈ codes fmt ∨ 'y' ∈ codes fmt
    · by_cases hhour : 'H' ∈ codes fmt ∨ 'P' ∈ codes fmt
      · rw [named_codes fmt h hmon hyear hhour]
        exact inYear_GOPHER stime
      · exact inYear_hourless
          (fun c hc => ⟨fun h => hhour (.inl (h ▸ hc)), fun h => hhour (.inr (h ▸ hc))⟩) stime
    · refine inYear_yearless (fun c hc hin => hyear ?_) stime
      simp only [List.mem_cons, List.not_mem_nil, or_false] at hin
      rcases hin with rfl | rfl
      · exact .inr hc
      · exact .inl hc
  · exact inYear_names hmon stime

/-! ## `YMD_HMS_toi` -/

/-- The text that `YMD_HMS_toi` makes of its argument. -/
def ymdHMSZ (ymdhms : Text) : Text :=
  let uv := (uvfromsfX 3 ymdhms "%d %d %s".toList).tags
  let iymd := utoi uv[0]?
  let ihms := utoi uv[1]?
  let zone := Utos uv[2]? 16
  let zone := if zone ≠ "GMT".toList ∧ zone ≠ "UTC".toList then [] else zone
  decInt (iymd.tdiv 10000) ++ ' ' :: decInt ((iymd.tdiv 100).tmod 100) ++
    ' ' :: decInt (iymd.tmod 100) ++ ' ' :: decInt (ihms.tdiv 10000) ++
    ' ' :: decInt ((ihms.tdiv 100).tmod 100) ++ ' ' :: decInt (ihms.tmod 100) ++
    (if zone = [] then [] else ' ' :: zone)

def YMD_HMS_toi (off : Int) (ymdhms : Text) : Option Int :=
  scanftime off (ymdHMSZ ymdhms) TIMEFORM_ymdHMSZ

theorem number_append {ds rest : Text} (h : ∀ c ∈ ds, c.isDigit = true)
    (hrest : ∀ c ∈ rest.head?, c.isDigit = false) :
    number (ds ++ rest) = Nat.ofDigitChars 10 ds 0 := by
  rw [number, (while_append h hrest).1]

/-- The second of the numbers that were printed, if neither of the first two is negative. -/
theorem secondNumber_decInt {y m : Int} (hsign : y < 0 → m ≤ 0) (hlarge : m < 100) (rest : Text) :
    secondNumber (decInt y ++ ' ' :: (decInt m ++ ' ' :: rest)) ≤ 12 ↔ m ≤ 12 := by
  have hspace : ∀ (s : Text), ∀ c ∈ (' ' :: s).head?, c.isDigit = false := by simp
  have hnone : ∀ s : Text, number ('-' :: s) = 0 := fun s => rfl
  unfold secondNumber
  by_cases hy : y < 0
  · have hm := hsign hy
    have htext : decInt y = '-' :: dec y.natAbs := if_pos hy
    rw [htext, List.cons_append, List.dropWhile_cons, if_neg (by decide), List.dropWhile_cons,
      if_neg (by decide), hnone]
    omega
  · have hdigits : ∀ c ∈ dec y.toNat, c.isDigit = true := fun c hc => isDigit_of_mem_dec hc
    rw [decInt_of_nonneg (by omega), (while_append hdigits (hspace _)).2, List.dropWhile_cons,
      if_pos (by decide)]
    by_cases hm : m < 0
    · have htext : decInt m = '-' :: dec m.natAbs := if_pos hm
      rw [htext, List.cons_append, List.dropWhile_cons, if_neg (by decide), hnone]
      omega
    · have hval : Nat.ofDigitChars 10 (dec m.toNat) 0 = m.toNat := Nat.ofDigitChars_ten_toDigits
      obtain ⟨x, r, heq, hx⟩ :=
        head_digits (w := dec m.toNat) (fun c hc => isDigit_of_mem_dec hc) (dec_ne_nil _)
      have hskip : (dec m.toNat ++ ' ' :: rest).dropWhile blank = dec m.toNat ++ ' ' :: rest := by
        rw [heq, List.cons_append, List.dropWhile_cons, hx, if_neg (by decide)]
      rw [decInt_of_nonneg (by omega), hskip,
        number_append (fun c hc => isDigit_of_mem_dec hc) (hspace _), hval]
      omega

/-- The month that `YMD_HMS_toi` reads is the third and fourth digit from the end of the first
number. -/
theorem inYear_YMD_HMS (ymdhms : Text) :
    InYear (scanned TIMEFORM_ymdHMSZ (ymdHMSZ ymdhms)) ↔ ((atoi ymdhms).tdiv 100).tmod 100 ≤ 12 := by
  have hfirst : utoi (uvfromsfX 3 ymdhms "%d %d %s".toList).tags[0]? = atoi ymdhms :=
    utoi_first ymdhms 2 _
  have hlarge : ((atoi ymdhms).tdiv 100).tmod 100 < 100 := Int.tmod_lt_of_pos _ (by decide)
  have hsign : (atoi ymdhms).tdiv 10000 < 0 → ((atoi ymdhms).tdiv 100).tmod 100 ≤ 0 := by
    intro hneg
    have hneg' : atoi ymdhms < 0 := by
      by_contra hpos
      have := Int.tdiv_nonneg (by omega : 0 ≤ atoi ymdhms) (by decide : (0 : Int) ≤ 10000)
      omega
    obtain ⟨w, hw⟩ : ∃ w, atoi ymdhms = -w := ⟨-atoi ymdhms, by omega⟩
    have hpos : 0 ≤ (w.tdiv 100).tmod 100 :=
      Int.tmod_nonneg _ (Int.tdiv_nonneg (by omega) (by decide))
    rw [hw, Int.neg_tdiv, Int.neg_tmod]
    omega
  rw [inYear_ymdHMSZ]
  unfold ymdHMSZ
  dsimp only
  rw [hfirst]
  simp only [List.append_assoc, List.cons_append]
  exact secondNumber_decInt hsign hlarge _

/-- Where the months of the times that are computed are months of a year. -/
theorem scanned_months_iff (stime : Text) :
    (∀ fmt ∈ namedFormats, InYear (scanned fmt stime)) ∧
    (InYear (scanned TIMEFORM_ymdHMS stime) ↔ secondNumber stime ≤ 12) ∧
    (InYear (scanned TIMEFORM_ymdHMSZ stime) ↔ secondNumber stime ≤ 12) ∧
    (InYear (scanned TIMEFORM_LS stime) ↔ ∀ m, Slashes stime m → Nat.ofDigitChars 10 m 0 ≤ 12) ∧
    (InYear (scanned TIMEFORM_ymdHMSZ (ymdHMSZ stime)) ↔ ((atoi stime).tdiv 100).tmod 100 ≤ 12) :=
  ⟨fun _ hfmt => inYear_named hfmt stime, inYear_ymdHMS stime, inYear_ymdHMSZ stime,
    inYear_LS stime, inYear_YMD_HMS stime⟩

/-- The month 99 is read, and the table of the days is indexed with 98. -/
theorem scanned_months_99 :
    ¬InYear (scanned TIMEFORM_ymdHMSZ (ymdHMSZ "19949906 084937 GMT".toList)) := by
  have hnum : atoi "19949906 084937 GMT".toList = 19949906 := by rfl
  rw [inYear_YMD_HMS, hnum]
  decide

/-- A month of a year has an entry in the table. -/
theorem scanftime_isSome {off : Int} {stime fmt : Text} (h : InYear (scanned fmt stime)) :
    (scanftime off stime fmt).isSome = true := by
  have hfields : (scanned fmt stime).tm = (Scanning.along fmt (.start stime)).tm := rfl
  unfold scanftime scanftimeX
  dsimp only
  cases htm : (Scanning.along fmt (.start stime)).tm with
  | none => rfl
  | some tm =>
    obtain ⟨hlow, hhigh⟩ := h tm (hfields.trans htm)
    obtain ⟨clock, hclock⟩ : ∃ clock, Timegm tm = some clock := ⟨_, if_pos (by omega)⟩
    have hlocal : Timelocal off tm = some (clock - off) := by
      unfold Timelocal
      rw [hclock, Option.map_some]
    dsimp only
    rw [hclock, hlocal, Option.isSome_map, Option.isSome_map]
    by_cases hzone : (Scanning.along fmt (.start stime)).localzone = true
    · rw [if_pos hzone]
      rfl
    · rw [if_neg hzone]
      rfl

/-- `YMD_HMS_toi` has a result where its first number has a month of a year. -/
theorem YMD_HMS_toi_isSome (off : Int) {ymdhms : Text}
    (h : ((atoi ymdhms).tdiv 100).tmod 100 ≤ 12) : (YMD_HMS_toi off ymdhms).isSome = true :=
  scanftime_isSome ((inYear_YMD_HMS ymdhms).mpr h)

end delegate.strftime
