-- Dates that are printed and scanned: what `scanftimeX` reads of a text that
-- `Strftime0` printed with the same format, and the scanners that come to
-- this format through others (rary/Strftime.cpp).
import Delegate.Scanftime

open calendar ctext delegate.string

namespace delegate.strftime

/-! ## One format -/

/-- The fields of a time can be printed and read: two digits each, a name of a month and of a day,
a year from 1900 on, and a zone that is a word. -/
structure Printable (tm : Tm) (zone : Text) : Prop where
  sec : 0 ≤ tm.tm_sec ∧ tm.tm_sec < 100
  min : 0 ≤ tm.tm_min ∧ tm.tm_min < 100
  hour : 0 ≤ tm.tm_hour ∧ tm.tm_hour < 100
  mday : 0 ≤ tm.tm_mday ∧ tm.tm_mday < 100
  mon : 0 ≤ tm.tm_mon ∧ tm.tm_mon < 12
  year : 0 ≤ tm.tm_year ∧ tm.tm_year + 1900 ≤ INT_MAX
  wday : 0 ≤ tm.tm_wday ∧ tm.tm_wday < 7
  zone : zone ≠ [] ∧ zone.length < 128 ∧ ∀ c ∈ zone, wordBlank c = false

/-- The directives for what both the formatter and the scanner know. -/
def directives : List Char := ['a', 'A', 'b', 'm', 'd', 'H', 'M', 'S', 'y', 'Y', 'z']

/-- After a directive that is printed, the format ends or has a character that ends numbers and
words, a blank after a zone. A blank is not followed by a blank. -/
def Spaced : Text → Prop
  | [] => True
  | ['%'] => False
  | '%' :: c :: fp =>
    c ∈ directives ∧
      (∀ x ∈ fp.head?, x ≠ '%' ∧ x.isAlphanum = false ∧ (c = 'z' → wordBlank x = true)) ∧ Spaced fp
  | ch :: fp => (blank ch = true → ∀ x ∈ fp.head?, blank x = false) ∧ Spaced fp

theorem spaced_char {ch : Char} (h : ch ≠ '%') (fp : Text) :
    Spaced (ch :: fp) ↔ (blank ch = true → ∀ x ∈ fp.head?, blank x = false) ∧ Spaced fp := by
  rw [Spaced]
  · exact fun hch _ => h hch
  · exact fun c fp hch _ => h hch

/-- What is read of a directive that was printed. -/
def Fields.remember (tm : Tm) (zone : Text) (f : Fields) : Char → Fields
  | 'b' => { f with mon := tm.tm_mon }
  | 'm' => { f with mon := tm.tm_mon }
  | 'd' => { f with mday := tm.tm_mday }
  | 'H' => { f with hour := tm.tm_hour }
  | 'M' => { f with min := tm.tm_min }
  | 'S' => { f with sec := tm.tm_sec }
  | 'y' => { f with year := year2internal (cyear tm.tm_year) }
  | 'Y' => { f with year := tm.tm_year }
  | 'z' => { f with zone := zone }
  | _ => f

def Fields.readBack (tm : Tm) (zone : Text) : Text → Fields → Fields
  | '%' :: c :: fp, f => readBack tm zone fp (f.remember tm zone c)
  | _ :: fp, f => readBack tm zone fp f
  | [], f => f

theorem Fields.readBack_char {tm : Tm} {zone : Text} {ch : Char} (h : ch ≠ '%') (fp : Text)
    (f : Fields) : f.readBack tm zone (ch :: fp) = f.readBack tm zone fp := by
  rw [readBack]
  exact fun c fp hch _ => h hch

/-- What may follow the text of a directive. -/
def Ends (rest : Text) : Prop := ∀ x ∈ rest.head?, x.isAlphanum = false

theorem Ends.digit {rest : Text} (h : Ends rest) : ∀ c ∈ rest.head?, c.isDigit = false := by
  intro c hc
  have := h c hc
  simp only [Char.isAlphanum, Bool.or_eq_false_iff] at this
  exact this.2

theorem Ends.alpha {rest : Text} (h : Ends rest) : ∀ c ∈ rest.head?, c.isAlpha = false := by
  intro c hc
  have := h c hc
  simp only [Char.isAlphanum, Bool.or_eq_false_iff] at this
  exact this.1

theorem Month_alpha {i : Nat} (h : i < 12) : (∀ c ∈ Month.getD i [], c.isAlpha = true) ∧
    (Month.getD i []).length = 3 ∧ montoi (Month.getD i []) = i := by
  interval_cases i <;> simp [Month, montoi, List.idxOf?, List.findIdx?_cons]

theorem Wdays_alpha {i : Nat} (h : i < 7) : (∀ c ∈ sched.Wdays.getD i [], c.isAlpha = true) ∧
    (sched.Wdays.getD i []).length = 3 := by
  interval_cases i <;> simp [sched.Wdays]

theorem WDays_alpha {i : Nat} (h : i < 7) : (∀ c ∈ sched.WDays.getD i [], c.isAlpha = true) ∧
    6 ≤ (sched.WDays.getD i []).length ∧ (sched.WDays.getD i []).length < 10 := by
  interval_cases i <;> simp [sched.WDays]

section

variable {L : Libc} {tm : Tm} {usecond : Nat} {zone : Text}

theorem awordscan_Wdays (h : Printable tm zone) {rest : Text} (hrest : Ends rest) :
    (awordscan (sched.Wdays.getD tm.tm_wday.toNat [] ++ rest)).2 = rest := by
  obtain ⟨halpha, hlen⟩ := @Wdays_alpha tm.tm_wday.toNat (by have := h.wday; omega)
  rw [awordscan_append halpha (by omega) hrest.alpha]

theorem awordscan_WDays (h : Printable tm zone) {rest : Text} (hrest : Ends rest) :
    (awordscan (sched.WDays.getD tm.tm_wday.toNat [] ++ rest)).2 = rest := by
  obtain ⟨halpha, -, hlen⟩ := @WDays_alpha tm.tm_wday.toNat (by have := h.wday; omega)
  rw [awordscan_append halpha (by omega) hrest.alpha]

theorem awordscan_Month (h : Printable tm zone) {rest : Text} (hrest : Ends rest) :
    awordscan (Month.getD tm.tm_mon.toNat [] ++ rest) = (Month.getD tm.tm_mon.toNat [], rest) := by
  obtain ⟨halpha, hlen, -⟩ := @Month_alpha tm.tm_mon.toNat (by have := h.mon; omega)
  exact awordscan_append halpha (by omega) hrest.alpha

theorem montoi_Month (h : Printable tm zone) :
    montoi (Month.getD tm.tm_mon.toNat []) = tm.tm_mon := by
  obtain ⟨-, -, hmon⟩ := @Month_alpha tm.tm_mon.toNat (by have := h.mon; omega)
  rw [hmon]
  have := h.mon
  omega

/-- Every directive is read back. -/
theorem directive_read (h : Printable tm zone) {c : Char} (hc : c ∈ directives)
    {rest : Text} (hrest : Ends rest) (hz : c = 'z' → ∀ x ∈ rest.head?, wordBlank x = true)
    {st : Scanning} (hst : st.sp = directive L tm usecond zone [] c ++ rest)
    (hwhole : st.isPartial = false) :
    ∃ st', st.directive c = some st' ∧ st'.sp = rest ∧
      st'.toFields = st.toFields.remember tm zone c := by
  obtain ⟨⟨year, mon, mday, hour, min, sec, zn, localzone, prt⟩, sp, yyp⟩ := st
  dsimp only at hst hwhole
  subst hwhole
  have hdigit := hrest.digit
  simp only [directives, List.mem_cons, List.not_mem_nil, or_false] at hc
  rcases hc with rfl | rfl | rfl | rfl | rfl | rfl | rfl | rfl | rfl | rfl | rfl
  all_goals refine ⟨_, rfl, ?_⟩
  all_goals dsimp only [Scanning.readYear]
  · change sp = sched.Wdays.getD tm.tm_wday.toNat [] ++ rest at hst
    rw [hst, awordscan_Wdays h hrest]
    exact ⟨rfl, rfl⟩
  · change sp = sched.WDays.getD tm.tm_wday.toNat [] ++ rest at hst
    rw [hst, awordscan_WDays h hrest]
    exact ⟨rfl, rfl⟩
  · change sp = Month.getD tm.tm_mon.toNat [] ++ rest at hst
    rw [hst, awordscan_Month h hrest, montoi_Month h]
    exact ⟨rfl, rfl⟩
  · change sp = sprint02d (tm.tm_mon + 1) ++ rest at hst
    have hmon := h.mon
    rw [hst, scanint_sprint02d (by omega) (by omega) hdigit, Int.toNat_of_nonneg (by omega),
      Int.add_sub_cancel]
    exact ⟨rfl, rfl⟩
  · change sp = sprint02d tm.tm_mday ++ rest at hst
    rw [hst, scanint_sprint02d h.mday.1 h.mday.2 hdigit, Int.toNat_of_nonneg h.mday.1]
    exact ⟨rfl, rfl⟩
  · change sp = sprint02d tm.tm_hour ++ rest at hst
    rw [hst, scanint_sprint02d h.hour.1 h.hour.2 hdigit, Int.toNat_of_nonneg h.hour.1]
    exact ⟨rfl, rfl⟩
  · change sp = sprint02d tm.tm_min ++ rest at hst
    rw [hst, scanint_sprint02d h.min.1 h.min.2 hdigit, Int.toNat_of_nonneg h.min.1]
    exact ⟨rfl, rfl⟩
  · change sp = (sprint02d tm.tm_sec ++ if none = some '.' then subsecs L [] usecond else []) ++ rest at hst
    rw [hst, if_neg (by simp), List.append_nil,
      scanint_sprint02d h.sec.1 h.sec.2 hdigit, Int.toNat_of_nonneg h.sec.1]
    exact ⟨rfl, rfl⟩
  · change sp = sprint02d (cyear tm.tm_year) ++ rest at hst
    have hyear := h.year
    have hc : 0 ≤ cyear tm.tm_year ∧ cyear tm.tm_year < 100 := by
      rw [cyear, Int.tmod_eq_emod_of_nonneg hyear.1]
      omega
    rw [hst, scanint_sprint02d hc.1 hc.2 hdigit, Int.toNat_of_nonneg hc.1]
    exact ⟨rfl, rfl⟩
  · change sp = decInt (tm.tm_year + 1900) ++ rest at hst
    have hyear := h.year
    rw [hst, decInt_of_nonneg (by omega), scanint_dec (by omega) hdigit]
    refine ⟨rfl, ?_⟩
    have hback : year2internal ((tm.tm_year + 1900).toNat : Int) = tm.tm_year := by
      rw [Int.toNat_of_nonneg (by omega), year2internal, if_neg (by omega), if_pos (by omega)]
      omega
    simp only [Bool.false_eq_true, false_and, if_false, hback]
    rfl
  · change sp = zone ++ rest at hst
    obtain ⟨hne, hlen, hword⟩ := h.zone
    rw [hst, wordScan_append hword hne hlen (hz rfl)]
    exact ⟨rfl, rfl⟩

theorem put_directive {c : Char} (hc : c ∈ directives) (fp : Text) :
    Strftime0.put L tm usecond zone none ('%' :: c :: fp) =
      directive L tm usecond zone [] c ++ Strftime0.put L tm usecond zone none fp := by
  have hplain : ¬(c = '.' ∨ c.isDigit) := by
    simp only [directives, List.mem_cons, List.not_mem_nil, or_false] at hc
    rcases hc with rfl | rfl | rfl | rfl | rfl | rfl | rfl | rfl | rfl | rfl | rfl <;> decide
  rw [Strftime0.put, if_pos rfl, Strftime0.put, if_neg fun h => hplain h.1]

theorem put_char {c : Char} (hc : c ≠ '%') (fp : Text) :
    Strftime0.put L tm usecond zone none (c :: fp) =
      c :: Strftime0.put L tm usecond zone none fp := by
  rw [Strftime0.put, if_neg hc]

theorem blank_of_isAlphanum {x : Char} (h : x.isAlphanum = true) : blank x = false := by
  rw [blank, Bool.or_eq_false_iff, beq_eq_false_iff_ne, beq_eq_false_iff_ne]
  constructor <;> (rintro rfl; revert h; decide)

theorem head_name {w : Text} (h : ∀ c ∈ w, c.isAlpha = true) (hne : 0 < w.length) :
    ∃ x r, w = x :: r ∧ blank x = false := by
  obtain ⟨x, r, rfl⟩ := List.exists_cons_of_length_pos hne
  refine ⟨x, r, rfl, blank_of_isAlphanum ?_⟩
  rw [Char.isAlphanum, h x (List.mem_cons_self ..)]
  rfl

theorem head_digits {w : Text} (h : ∀ c ∈ w, c.isDigit = true) (hne : w ≠ []) :
    ∃ x r, w = x :: r ∧ blank x = false := by
  obtain ⟨x, r, rfl⟩ := List.exists_cons_of_ne_nil hne
  refine ⟨x, r, rfl, blank_of_isAlphanum ?_⟩
  rw [Char.isAlphanum, h x (List.mem_cons_self ..), Bool.or_true]

theorem head_sprint02d (n : Int) : ∃ x r, sprint02d n = x :: r ∧ blank x = false :=
  ⟨_, _, rfl, blank_of_isAlphanum (by rw [Char.isAlphanum, isDigit_digit, Bool.or_true])⟩

/-- What a directive prints begins with no blank. -/
theorem directive_head (h : Printable tm zone) {c : Char} (hc : c ∈ directives) :
    ∃ x r, directive L tm usecond zone [] c = x :: r ∧ blank x = false := by
  have hwday : tm.tm_wday.toNat < 7 := by have := h.wday; omega
  have hmon : tm.tm_mon.toNat < 12 := by have := h.mon; omega
  simp only [directives, List.mem_cons, List.not_mem_nil, or_false] at hc
  rcases hc with rfl | rfl | rfl | rfl | rfl | rfl | rfl | rfl | rfl | rfl | rfl
  · obtain ⟨halpha, hlen⟩ := Wdays_alpha hwday
    have hname := head_name halpha (by omega)
    exact hname
  · obtain ⟨halpha, hlen, -⟩ := WDays_alpha hwday
    have hname := head_name halpha (by omega)
    exact hname
  · obtain ⟨halpha, hlen, -⟩ := Month_alpha hmon
    have hname := head_name halpha (by omega)
    exact hname
  · exact head_sprint02d _
  · exact head_sprint02d _
  · exact head_sprint02d _
  · exact head_sprint02d _
  · obtain ⟨x, r, heq, hx⟩ := head_sprint02d tm.tm_sec
    refine ⟨x, r, ?_, hx⟩
    change sprint02d tm.tm_sec ++ (if none = some '.' then subsecs L [] usecond else []) = x :: r
    rw [if_neg (by simp), List.append_nil, heq]
  · exact head_sprint02d _
  · have hyear := h.year
    change ∃ x r, decInt (tm.tm_year + 1900) = x :: r ∧ blank x = false
    rw [decInt_of_nonneg (by omega)]
    exact head_digits (fun c hc => isDigit_of_mem_dec hc) (dec_ne_nil _)
  · obtain ⟨hne, -, hword⟩ := h.zone
    obtain ⟨x, r, rfl⟩ := List.exists_cons_of_ne_nil hne
    refine ⟨x, r, rfl, ?_⟩
    have hx := hword x (List.mem_cons_self ..)
    simp only [wordBlank, Bool.or_eq_false_iff] at hx
    rw [blank, hx.1.1.1.1, hx.1.1.1.2, Bool.or_false]

/-- The text of a format begins with no blank, unless the format does. -/
theorem put_head (h : Printable tm zone) {fp : Text} (hf : Spaced fp)
    (hhead : ∀ x ∈ fp.head?, blank x = false) :
    ∀ x ∈ (Strftime0.put L tm usecond zone none fp).head?, blank x = false := by
  cases fp with
  | nil => intro x hx; cases hx
  | cons ch fp =>
    by_cases hch : ch = '%'
    · subst hch
      cases fp with
      | nil => exact hf.elim
      | cons c fp =>
        obtain ⟨x, r, heq, hx⟩ := @directive_head L tm usecond zone h c hf.1
        rw [put_directive hf.1, heq]
        simpa
    · rw [put_char hch]
      simpa using hhead ch rfl

theorem remember_isPartial (f : Fields) (c : Char) :
    (f.remember tm zone c).isPartial = f.isPartial := by
  unfold Fields.remember
  split <;> rfl

/-- What `scanftimeX` reads of a text that `Strftime0` printed with the same format. -/
theorem along_read (h : Printable tm zone) {fmt : Text} (hf : Spaced fmt) {st : Scanning}
    (hst : st.sp = Strftime0.put L tm usecond zone none fmt) (hwhole : st.isPartial = false) :
    (Scanning.along fmt st).toFields = st.toFields.readBack tm zone fmt := by
  induction fmt using Spaced.induct generalizing st with
  | case1 => rfl
  | case2 => exact hf.elim
  | case3 c fp ih =>
    obtain ⟨hc, hnext, hf⟩ := hf
    have hends : Ends (Strftime0.put L tm usecond zone none fp) := by
      cases fp with
      | nil => intro x hx; cases hx
      | cons x fp =>
        obtain ⟨hx, halnum, -⟩ := hnext x rfl
        rw [put_char hx]
        simpa [Ends] using halnum
    have hz : c = 'z' →
        ∀ x ∈ (Strftime0.put L tm usecond zone none fp).head?, wordBlank x = true := by
      intro hc
      cases fp with
      | nil => intro x hx; cases hx
      | cons x fp =>
        obtain ⟨hx, -, hz⟩ := hnext x rfl
        rw [put_char hx]
        simpa using hz hc
    rw [put_directive hc] at hst
    obtain ⟨st', hst', hsp, hfields⟩ := directive_read h hc hends hz hst hwhole
    rw [Scanning.along, hst', Fields.readBack, ← hfields]
    exact ih hf hsp (by rw [hfields, remember_isPartial, hwhole])
  | case4 ch fp hone htwo ih =>
    have hch : ch ≠ '%' := by
      intro hch
      cases fp with
      | nil => exact hone hch rfl
      | cons c fp => exact htwo c fp hch rfl
    obtain ⟨hnext, hf⟩ := (spaced_char hch fp).mp hf
    rw [put_char hch] at hst
    rw [Scanning.along_char hch, Fields.readBack_char hch]
    by_cases hblank : blank ch = true
    · rw [if_pos hblank]
      refine ih hf ?_ hwhole
      have hhead := @put_head L tm usecond zone h fp hf (hnext hblank)
      dsimp only
      rw [hst, List.dropWhile_cons, if_pos hblank]
      cases hput : Strftime0.put L tm usecond zone none fp with
      | nil => rfl
      | cons x r =>
        rw [hput] at hhead
        rw [List.dropWhile_cons, if_neg (by simpa using hhead x rfl)]
    · rw [if_neg hblank, hst, List.head?_cons, if_pos rfl]
      exact ih hf (by rw [List.tail_cons]) hwhole

end

/-! ## Texts of other formats -/

theorem tm_of_mon {f : Fields} (h : f.mon < 0) : f.tm = none := by
  unfold Fields.tm
  rw [if_neg (by omega), if_pos (by omega)]

/-- What the scanner makes of the fields that it read. -/
theorem scanftime_eq {off : Int} {stime fmt : Text} {f : Fields}
    (h : (Scanning.along fmt (.start stime)).toFields = f) :
    scanftime off stime fmt =
      match f.tm with
      | none => some (-1)
      | some tm => (if f.localzone then Timelocal off tm else Timegm tm).map (unzoned f.zone) := by
  subst h
  unfold scanftime scanftimeX
  dsimp only
  cases htm : (Scanning.along fmt (.start stime)).tm with
  | none => rfl
  | some tm =>
    dsimp only
    rw [Option.map_map]
    rfl

theorem scanftime_of_mon {off : Int} {stime fmt : Text}
    (h : (Scanning.along fmt (.start stime)).mon < 0) : scanftime off stime fmt = some (-1) := by
  rw [scanftime_eq rfl, tm_of_mon h]

/-- A format that begins with a word and a comma reads no text without the comma. -/
theorem scanftime_comma {off : Int} {stime fp : Text}
    (h : (awordscan stime).2.head? ≠ some ',') :
    scanftime off stime ('%' :: 'a' :: ',' :: fp) = some (-1) ∧
      scanftime off stime ('%' :: 'A' :: ',' :: fp) = some (-1) := by
  constructor
  all_goals
    refine scanftime_of_mon ?_
    have hstop := @Scanning.along_stop ',' (by decide) (by decide) fp
      ⟨.start, (awordscan stime).2, none⟩ h
    rw [Scanning.along_step rfl]
    exact lt_of_eq_of_lt (congrArg (fun st => st.mon) hstop) (show (-1 : Int) < 0 by decide)

/-! ## The calendar's times -/

theorem gmtime_shows (t : Nat) :
    Shows (gmtime t) (dayOf t) (t % 86400 / 3600) (t % 3600 / 60) (t % 60) :=
  ⟨rfl, rfl, rfl, rfl, rfl, rfl⟩

theorem before2100_dayOf {t : Nat} (h : t < 4107542400) : Before2100 (dayOf t) := by
  have hnum := dayNumber_dayOf t
  by_contra hlate
  unfold Before2100 at hlate
  have h2100 := beforeYear_eq (show 1970 ≤ 2100 by omega)
  unfold dayNumber at hnum
  by_cases hyear : (dayOf t).year = 2100
  · have hmonth := @beforeMonth_add_le 2100 1 (dayOf t).month (by omega)
    have hfeb : beforeMonth 2100 1 + monthLen 2100 1 = 59 := by decide
    rw [hyear] at hnum
    omega
  · have hbefore := @beforeYear_add_le 2100 (dayOf t).year (by omega) (by omega)
    have hlen : yearLen 2100 = 365 := by decide
    omega

theorem year_lt_2070 {t : Nat} (h : t < 3155760000) : (dayOf t).year < 2070 := by
  have hnum := dayNumber_dayOf t
  by_contra hlate
  have h2070 := beforeYear_eq (show 1970 ≤ 2070 by omega)
  unfold dayNumber at hnum
  rcases Nat.eq_or_lt_of_le (Nat.not_lt.mp hlate) with hyear | hyear
  · rw [← hyear] at hnum
    omega
  · have hbefore := @beforeYear_add_le 2070 (dayOf t).year (by omega) hyear
    omega

theorem printable_gmtime {t : Nat} (h : t < 4107542400) {zone : Text}
    (hzone : zone ≠ [] ∧ zone.length < 128 ∧ ∀ c ∈ zone, wordBlank c = false) :
    Printable (gmtime t) zone := by
  obtain ⟨hy, hm, hf, hl⟩ := valid_dayOf t
  have hlen := Nat.le_trans hl (monthLen_le _ _)
  have hbefore := before2100_dayOf h
  unfold Before2100 at hbefore
  constructor
  case zone => exact hzone
  all_goals
    unfold gmtime
    dsimp only [INT_MAX, weekday]
    omega

/-- The clock of fields that are those of a time. -/
theorem Timegm_dayOf {t : Nat} (h : t < 4107542400) {tm : Tm}
    (hshows : Shows tm (dayOf t) (t % 86400 / 3600) (t % 3600 / 60) (t % 60)) :
    Timegm tm = some (t : Int) := by
  have hd := valid_dayOf t
  rw [Timegm_eq hd hshows, (surplus_eq_zero_iff hd).mpr (before2100_dayOf h), seconds_dayOf]
  rfl

/-- The years of two digits are those from 1970 to 2069. -/
theorem year2internal_cyear {year : Int} (hl : 70 ≤ year) (hh : year < 170) :
    year2internal (cyear year) = year := by
  rw [cyear, Int.tmod_eq_emod_of_nonneg (by omega), year2internal]
  split
  · omega
  · split <;> omega

/-! ## Formats of dates -/

theorem RFC822_eq : TIMEFORM_RFC822 = ['%', 'a', ',', ' ', '%', 'd', ' ', '%', 'b', ' ', '%', 'Y',
    ' ', '%', 'H', ':', '%', 'M', ':', '%', 'S', ' ', '%', 'z'] :=
  rfl

theorem RFC850_eq : TIMEFORM_RFC850 = ['%', 'A', ',', ' ', '%', 'd', '-', '%', 'b', '-', '%', 'y',
    ' ', '%', 'H', ':', '%', 'M', ':', '%', 'S', ' ', '%', 'z'] :=
  rfl

theorem ANSI_C_eq : TIMEFORM_ANSI_C = ['%', 'a', ' ', '%', 'b', ' ', '%', 'd', ' ', '%', 'H', ':',
    '%', 'M', ':', '%', 'S', ' ', '%', 'Y'] :=
  rfl

theorem USENET_eq : TIMEFORM_USENET = ['%', 'd', ' ', '%', 'b', ' ', '%', 'Y', ' ', '%', 'H', ':',
    '%', 'M', ':', '%', 'S', ' ', '%', 'z'] :=
  rfl

theorem spaced_RFC822 : Spaced TIMEFORM_RFC822 := by
  rw [RFC822_eq]
  simp [Spaced, directives, blank, wordBlank]

theorem spaced_RFC850 : Spaced TIMEFORM_RFC850 := by
  rw [RFC850_eq]
  simp [Spaced, directives, blank, wordBlank]

theorem spaced_ANSI_C : Spaced TIMEFORM_ANSI_C := by
  rw [ANSI_C_eq]
  simp [Spaced, directives, blank, wordBlank]

theorem spaced_USENET : Spaced TIMEFORM_USENET := by
  rw [USENET_eq]
  simp [Spaced, directives, blank, wordBlank]

/-! ## Dates in Greenwich -/

section

variable {L : Libc} {off : Int} {usecond t : Nat}

theorem zone_GMT : "GMT".toList ≠ [] ∧ "GMT".toList.length < 128 ∧
    ∀ c ∈ "GMT".toList, wordBlank c = false := by
  simp [wordBlank]

theorem Strftime0_eq {fmt zone : Text} {tm : Tm} (h : Printable tm zone) :
    Strftime0 L fmt tm usecond zone = Strftime0.put L tm usecond zone none fmt := by
  have hmon := h.mon
  have hwday := h.wday
  unfold Strftime0
  rw [if_neg (by omega)]
  dsimp only
  rw [if_neg (by omega)]

/-- A date that was printed with a format is the time that its fields show. -/
theorem scanftime_printed {fmt zone : Text} {tm : Tm} (h : Printable tm zone) (hf : Spaced fmt)
    {f : Fields} (hread : Fields.start.readBack tm zone fmt = f) :
    scanftime off (Strftime0 L fmt tm usecond zone) fmt =
      match f.tm with
      | none => some (-1)
      | some tm => (if f.localzone then Timelocal off tm else Timegm tm).map (unzoned f.zone) := by
  refine scanftime_eq ?_
  rw [← hread]
  exact @along_read L _ usecond _ h fmt hf (.start (Strftime0 L fmt tm usecond zone))
    (Strftime0_eq h) rfl

theorem tm_of_nonneg {f : Fields} (hwhole : f.isPartial = false) (hyear : 0 ≤ f.year)
    (hmon : 0 ≤ f.mon) (hmday : 0 ≤ f.mday) (hhour : 0 ≤ f.hour) (hmin : 0 ≤ f.min)
    (hsec : 0 ≤ f.sec) : f.tm = some ⟨f.sec, f.min, f.hour, f.mday, f.mon, f.year, 0, 0⟩ := by
  unfold Fields.tm
  rw [hwhole, if_neg (by simp), if_neg (by omega)]

theorem unzoned_of_no_sign {zone : Text} (hp : zone.head? ≠ some '+') (hm : zone.head? ≠ some '-')
    (clock : Int) : unzoned zone clock = clock := by
  unfold unzoned
  split
  · split
    · exact (hp ‹_›).elim
    · exact (hm ‹_›).elim
    · rfl
  · rfl

/-- The fields that a format with the whole date reads. -/
def dateFields (tm : Tm) (zone : Text) : Fields :=
  ⟨tm.tm_year, tm.tm_mon, tm.tm_mday, tm.tm_hour, tm.tm_min, tm.tm_sec, zone, false, false⟩

/-- `Timegm` does not look at the days of the week and of the year. -/
theorem Timegm_fields (tm : Tm) :
    Timegm ⟨tm.tm_sec, tm.tm_min, tm.tm_hour, tm.tm_mday, tm.tm_mon, tm.tm_year, 0, 0⟩ = Timegm tm :=
  rfl

theorem scanftime_date {fmt zone z : Text} {tm : Tm} (h : Printable tm zone) (hf : Spaced fmt)
    (hread : Fields.start.readBack tm zone fmt = dateFields tm z) :
    scanftime off (Strftime0 L fmt tm usecond zone) fmt = (Timegm tm).map (unzoned z) := by
  rw [scanftime_printed h hf hread, tm_of_nonneg rfl h.year.1 h.mon.1 h.mday.1 h.hour.1 h.min.1
    h.sec.1, ← Timegm_fields]
  rfl

theorem scanftime_hit (h : t < 4107542400) {fmt z : Text} (hf : Spaced fmt)
    (hread : Fields.start.readBack (gmtime t) "GMT".toList fmt = dateFields (gmtime t) z)
    (hp : z.head? ≠ some '+') (hm : z.head? ≠ some '-') :
    scanftime off (StrftimeGMT L fmt t usecond) fmt = some (t : Int) := by
  have hdate := @scanftime_date L off usecond _ _ _ _ (printable_gmtime h zone_GMT) hf hread
  rw [StrftimeGMT, hdate, Timegm_dayOf h (gmtime_shows t), Option.map_some,
    unzoned_of_no_sign hp hm]

theorem readBack_RFC822 (tm : Tm) (zone : Text) :
    Fields.start.readBack tm zone TIMEFORM_RFC822 = dateFields tm zone := by
  rw [RFC822_eq]
  rfl

theorem scanftime_RFC822 (h : t < 4107542400) :
    scanftime off (StrftimeGMT L TIMEFORM_RFC822 t usecond) TIMEFORM_RFC822 = some (t : Int) := by
  exact @scanftime_hit L off usecond t h _ "GMT".toList spaced_RFC822 (readBack_RFC822 _ _) (by simp)
    (by simp)

theorem scanftime_ANSI_C (h : t < 4107542400) :
    scanftime off (StrftimeGMT L TIMEFORM_ANSI_C t usecond) TIMEFORM_ANSI_C = some (t : Int) := by
  refine @scanftime_hit L off usecond t h _ [] spaced_ANSI_C ?_ (by simp) (by simp)
  rw [ANSI_C_eq]
  rfl

theorem scanftime_USENET (h : t < 4107542400) :
    scanftime off (StrftimeGMT L TIMEFORM_USENET t usecond) TIMEFORM_USENET = some (t : Int) := by
  refine @scanftime_hit L off usecond t h _ "GMT".toList spaced_USENET ?_ (by simp) (by simp)
  rw [USENET_eq]
  rfl

theorem scanftime_RFC850 (h : t < 3155760000) :
    scanftime off (StrftimeGMT L TIMEFORM_RFC850 t usecond) TIMEFORM_RFC850 = some (t : Int) := by
  have hyear : year2internal (cyear (gmtime t).tm_year) = (gmtime t).tm_year := by
    have hlate := year_lt_2070 h
    have hearly := (valid_dayOf t).year
    refine year2internal_cyear ?_ ?_
    · change 70 ≤ ((dayOf t).year : Int) - 1900
      omega
    · change ((dayOf t).year : Int) - 1900 < 170
      omega
  refine @scanftime_hit L off usecond t (by omega) _ "GMT".toList spaced_RFC850 ?_ (by simp) (by simp)
  rw [RFC850_eq, dateFields, ← hyear]
  rfl

theorem ends_of_head {x : Char} {rest : Text} (h : x.isAlphanum = false) : Ends (x :: rest) := by
  simpa [Ends] using h

theorem isAlpha_of_isDigit {x : Char} (h : x.isDigit = true) : x.isAlpha = false := by
  simp only [Char.isDigit, Bool.and_eq_true, decide_eq_true_eq, ge_iff_le,
    UInt32.le_iff_toNat_le] at h
  change 48 ≤ x.toNat ∧ x.toNat ≤ 57 at h
  simp only [Char.isAlpha, Char.isUpper, Char.isLower, Bool.or_eq_false_iff, Bool.and_eq_false_iff,
    decide_eq_false_iff_not, ge_iff_le, UInt32.le_iff_toNat_le]
  change ¬(65 ≤ x.toNat ∧ x.toNat ≤ 90) ∧ (¬97 ≤ x.toNat ∨ ¬x.toNat ≤ 122)
  omega

theorem montoi_nil : montoi [] = -1 := by
  simp [montoi, Month, List.idxOf?, List.findIdx?_cons]

theorem awordscan_of_not_alpha {x : Char} {s : Text} (h : x.isAlpha = false) :
    awordscan (x :: s) = ([], x :: s) := by
  have := @awordscan_append [] (x :: s) (by simp) (by simp) (by simpa using h)
  simpa

theorem awordscan_sprint02d (n : Int) (s : Text) :
    awordscan (sprint02d n ++ s) = ([], sprint02d n ++ s) := by
  exact awordscan_of_not_alpha (isAlpha_of_isDigit (isDigit_digit _))

theorem dropWhile_sprint02d (n : Int) (s : Text) :
    (sprint02d n ++ s).dropWhile blank = sprint02d n ++ s := by
  obtain ⟨x, r, heq, hx⟩ := head_sprint02d n
  rw [heq, List.cons_append, List.dropWhile_cons, hx, if_neg (by decide)]

/-- The date with dashes is not read by the format with blanks. -/
theorem scanftime_dashes (h : t < 4107542400) :
    scanftime off (StrftimeGMT L TIMEFORM_RFC850 t usecond) TIMEFORM_RFC822 = some (-1) := by
  have hprint := printable_gmtime h zone_GMT
  refine scanftime_of_mon ?_
  rw [StrftimeGMT, Strftime0_eq hprint, RFC850_eq, put_directive (by decide), put_char (by decide),
    put_char (by decide), put_directive (by decide), put_char (by decide)]
  generalize Strftime0.put L (gmtime t) usecond "GMT".toList none _ = r
  have hword := @awordscan_WDays _ _ hprint (',' :: ' ' :: (sprint02d (gmtime t).tm_mday ++ '-' :: r))
    (ends_of_head (by decide))
  have hmday := @scanint_sprint02d _ hprint.mday.1 hprint.mday.2 ('-' :: r) (by simp)
  rw [RFC822_eq, Scanning.along_step rfl, Scanning.along_match (by decide) (by decide) _ hword,
    Scanning.along_blank (by decide), Scanning.along_step rfl, Scanning.along_blank (by decide),
    Scanning.along_step rfl, Scanning.along_mon (by simp [codes])]
  dsimp only
  rw [List.dropWhile_cons, if_pos (by decide), dropWhile_sprint02d, hmday, List.dropWhile_cons,
    if_neg (by decide), awordscan_of_not_alpha (by decide), montoi_nil]
  decide

/-- A text without a comma after its first word is not read by the formats with one. -/
theorem scanftime_no_comma {stime : Text} (h : (awordscan stime).2.head? ≠ some ',') :
    scanftime off stime TIMEFORM_RFC822 = some (-1) ∧
      scanftime off stime TIMEFORM_RFC850 = some (-1) := by
  rw [RFC822_eq, RFC850_eq]
  exact ⟨(scanftime_comma h).1, (scanftime_comma h).2⟩

theorem no_comma_ANSI_C (h : t < 4107542400) :
    (awordscan (StrftimeGMT L TIMEFORM_ANSI_C t usecond)).2.head? ≠ some ',' := by
  have hprint := printable_gmtime h zone_GMT
  rw [StrftimeGMT, Strftime0_eq hprint, ANSI_C_eq, put_directive (by decide), put_char (by decide)]
  generalize Strftime0.put L (gmtime t) usecond "GMT".toList none _ = r
  have hword := @awordscan_Wdays _ _ hprint (' ' :: r) (ends_of_head (by decide))
  change (awordscan (sched.Wdays.getD (gmtime t).tm_wday.toNat [] ++ ' ' :: r)).2.head? ≠ some ','
  rw [hword]
  simp

/-- The text of the format of news begins with the day of the month. -/
theorem USENET_text (h : t < 4107542400) : ∃ r, StrftimeGMT L TIMEFORM_USENET t usecond =
    sprint02d (gmtime t).tm_mday ++ ' ' :: (Month.getD (gmtime t).tm_mon.toNat [] ++ ' ' :: r) := by
  have hprint := printable_gmtime h zone_GMT
  rw [StrftimeGMT, Strftime0_eq hprint, USENET_eq, put_directive (by decide), put_char (by decide),
    put_directive (by decide), put_char (by decide)]
  exact ⟨_, rfl⟩

theorem no_comma_USENET (h : t < 4107542400) :
    (awordscan (StrftimeGMT L TIMEFORM_USENET t usecond)).2.head? ≠ some ',' := by
  obtain ⟨r, heq⟩ := @USENET_text L usecond t h
  rw [heq, awordscan_sprint02d]
  intro hc
  have hdigit := isDigit_digit ((gmtime t).tm_mday / 10)
  simp only [sprint02d, List.cons_append, List.head?_cons, Option.some.injEq] at hc
  rw [hc] at hdigit
  cases hdigit

/-- The date that begins with a number is not read by the format that begins with two words. -/
theorem scanftime_number (h : t < 4107542400) :
    scanftime off (StrftimeGMT L TIMEFORM_USENET t usecond) TIMEFORM_ANSI_C = some (-1) := by
  obtain ⟨r, heq⟩ := @USENET_text L usecond t h
  refine scanftime_of_mon ?_
  rw [heq, ANSI_C_eq, Scanning.along_step rfl, Scanning.along_blank (by decide),
    Scanning.along_step rfl, Scanning.along_mon (by simp [codes])]
  dsimp only [Scanning.start]
  rw [awordscan_sprint02d, dropWhile_sprint02d, awordscan_sprint02d, montoi_nil]
  decide

theorem firstOf_hit {stime fmt : Text} {fmts : List Text} {n : Nat}
    (h : scanftime off stime fmt = some (n : Int)) :
    firstOf off stime (fmt :: fmts) = some (n : Int) := by
  rw [firstOf, h, Option.bind_eq_bind, Option.bind_some, if_pos (Int.natCast_nonneg n)]
  rfl

theorem firstOf_miss {stime fmt : Text} {fmts : List Text}
    (h : scanftime off stime fmt = some (-1)) :
    firstOf off stime (fmt :: fmts) = firstOf off stime fmts := by
  rw [firstOf, h, Option.bind_eq_bind, Option.bind_some, if_neg (by decide)]

/-! ## The scanners -/

theorem first_RFC822 (h : t < 4107542400) (fmts : List Text) :
    firstOf off (StrftimeGMT L TIMEFORM_RFC822 t usecond) (TIMEFORM_RFC822 :: fmts) =
      some (t : Int) :=
  firstOf_hit (scanftime_RFC822 h)

theorem first_RFC850 (h : t < 3155760000) (fmts : List Text) :
    firstOf off (StrftimeGMT L TIMEFORM_RFC850 t usecond)
      (TIMEFORM_RFC822 :: TIMEFORM_RFC850 :: fmts) = some (t : Int) := by
  rw [firstOf_miss (scanftime_dashes (by omega))]
  exact firstOf_hit (scanftime_RFC850 h)

theorem first_ANSI_C (h : t < 4107542400) (fmts : List Text) :
    firstOf off (StrftimeGMT L TIMEFORM_ANSI_C t usecond)
      (TIMEFORM_RFC822 :: TIMEFORM_RFC850 :: TIMEFORM_ANSI_C :: fmts) = some (t : Int) := by
  obtain ⟨h822, h850⟩ := @scanftime_no_comma off _ (@no_comma_ANSI_C L usecond t h)
  rw [firstOf_miss h822, firstOf_miss h850]
  exact firstOf_hit (scanftime_ANSI_C h)

theorem first_USENET (h : t < 4107542400) (fmts : List Text) :
    firstOf off (StrftimeGMT L TIMEFORM_USENET t usecond)
      (TIMEFORM_RFC822 :: TIMEFORM_RFC850 :: TIMEFORM_ANSI_C :: TIMEFORM_USENET :: fmts) =
        some (t : Int) := by
  obtain ⟨h822, h850⟩ := @scanftime_no_comma off _ (@no_comma_USENET L usecond t h)
  rw [firstOf_miss h822, firstOf_miss h850, firstOf_miss (scanftime_number h)]
  exact firstOf_hit (scanftime_USENET h)

/-! ## Fourteen digits -/

theorem GOPHER_eq : TIMEFORM_GOPHER = ['%', 'Y', '%', 'm', '%', 'd', '%', 'H', '%', 'M', '%', 'S'] :=
  rfl

theorem atoi_sprint02d {n : Int} (h0 : 0 ≤ n) (h : n < 100) :
    atoi [digit (n / 10), digit n] = n := by
  have hds : ∀ c ∈ [digit (n / 10), digit n], c.isDigit = true := by
    intro c hc
    simp only [List.mem_cons, List.not_mem_nil, or_false] at hc
    rcases hc with rfl | rfl <;> exact isDigit_digit _
  rw [atoi_digits hds (by simp), digit, digit,
    Nat.ofDigitChars_cons_digitChar_of_lt_ten (by omega),
    Nat.ofDigitChars_cons_digitChar_of_lt_ten (by omega), Nat.ofDigitChars_nil,
    toInt32_of_range (by omega) (by omega)]
  omega

/-- A year of four digits is two numbers of two digits. -/
theorem decInt_year {year : Int} (hl : 1000 ≤ year) (hh : year < 10000) :
    decInt year = sprint02d (year / 100) ++ sprint02d (year % 100) := by
  obtain ⟨n, rfl⟩ : ∃ n : Nat, year = n := ⟨year.toNat, by omega⟩
  rw [decInt_of_nonneg (by omega), Int.toNat_natCast, dec,
    Nat.toDigits_of_base_le (by omega) (by omega), Nat.toDigits_of_base_le (by omega) (by omega),
    Nat.toDigits_of_base_le (by omega) (by omega), Nat.toDigits_of_lt_base (by omega)]
  unfold sprint02d digit
  simp only [List.cons_append, List.nil_append, List.cons.injEq, and_true]
  refine ⟨?_, ?_, ?_, ?_⟩ <;> congr 1 <;> omega

/-- The leap days that the C library counts before a year. -/
theorem leaps_eq {y : Nat} (hy : 1970 ≤ y) :
    ((y : Int) - 1) / 4 - ((y : Int) - 1) / 100 + ((y : Int) - 1) / 400 - 477 =
      beforeYear y - 365 * ((y : Int) - 1970) := by
  have hyear := beforeYear_eq hy
  obtain ⟨n, rfl⟩ : ∃ n, y = n + 1 := ⟨y - 1, by omega⟩
  have hle : n / 100 ≤ n / 4 := Nat.div_le_div_left (by simp) (by simp)
  have h4 : (n : Int) / 4 = (n / 4 : Nat) := by simp
  have h100 : (n : Int) / 100 = (n / 100 : Nat) := by simp
  have h400 : (n : Int) / 400 = (n / 400 : Nat) := by simp
  rw [Nat.add_sub_cancel] at hyear
  push_cast
  rw [add_sub_cancel_right, h4, h100, h400]
  generalize n / 4 = a at hyear hle ⊢
  generalize n / 100 = b at hyear hle ⊢
  generalize n / 400 = c at hyear ⊢
  omega

/-- `timegm` of the C library counts the seconds of the calendar. -/
theorem timegm_eq {tm : Tm} {d : Date} (hd : Valid d) {hour min sec : Nat}
    (h : Shows tm d hour min sec) : timegm tm = seconds d hour min sec := by
  obtain ⟨hy, hm, hf, -⟩ := hd
  have hmon := @beforeMonth_eq d.year d.month hm
  have hmod : ((d.month : Int) % 12).toNat = d.month := by omega
  have hdiv : (d.month : Int) / 12 = 0 := by omega
  have hsame : (d.year : Int) - 1900 + 1900 + 0 = d.year := by omega
  have hleap : (1 < d.month ∧ (d.year : Int) % 4 = 0 ∧
      ((d.year : Int) % 100 ≠ 0 ∨ (d.year : Int) % 400 = 0)) ↔ 1 < d.month ∧ Leap d.year := by
    unfold Leap
    omega
  unfold timegm seconds dayNumber
  rw [h.year, h.mon, h.mday, h.hour, h.min, h.sec]
  dsimp only
  rw [hdiv, hmod, hsame, yday_base_eq hm, hmon]
  simp only [hleap]
  generalize [0, 31, 59, 90, 120, 151, 181, 212, 243, 273, 304, 334].getD d.month 0 = base
  rw [leaps_eq hy]
  clear hmod hdiv hsame hleap hmon
  split
  · push_cast
    omega
  · push_cast
    omega

theorem scanYmdHMS_GOPHER (h : t < 4107542400) :
    scanYmdHMS_GMT (StrftimeGMT L TIMEFORM_GOPHER t usecond) = (t : Int) := by
  have hprint := printable_gmtime h zone_GMT
  have hmon := hprint.mon
  have hyear : 1970 ≤ (gmtime t).tm_year + 1900 ∧ (gmtime t).tm_year + 1900 < 10000 := by
    have hearly := (valid_dayOf t).year
    have hlate := before2100_dayOf h
    unfold Before2100 at hlate
    unfold gmtime
    dsimp only
    omega
  have htext : StrftimeGMT L TIMEFORM_GOPHER t usecond =
      sprint02d (((gmtime t).tm_year + 1900) / 100) ++
      sprint02d (((gmtime t).tm_year + 1900) % 100) ++ sprint02d ((gmtime t).tm_mon + 1) ++
      sprint02d (gmtime t).tm_mday ++ sprint02d (gmtime t).tm_hour ++
      sprint02d (gmtime t).tm_min ++ sprint02d (gmtime t).tm_sec := by
    rw [StrftimeGMT, Strftime0_eq hprint, GOPHER_eq, put_directive (by decide),
      put_directive (by decide), put_directive (by decide), put_directive (by decide),
      put_directive (by decide), put_directive (by decide), ← decInt_year (by omega) (by omega)]
    simp only [List.append_assoc]
    rfl
  have hc := @atoi_sprint02d (((gmtime t).tm_year + 1900) / 100) (by omega) (by omega)
  have hy := @atoi_sprint02d (((gmtime t).tm_year + 1900) % 100) (by omega) (by omega)
  have hm := @atoi_sprint02d ((gmtime t).tm_mon + 1) (by omega) (by omega)
  rw [htext]
  unfold sprint02d scanYmdHMS_GMT
  simp only [List.cons_append, List.nil_append, scanYmdHMS_GMT.pairs, hc, hy, hm,
    atoi_sprint02d hprint.mday.1 hprint.mday.2, atoi_sprint02d hprint.hour.1 hprint.hour.2,
    atoi_sprint02d hprint.min.1 hprint.min.2, atoi_sprint02d hprint.sec.1 hprint.sec.2]
  have hshows : Shows (gmtime t) (dayOf t) (t % 86400 / 3600) (t % 3600 / 60) (t % 60) :=
    gmtime_shows t
  rw [@timegm_eq _ (dayOf t) (valid_dayOf t) (t % 86400 / 3600) (t % 3600 / 60) (t % 60),
    seconds_dayOf]
  refine ⟨?_, ?_, hshows.mday, hshows.hour, hshows.min, hshows.sec⟩
  · have := hshows.year
    dsimp only
    omega
  · have := hshows.mon
    dsimp only
    omega

end

/-- Dates in Greenwich are read as the time that was printed. -/
theorem scan_StrftimeGMT (L : Libc) (off : Int) (usecond t : Nat) :
    (t < 4107542400 →
      scanHTTPtime off (StrftimeGMT L TIMEFORM_RFC822 t usecond) = some (t : Int) ∧
      scanHTTPtime off (StrftimeGMT L TIMEFORM_ANSI_C t usecond) = some (t : Int)) ∧
    (t < 3155760000 →
      scanHTTPtime off (StrftimeGMT L TIMEFORM_RFC850 t usecond) = some (t : Int) ∧
      scanNNTPtime off (StrftimeGMT L TIMEFORM_RFC822 t usecond) = some (t : Int) ∧
      scanNNTPtime off (StrftimeGMT L TIMEFORM_RFC850 t usecond) = some (t : Int) ∧
      scanNNTPtime off (StrftimeGMT L TIMEFORM_USENET t usecond) = some (t : Int) ∧
      scanYmdHMS_GMT (StrftimeGMT L TIMEFORM_GOPHER t usecond) = (t : Int)) := by
  refine ⟨fun h => ⟨first_RFC822 h _, first_ANSI_C h _⟩, fun h => ?_⟩
  have hlate : t < 4107542400 := by omega
  exact ⟨first_RFC850 h _, first_RFC822 hlate _, first_RFC850 h _, first_USENET hlate _,
    scanYmdHMS_GOPHER hlate⟩

/-- The sixth of November 1994, 08:49:37. -/
theorem scan_StrftimeGMT_1994 :
    scanHTTPtime 0 (StrftimeGMT ⟨fun _ _ => [], fun _ _ => [], 0⟩ TIMEFORM_RFC850 784111777 0) =
      some ((784111777 : Nat) : Int) :=
  ((scan_StrftimeGMT ⟨fun _ _ => [], fun _ _ => [], 0⟩ 0 0 784111777).2 (by decide)).1

end delegate.strftime
