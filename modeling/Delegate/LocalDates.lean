-- Dates of local time: the text of the offset of a zone that `gmtoff` finds,
-- and how it is read back (rary/Strftime.cpp).
import Delegate.DateRoundTrip

open calendar ctext delegate.string

namespace delegate.strftime

/-! ## The search for the offset -/

/-- The texts of two times have the same name of the day and the same hour. -/
theorem asctime_inj {tm tm' : Tm} {zone : Text} (h : Printable tm zone) (h' : Printable tm' zone)
    (heq : asctime tm = asctime tm') :
    sched.Wdays.getD tm.tm_wday.toNat [] = sched.Wdays.getD tm'.tm_wday.toNat [] ∧
      sprint02d tm.tm_hour = sprint02d tm'.tm_hour := by
  have hlen : ∀ n : Int, 0 ≤ n → n < 100 → ((decInt n).leftpad 3 ' ').length = 3 := by
    intro n h0 h
    rw [List.length_leftpad, decInt_of_nonneg h0]
    have := @Nat.length_toDigits_le_iff 10 n.toNat 2 (by omega)
    unfold dec
    omega
  have hday := @Wdays_alpha tm.tm_wday.toNat (by have := h.wday; omega)
  have hday' := @Wdays_alpha tm'.tm_wday.toNat (by have := h'.wday; omega)
  have hmonth := @Month_alpha tm.tm_mon.toNat (by have := h.mon; omega)
  have hmonth' := @Month_alpha tm'.tm_mon.toNat (by have := h'.mon; omega)
  unfold asctime at heq
  simp only [List.append_assoc, List.cons_append] at heq
  obtain ⟨hname, hrest⟩ := List.append_inj heq (by rw [hday.2, hday'.2])
  obtain ⟨-, hrest⟩ := List.append_inj (List.cons.inj hrest).2 (by rw [hmonth.2.1, hmonth'.2.1])
  obtain ⟨-, hrest⟩ := List.append_inj hrest
    (by rw [hlen _ h.mday.1 h.mday.2, hlen _ h'.mday.1 h'.mday.2])
  exact ⟨hname, (List.append_inj (List.cons.inj hrest).2 rfl).1⟩

theorem Wdays_inj {i j : Nat} (hi : i < 7) (hj : j < 7)
    (h : sched.Wdays.getD i [] = sched.Wdays.getD j []) : i = j := by
  interval_cases i <;> interval_cases j <;> first | rfl | simp [sched.Wdays] at h

theorem sprint02d_inj {m n : Int} (hm0 : 0 ≤ m) (hm : m < 100) (hn0 : 0 ≤ n) (hn : n < 100)
    (h : sprint02d m = sprint02d n) : m = n := by
  have hmn := congrArg (fun s => (scanint (s ++ [])).1) h
  simp only [scanint_sprint02d hm0 hm (show ∀ c ∈ ([] : Text).head?, c.isDigit = false by simp),
    scanint_sprint02d hn0 hn (show ∀ c ∈ ([] : Text).head?, c.isDigit = false by simp)] at hmn
  omega

/-- Within twelve hours of the second of January 1970, the text of a time tells the hour. -/
theorem asctime_gmtime_inj {g g' : Int} (hg : -12 ≤ g ∧ g ≤ 12) (hg' : -12 ≤ g' ∧ g' ≤ 12)
    (h : asctime (gmtime (24 * 3600 + g * 3600).toNat) =
      asctime (gmtime (24 * 3600 + g' * 3600).toNat)) : g = g' := by
  have hprint := @printable_gmtime (24 * 3600 + g * 3600).toNat (by omega) _ zone_GMT
  have hprint' := @printable_gmtime (24 * 3600 + g' * 3600).toNat (by omega) _ zone_GMT
  obtain ⟨hname, hhour⟩ := asctime_inj hprint hprint' h
  have hwday := hprint.wday
  have hwday' := hprint'.wday
  have hday := Wdays_inj (by omega) (by omega) hname
  have hhour := sprint02d_inj hprint.hour.1 hprint.hour.2 hprint'.hour.1 hprint'.hour.2 hhour
  unfold gmtime weekday at hday hhour
  dsimp only at hday hhour
  omega

/-- The text of an offset of whole hours, as `gmtoff` prints it. -/
def offsetText (g : Int) : Text := (if 0 ≤ g then '+' else '-') :: dec04 (g * 100)

/-- The loop stops at the offset of the host. -/
theorem gmtoff.find_eq {h : Int} (hh : -12 ≤ h ∧ h ≤ 12) (n : Nat) (g : Int) (hlow : -12 ≤ g)
    (hle : g ≤ h) (hn : h - g < n) :
    gmtoff.find (asctime (gmtime (24 * 3600 + h * 3600).toNat)) n g = offsetText h := by
  induction n generalizing g with
  | zero => omega
  | succ n ih =>
    rw [find]
    by_cases heq : h = g
    · subst heq
      rw [if_pos rfl]
      rfl
    · rw [if_neg fun htext => heq (asctime_gmtime_inj hh ⟨hlow, by omega⟩ htext)]
      exact ih (g + 1) (by omega) (by omega) (by omega)

theorem gmtoff_eq {h : Int} (hh : -12 ≤ h ∧ h ≤ 12) : gmtoff (h * 3600) = offsetText h := by
  unfold gmtoff ctime localtime
  exact gmtoff.find_eq hh 25 (-12) (Int.le_refl _) hh.1 (by omega)

/-! ## The offset that is read back -/

theorem leftpad_digits (k n : Nat) : (∀ c ∈ (dec n).leftpad k '0', c.isDigit = true) ∧
    (dec n).leftpad k '0' ≠ [] ∧ Nat.ofDigitChars 10 ((dec n).leftpad k '0') 0 = n := by
  have hval : Nat.ofDigitChars 10 (dec n) 0 = n := Nat.ofDigitChars_ten_toDigits
  refine ⟨?_, ?_, ?_⟩
  · intro c hc
    rw [List.leftpad, List.mem_append] at hc
    rcases hc with hc | hc
    · rw [List.eq_of_mem_replicate hc]
      decide
    · exact isDigit_of_mem_dec hc
  · rw [List.leftpad]
    exact List.append_ne_nil_of_right_ne_nil _ (dec_ne_nil n)
  · rw [List.leftpad, Nat.ofDigitChars_append, Nat.ofDigitChars_replicate_zero, Nat.mul_zero, hval]

/-- The number that is read after the sign has its own sign. -/
theorem atoi_dec04 {z : Int} (hl : -2 ^ 31 < z) (hh : z < 2 ^ 31) : atoi (dec04 z) = z := by
  unfold dec04
  split
  · obtain ⟨hdigit, hne, hval⟩ := leftpad_digits 3 z.natAbs
    rw [atoi, strtol_minus_digits hdigit hne, hval]
    dsimp only
    rw [toInt32_of_range (by omega) (by omega)]
    omega
  · obtain ⟨hdigit, hne, hval⟩ := leftpad_digits 4 z.natAbs
    rw [atoi_digits hdigit hne, hval, toInt32_of_range (by omega) (by omega)]
    omega

/-- Both signs take the offset away. -/
theorem unzoned_offsetText {h : Int} (hh : -12 ≤ h ∧ h ≤ 12) {clock : Int} (hc : 0 ≤ clock) :
    unzoned (offsetText h) clock = clock - |h| * 3600 := by
  have hoff : toInt32 (3600 * (h * 100).tdiv 100 + 60 * (h * 100).tmod 100) = h * 3600 := by
    rw [Int.mul_tdiv_cancel _ (by decide), Int.mul_tmod_left, toInt32_of_range (by omega) (by omega)]
    omega
  unfold unzoned offsetText
  rw [if_pos hc, List.tail_cons, atoi_dec04 (by omega) (by omega)]
  dsimp only
  rw [hoff, List.head?_cons]
  by_cases hsign : 0 ≤ h
  · rw [if_pos hsign, abs_of_nonneg hsign]
    rfl
  · rw [if_neg hsign, abs_of_neg (by omega)]
    change clock + h * 3600 = _
    omega

theorem zone_offsetText {h : Int} (hh : -12 ≤ h ∧ h ≤ 12) : offsetText h ≠ [] ∧
    (offsetText h).length < 128 ∧ ∀ c ∈ offsetText h, wordBlank c = false := by
  have hlen : (dec (h * 100).natAbs).length ≤ 4 :=
    (Nat.length_toDigits_le_iff (by decide) (by decide)).mpr (by omega)
  have hdigit : ∀ k, ∀ c ∈ (dec (h * 100).natAbs).leftpad k '0', wordBlank c = false :=
    fun k c hc => wordBlank_of_isDigit ((leftpad_digits k _).1 c hc)
  unfold offsetText dec04
  refine ⟨by simp, ?_, ?_⟩
  · rw [List.length_cons]
    split <;> simp only [List.length_cons, List.length_leftpad] <;> omega
  · intro c hc
    by_cases hsign : 0 ≤ h
    · rw [if_pos hsign, if_neg (by omega), List.mem_cons] at hc
      rcases hc with rfl | hc
      · decide
      · exact hdigit 4 c hc
    · rw [if_neg hsign, if_pos (by omega), List.mem_cons, List.mem_cons] at hc
      rcases hc with rfl | rfl | hc
      · decide
      · decide
      · exact hdigit 3 c hc

/-! ## Local dates -/

/-- A date of local time that is scanned, where the offset is `h` hours. -/
theorem scan_local (L : Libc) (off : Int) (usecond : Nat) {h : Int} (hh : -12 ≤ h ∧ h ≤ 12) {t : Nat}
    (hl : 86400 ≤ t) (ht : t < 4107456000) :
    scanNNTPtime off (StrftimeLocal L (h * 3600) TIMEFORM_RFC822 t usecond) =
      some (t + h * 3600 - |h| * 3600) := by
  have hclock : (t + h * 3600).toNat < 4107542400 := by omega
  have hzone := zone_offsetText hh
  have hdate := @scanftime_date L off usecond _ _ _ _ (printable_gmtime hclock hzone) spaced_RFC822
    (readBack_RFC822 _ _)
  rw [Timegm_dayOf hclock (gmtime_shows _), Option.map_some,
    unzoned_offsetText hh (Int.natCast_nonneg _), Int.toNat_of_nonneg (by omega)] at hdate
  obtain ⟨n, hn⟩ : ∃ n : Nat, (t : Int) + h * 3600 - |h| * 3600 = n := by
    refine ⟨((t : Int) + h * 3600 - |h| * 3600).toNat, ?_⟩
    rcases abs_cases h with habs | habs <;> omega
  rw [hn] at hdate ⊢
  unfold StrftimeLocal
  rw [gmtoff_eq hh]
  exact firstOf_hit hdate

/-- The date of a host is read as the time that was printed just where the host is not west of
Greenwich. -/
theorem scan_StrftimeLocal_iff (L : Libc) (off : Int) (usecond : Nat) (h : Int) (t : Nat)
    (hh : -12 ≤ h ∧ h ≤ 12) (ht : 86400 ≤ t ∧ t < 4107456000) :
    scanNNTPtime off (StrftimeLocal L (h * 3600) TIMEFORM_RFC822 t usecond) = some (t : Int) ↔
      0 ≤ h := by
  rw [scan_local L off usecond hh ht.1 ht.2, Option.some.injEq]
  rcases abs_cases h with habs | habs <;> omega

/-- A host five hours west of Greenwich. -/
theorem scan_StrftimeLocal_west : ¬scanNNTPtime 0
    (StrftimeLocal ⟨fun _ _ => [], fun _ _ => [], 0⟩ (-5 * 3600) TIMEFORM_RFC822 784111777 0) =
      some ((784111777 : Nat) : Int) := by
  rw [scan_local _ 0 0 (by decide) (by decide) (by decide)]
  decide

/-- A host nine hours east of Greenwich. -/
theorem scan_StrftimeLocal_east : scanNNTPtime 0
    (StrftimeLocal ⟨fun _ _ => [], fun _ _ => [], 0⟩ (9 * 3600) TIMEFORM_RFC822 784111777 0) =
      some ((784111777 : Nat) : Int) :=
  (scan_StrftimeLocal_iff ⟨fun _ _ => [], fun _ _ => [], 0⟩ 0 0 9 784111777 (by decide)
    (by decide)).mpr (by decide)

end delegate.strftime
