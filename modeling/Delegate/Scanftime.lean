-- Texts as times: `scanftimeX`, which reads a text along a format, and the
-- scanners that try several formats (rary/Strftime.cpp).
import Delegate.Strftime
import Delegate.StringScan

open calendar ctext delegate.string

namespace delegate.strftime

/-! ## Names -/

def montoi (mon : Text) : Int :=
  match Month.idxOf? mon with
  | some i => i
  | none => -1

/-- `Montoi`: the first three letters, in either case. -/
def Montoi (mon : Text) : Int :=
  match Month.findIdx? fun mo => strcaseeq mo (mon.take 3) with
  | some i => i
  | none => -1

def year2internal (year : Int) : Int :=
  if 0 ≤ year ∧ year < 70 then year + 100
  else if 1900 ≤ year then year - 1900
  else year

/-! ## The scanner -/

/-- What `scanftimeX` has read: the fields, which are -1 as long as they are not read, the zone, is
the zone local, and may the time be partial. -/
structure Fields where
  year : Int
  mon : Int
  mday : Int
  hour : Int
  min : Int
  sec : Int
  zone : Text
  localzone : Bool
  isPartial : Bool
  deriving DecidableEq

/-- The text that is left, and the text from the year on, if the year is to be made canonical. -/
structure Scanning extends Fields where
  sp : Text
  yyp : Option Text
  deriving DecidableEq

def Fields.start : Fields := ⟨-1, -1, -1, -1, -1, -1, [], false, false⟩

def Scanning.start (stime : Text) : Scanning := ⟨.start, stime, none⟩

/-- The year of the text. A partial time has no year between 1 and 31. -/
def Scanning.readYear (st : Scanning) (full : Bool) : Scanning :=
  let n := scanint st.sp
  { st with
    yyp := if (st.sp.head?.any Char.isDigit) ∧ atoi st.sp < 200 then some st.sp else st.yyp
    sp := n.2
    year := if st.isPartial ∧ full ∧ 1 ≤ n.1 ∧ n.1 ≤ 31 then -1 else year2internal n.1 }

/-- One directive. There is no result where the loop is left. -/
def Scanning.directive (st : Scanning) : Char → Option Scanning
  | 'P' => some { st with isPartial := true }
  | '%' => if st.sp.head? = some '%' then some { st with sp := st.sp.tail } else none
  | 'A' => some { st with sp := (awordscan st.sp).2 }
  | 'a' => some { st with sp := (awordscan st.sp).2 }
  | 'b' => some { st with sp := (awordscan st.sp).2, mon := montoi (awordscan st.sp).1 }
  | 'B' => some { st with sp := (awordscan st.sp).2, mon := Montoi (awordscan st.sp).1 }
  | 'd' => some { st with sp := (scanint st.sp).2, mday := (scanint st.sp).1 }
  | 'm' => some { st with sp := (scanint st.sp).2, mon := (scanint st.sp).1 - 1 }
  | 'z' => some { st with sp := (wordScan st.sp).2, zone := (wordScan st.sp).1 }
  | 'Z' =>
    let word := (wordScan st.sp).1
    some { st with
      sp := (wordScan st.sp).2
      zone := word
      localzone := st.localzone || (word != "GMT".toList && word != "UTC".toList) }
  | 'H' => some { st with sp := (scanint st.sp).2, hour := (scanint st.sp).1 }
  | 'M' => some { st with sp := (scanint st.sp).2, min := (scanint st.sp).1 }
  | 'S' => some { st with sp := (scanint st.sp).2, sec := (scanint st.sp).1 }
  | 'U' => some { st with sp := (awordscan st.sp).2 }
  | 'W' => some { st with sp := (awordscan st.sp).2 }
  | 'y' => some (st.readYear false)
  | 'Y' => some (st.readYear true)
  | _ => some st

def blank (ch : Char) : Bool := ch == ' ' || ch == '\t'

/-- The loop over the format. It is left at a character of the format that the text does not have. -/
def Scanning.along : Text → Scanning → Scanning
  | [], st => st
  | ['%'], st => st
  | '%' :: c :: fp, st =>
    match st.directive c with
    | some st => along fp st
    | none => st
  | ch :: fp, st =>
    if blank ch then along fp { st with sp := st.sp.dropWhile blank }
    else if st.sp.head? = some ch then along fp { st with sp := st.sp.tail }
    else st

theorem Scanning.along_char {ch : Char} (h : ch ≠ '%') (fp : Text) (st : Scanning) :
    along (ch :: fp) st =
      if blank ch then along fp { st with sp := st.sp.dropWhile blank }
      else if st.sp.head? = some ch then along fp { st with sp := st.sp.tail }
      else st := by
  rw [along]
  · exact fun hch _ => h hch
  · exact fun c fp hch _ => h hch

theorem Scanning.along_blank {ch : Char} (h : blank ch = true) (fp : Text) (st : Scanning) :
    along (ch :: fp) st = along fp { st with sp := st.sp.dropWhile blank } := by
  rw [along_char (by rintro rfl; cases h), if_pos h]

theorem Scanning.along_match {ch : Char} (h : ch ≠ '%') (hblank : blank ch = false) (fp : Text)
    {st : Scanning} {rest : Text} (hsp : st.sp = ch :: rest) :
    along (ch :: fp) st = along fp { st with sp := rest } := by
  rw [along_char h, hblank, if_neg (by decide), hsp, List.head?_cons, if_pos rfl, List.tail_cons]

theorem Scanning.along_stop {ch : Char} (h : ch ≠ '%') (hblank : blank ch = false) (fp : Text)
    {st : Scanning} (hsp : st.sp.head? ≠ some ch) : along (ch :: fp) st = st := by
  rw [along_char h, hblank, if_neg (by decide), if_neg hsp]

theorem Scanning.along_step {st st' : Scanning} {c : Char} (h : st.directive c = some st')
    (fp : Text) : along ('%' :: c :: fp) st = along fp st' := by
  rw [along, h]

/-- The directives of a format. -/
def codes : Text → List Char
  | '%' :: c :: fp => c :: codes fp
  | _ :: fp => codes fp
  | [] => []

theorem codes_char {ch : Char} (h : ch ≠ '%') (fp : Text) : codes (ch :: fp) = codes fp := by
  rw [codes]
  exact fun c fp hch _ => h hch

/-- What the directives of a format preserve, the whole scan preserves. -/
theorem Scanning.along_inv {P : Fields → Prop} {fmt : Text}
    (hstep : ∀ c ∈ codes fmt, ∀ st st' : Scanning, st.directive c = some st' → P st.toFields →
      P st'.toFields) {st : Scanning} (h : P st.toFields) : P (along fmt st).toFields := by
  induction fmt using codes.induct generalizing st with
  | case1 c fp ih =>
    rw [along]
    cases hd : st.directive c with
    | none => exact h
    | some st' =>
      exact ih (fun c' hc' => hstep c' (List.mem_cons_of_mem _ hc'))
        (hstep c (List.mem_cons_self ..) st st' hd h)
  | case2 ch fp hone ih =>
    by_cases hch : ch = '%'
    · cases fp with
      | nil => rw [hch]; exact h
      | cons c fp => exact (hone c fp hch rfl).elim
    · rw [codes_char hch] at hstep
      rw [along_char hch]
      split
      · exact ih hstep h
      · split
        · exact ih hstep h
        · exact h
  | case3 => exact h

/-- What a directive leaves as it is: each field has the directives that read it. -/
theorem Scanning.directive_keeps {st st' : Scanning} {c : Char} (h : st.directive c = some st') :
    (c ∉ ['b', 'B', 'm'] → st'.mon = st.mon) ∧ (c ∉ ['y', 'Y'] → st'.year = st.year) ∧
      (c ≠ 'd' → st'.mday = st.mday) ∧ (c ≠ 'H' → st'.hour = st.hour) ∧
      (c ≠ 'S' → st'.sec = st.sec) ∧ (c ≠ 'P' → st'.isPartial = st.isPartial) := by
  unfold directive at h
  split at h
  all_goals first
    | (cases h; simp [readYear])
    | (split at h <;> cases h; simp)

/-- The month stays as it is where no directive reads one. -/
theorem Scanning.along_mon {fmt : Text} (hf : ∀ c ∈ codes fmt, c ∉ ['b', 'B', 'm'])
    (st : Scanning) : (along fmt st).mon = st.mon :=
  @along_inv (fun f => f.mon = st.mon) fmt
    (fun c hc _ _ hd hmon => ((directive_keeps hd).1 (hf c hc)).trans hmon) st rfl

/-- The time that was read, unless a field is missing. -/
def Fields.tm (f : Fields) : Option Tm :=
  let orElse (field : Int) (value : Int) := if field < 0 then value else field
  if f.isPartial ∧ 0 < f.year ∧ 0 ≤ f.mon then
    some ⟨orElse f.sec 0, orElse f.min 0, orElse f.hour 0, orElse f.mday 1, f.mon, f.year, 0, 0⟩
  else if f.year < 0 ∨ f.mon < 0 ∨ f.mday < 0 ∨ f.hour < 0 ∨ f.min < 0 ∨ f.sec < 0 then none
  else some ⟨f.sec, f.min, f.hour, f.mday, f.mon, f.year, 0, 0⟩

/-- `Timelocal(tm)`, where `off` is the value of `Gmtoff()`. -/
def Timelocal (off : Int) (tm : Tm) : Option Int := (Timegm tm).map (· - off)

/-- The clock without the offset of its zone, which is an `int`. -/
def unzoned (zone : Text) (clock : Int) : Int :=
  if 0 ≤ clock then
    let off := atoi zone.tail
    let gmtoff := toInt32 (3600 * off.tdiv 100 + 60 * off.tmod 100)
    match zone.head? with
    | some '+' => clock - gmtoff
    | some '-' => clock + gmtoff
    | _ => clock
  else clock

/-- The text with a year of four digits. -/
def Scanning.canonYear (st : Scanning) (stime : Text) : Text :=
  match st.yyp with
  | some yyp =>
    stime.take (stime.length - yyp.length) ++ decInt (1900 + st.year) ++ yyp.dropWhile Char.isDigit
  | none => stime

/-- `scanftimeX`: the clock, and what becomes of the text. There is no result if `yday_base` is
indexed outside of its entries. -/
def scanftimeX (off : Int) (stime fmt : Text) (canon : Bool) : Option (Int × Text) :=
  let st := Scanning.along fmt (.start stime)
  match st.tm with
  | none => some (-1, stime)
  | some tm =>
    (if st.localzone then Timelocal off tm else Timegm tm).map fun clock =>
      (unzoned st.zone clock, if canon then st.canonYear stime else stime)

def scanftime (off : Int) (stime fmt : Text) : Option Int :=
  (scanftimeX off stime fmt false).map (·.1)

/-! ## Several formats -/

/-- The clock of the first format that gives one. -/
def firstOf (off : Int) (stime : Text) : List Text → Option Int
  | [] => some (-1)
  | fmt :: fmts => do
    let itime ← scanftime off stime fmt
    if 0 ≤ itime then return itime else firstOf off stime fmts

def scanHTTPtime (off : Int) (stime : Text) : Option Int :=
  firstOf off stime [TIMEFORM_RFC822, TIMEFORM_RFC850, TIMEFORM_ANSI_C]

def scanNNTPtime (off : Int) (stime : Text) : Option Int :=
  firstOf off stime [TIMEFORM_RFC822, TIMEFORM_RFC850, TIMEFORM_ANSI_C, TIMEFORM_USENET,
    TIMEFORM_RFC0, TIMEFORM_RFC1, TIMEFORM_RFC2, TIMEFORM_RFC3, TIMEFORM_RFC4]

/-- The numbers of two digits of a text, at most eight. -/
def scanYmdHMS_GMT.pairs : Nat → Text → List Int
  | n + 1, a :: b :: stime => atoi [a, b] :: pairs n stime
  | _, _ => []

def scanYmdHMS_GMT (stime : Text) : Int :=
  match scanYmdHMS_GMT.pairs 8 stime with
  | [c, y, mon, mday, hour, min, sec] =>
    timegm ⟨sec, min, hour, mday, mon - 1, c * 100 + y - 1900, 0, 0⟩
  | _ => -1

/-! ## Numbers that were printed -/

theorem isDigit_digit (n : Int) : (digit n).isDigit = true := by
  rw [digit, Nat.isDigit_digitChar, decide_eq_true_eq]
  omega

theorem scanint_sprint02d {n : Int} (h0 : 0 ≤ n) (h : n < 100) {rest : Text}
    (hrest : ∀ c ∈ rest.head?, c.isDigit = false) :
    scanint (sprint02d n ++ rest) = (n.toNat, rest) := by
  have hds : ∀ c ∈ sprint02d n, c.isDigit = true := by
    intro c hc
    simp only [sprint02d, List.mem_cons, List.not_mem_nil, or_false] at hc
    rcases hc with rfl | rfl <;> exact isDigit_digit _
  rw [scanint_append hds hrest, sprint02d, digit, digit,
    Nat.ofDigitChars_cons_digitChar_of_lt_ten (by omega),
    Nat.ofDigitChars_cons_digitChar_of_lt_ten (by omega), Nat.ofDigitChars_nil]
  simp only [INT_MAX, Prod.mk.injEq, and_true]
  omega

theorem decInt_of_nonneg {n : Int} (h : 0 ≤ n) : decInt n = dec n.toNat := by
  rw [decInt, if_neg (by omega)]
  congr 1
  omega

theorem scanint_dec {n : Nat} (h : n ≤ INT_MAX) {rest : Text}
    (hrest : ∀ c ∈ rest.head?, c.isDigit = false) : scanint (dec n ++ rest) = (n, rest) := by
  have hval : Nat.ofDigitChars 10 (dec n) 0 = n := Nat.ofDigitChars_ten_toDigits
  rw [scanint_append (fun c hc => isDigit_of_mem_dec hc) hrest, hval, Nat.min_eq_left h]

end delegate.strftime
