-- When the date that `canon_date` leaves is the date that it was given. The scanner tries
-- more formats than `canon_date`, and on the text with its blanks: the date is kept where
-- none of them gets past the year, or a format before them has the time.
import Delegate.CanonDate

open calendar ctext delegate.string

namespace delegate.strftime

/-! ## How far the other formats go -/

/-- The formats of times that may be partial, which only the scanner tries. -/
def partialFormats : List Text :=
  [TIMEFORM_RFC0, TIMEFORM_RFC1, TIMEFORM_RFC2, TIMEFORM_RFC3, TIMEFORM_RFC4]

theorem scanNNTPtime_eq (off : Int) (d : Text) :
    scanNNTPtime off d = firstOf off d (canonFormats ++ partialFormats) :=
  rfl

/-- The text that a format leaves. -/
def left (fmt s : Text) : Text := (Scanning.along fmt (.start s)).sp

theorem directive_sp (f f' : Fields) (sp : Text) (z z' : Option Text) (c : Char) :
    (Scanning.directive ⟨f', sp, z'⟩ c).map Scanning.sp =
      (Scanning.directive ⟨f, sp, z⟩ c).map Scanning.sp := by
  unfold Scanning.directive
  split
  case h_2 => by_cases hp : sp.head? = some '%' <;> simp [hp]
  all_goals rfl

theorem along_sp_congr (fmt : Text) {st st' : Scanning} (h : st'.sp = st.sp) :
    (Scanning.along fmt st').sp = (Scanning.along fmt st).sp := by
  obtain ⟨f, sp, z⟩ := st
  obtain ⟨f', sp', z'⟩ := st'
  dsimp only at h
  subst h
  induction fmt using codes.induct generalizing f f' sp' z z' with
  | case1 c fp ih =>
    have hsp := directive_sp f f' sp' z z' c
    rw [Scanning.along, Scanning.along]
    cases hd : Scanning.directive ⟨f, sp', z⟩ c with
    | none =>
      rw [hd, Option.map_none, Option.map_eq_none_iff] at hsp
      rw [hsp]
    | some s =>
      rw [hd, Option.map_some, Option.map_eq_some_iff] at hsp
      obtain ⟨s', hs', heq⟩ := hsp
      obtain ⟨g, sp, w⟩ := s
      obtain ⟨g', sp', w'⟩ := s'
      dsimp only at heq
      subst heq
      rw [hs']
      exact ih g w g' sp' w'
  | case2 ch fp hone ih =>
    by_cases hch : ch = '%'
    · cases fp with
      | nil =>
        rw [hch]
        rfl
      | cons c fp => exact (hone c fp hch rfl).elim
    · rw [Scanning.along_char hch, Scanning.along_char hch]
      dsimp only
      split
      · exact ih f z f' _ z'
      · split
        · exact ih f z f' _ z'
        · rfl
  | case3 => rfl

theorem along_sp (fmt : Text) (st : Scanning) : (Scanning.along fmt st).sp = left fmt st.sp :=
  along_sp_congr fmt rfl

@[simp] theorem left_nil (s : Text) : left [] s = s := rfl

@[simp] theorem left_a (fp s : Text) : left ('%' :: 'a' :: fp) s = left fp (awordscan s).2 :=
  along_sp fp _

@[simp] theorem left_b (fp s : Text) : left ('%' :: 'b' :: fp) s = left fp (awordscan s).2 :=
  along_sp fp _

@[simp] theorem left_B (fp s : Text) : left ('%' :: 'B' :: fp) s = left fp (awordscan s).2 :=
  along_sp fp _

@[simp] theorem left_d (fp s : Text) : left ('%' :: 'd' :: fp) s = left fp (scanint s).2 :=
  along_sp fp _

@[simp] theorem left_H (fp s : Text) : left ('%' :: 'H' :: fp) s = left fp (scanint s).2 :=
  along_sp fp _

@[simp] theorem left_Y (fp s : Text) : left ('%' :: 'Y' :: fp) s = left fp (scanint s).2 :=
  along_sp fp _

@[simp] theorem left_P (fp s : Text) : left ('%' :: 'P' :: fp) s = left fp s :=
  along_sp fp _

@[simp] theorem left_space (fp s : Text) : left (' ' :: fp) s = left fp (s.dropWhile blank) := by
  unfold left
  rw [Scanning.along_blank (by decide), along_sp]
  rfl

theorem left_stop {ch : Char} (h : ch ≠ '%') (hblank : blank ch = false) (fp : Text) {s : Text}
    (hs : s.head? ≠ some ch) : left (ch :: fp) s = s :=
  congrArg Scanning.sp (@Scanning.along_stop ch h hblank fp (.start s) hs)

theorem left_match {ch : Char} (h : ch ≠ '%') (hblank : blank ch = false) (fp s : Text) :
    left (ch :: fp) (ch :: s) = left fp s := by
  unfold left
  rw [Scanning.along_match h hblank fp rfl, along_sp]
  rfl

/-- The formats that can meet a date that is read as another one. -/
def otherFormats : List Text := TIMEFORM_ANSI_C :: TIMEFORM_USENET :: partialFormats

theorem RFC_eq : TIMEFORM_RFC0 = ['%', 'P', '%', 'B', ' ', '%', 'Y'] ∧
    TIMEFORM_RFC1 = ['%', 'P', '%', 'd', ' ', '%', 'B', ' ', '%', 'Y'] ∧
    TIMEFORM_RFC2 = ['%', 'P', '%', 'B', ' ', '%', 'd', ',', ' ', '%', 'Y'] ∧
    TIMEFORM_RFC3 = ['%', 'P', '%', 'B', ' ', '%', 'd', ' ', '%', 'Y'] ∧
    TIMEFORM_RFC4 = ['%', 'd', '/', '%', 'm', '/', '%', 'y'] :=
  ⟨rfl, rfl, rfl, rfl, rfl⟩

theorem otherFormats_digits {fmt : Text} (h : fmt ∈ otherFormats) : ∀ c ∈ fmt, c.isDigit = false := by
  obtain ⟨h0, h1, h2, h3, h4⟩ := RFC_eq
  simp only [otherFormats, partialFormats, List.mem_cons, List.not_mem_nil, or_false] at h
  rcases h with rfl | rfl | rfl | rfl | rfl | rfl | rfl
  · exact (canonFormats_plain (by simp [canonFormats])).1
  · exact (canonFormats_plain (by simp [canonFormats])).1
  · simp [h0]
  · simp [h1]
  · simp [h2]
  · simp [h3]
  · simp [h4]

/-- A format that stops before the year finds the same time. -/
theorem scanftime_untouched {off : Int} {fmt q y y' : Text} (hfmt : fmt ∈ otherFormats)
    (h : Numbered y) (h' : Numbered y') (hlen : y.length ≤ (left fmt (q ++ y)).length) :
    scanftime off (q ++ y') fmt = scanftime off (q ++ y) fmt := by
  have hsim : Sim y y' (.start (q ++ y)) (.start (q ++ y')) := ⟨rfl, q, rfl, rfl⟩
  exact scanftime_congr (along_sim h h' (otherFormats_digits hfmt) hsim hlen).fields

/-- How a date begins, and what is left of it before its year `y`: a word and a comma, two words, or
a number and a word. -/
inductive Shape (T y : Text) : Prop
  | comma (r : Text) (number : scanint T = (0, T)) (word : (awordscan T).2 = ',' :: r)
      (behind : y.length ≤ (scanint (r.dropWhile blank)).2.length)
  | words (a : Char) (s : Text) (number : scanint T = (0, T))
      (word : (awordscan T).2.dropWhile blank = a :: s) (alpha : a.isAlpha = true)
      (behind : y.length ≤ s.length)
  | news (a : Char) (s : Text) (none : awordscan T = ([], T)) (word : newsMonth T = a :: s)
      (alpha : a.isAlpha = true) (behind : y.length ≤ s.length)

theorem behind_of_noted {fmt sp y : Text} {f : Fields} (hfmt : ∀ c ∈ fmt, c.isDigit = false)
    (hone : (codes fmt).countP isYear ≤ 1) (hP : 'P' ∉ codes fmt) (hwhole : f.isPartial = false)
    (hy : (Scanning.along fmt ⟨f, sp, none⟩).yyp = some y) : Numbered y ∧ ∃ p, sp = p ++ y := by
  obtain ⟨hnumber, -, -, p, hp, -⟩ := along_noted hfmt hone hP rfl hwhole hy
  exact ⟨hnumber, p, hp⟩

/-- A year does not begin with a letter. -/
theorem behind_alpha {a : Char} {s p y : Text} (ha : a.isAlpha = true) (hy : Numbered y)
    (h : a :: s = p ++ y) : y.length ≤ s.length := by
  cases p with
  | nil =>
    obtain ⟨c, r, rfl, hc⟩ := hy
    cases h
    rw [isDigit_of_isAlpha ha] at hc
    cases hc
  | cons b p =>
    cases h
    simp

theorem scanint_of_comma {T r : Text} (h : (awordscan T).2 = ',' :: r) : scanint T = (0, T) := by
  cases T with
  | nil => rfl
  | cons c s =>
    cases hc : c.isDigit with
    | false => exact scanint_cons hc s
    | true =>
      rw [awordscan_of_not_alpha (isAlpha_of_isDigit hc)] at h
      cases h
      cases hc

/-- There is no number before two words. -/
theorem scanint_of_word {T s : Text} {a : Char}
    (hs : (awordscan T).2.dropWhile blank = a :: s) (ha : a.isAlpha = true) :
    scanint T = (0, T) := by
  cases T with
  | nil => rfl
  | cons c t =>
    cases hd : c.isDigit with
    | false => exact scanint_cons hd t
    | true =>
      rw [awordscan_of_not_alpha (isAlpha_of_isDigit hd),
        dropWhile_blank_cons (blank_of_isDigit hd)] at hs
      cases hs
      rw [isDigit_of_isAlpha ha] at hd
      cases hd

theorem shape_of_complete {E T y : Text} (hT : Unblank T) (hE : E ∈ canonFormats)
    (hc : Complete E T) (hy : shortYear E T = some y)
    (hnews : E = TIMEFORM_USENET → T.head?.any Char.isDigit) : Shape T y := by
  unfold shortYear at hy
  simp only [canonFormats, List.mem_cons, List.not_mem_nil, or_false] at hE
  rcases hE with rfl | rfl | rfl | rfl
  · obtain ⟨r, mday, hr, -, halong⟩ := complete_RFC822 hc
    rw [halong] at hy
    obtain ⟨-, p, hp⟩ := behind_of_noted (by simp [RFC822_eq]) (by simp [RFC822_eq, codes, isYear])
      (by simp [RFC822_eq, codes]) rfl hy
    exact .comma r (scanint_of_comma hr) hr (by rw [hp]; simp)
  · obtain ⟨r, mday, hr, -, halong⟩ := complete_RFC850 hc
    rw [halong] at hy
    obtain ⟨-, p, hp⟩ := behind_of_noted (by simp [RFC850_eq]) (by simp [RFC850_eq, codes, isYear])
      (by simp [RFC850_eq, codes]) rfl hy
    exact .comma r (scanint_of_comma hr) hr (by rw [hp]; simp)
  · obtain ⟨hmon, halong⟩ := complete_ANSI_C hc
    obtain ⟨a, s, hs, ha⟩ := head_of_montoi hmon
    rw [halong] at hy
    obtain ⟨hnumber, p, hp⟩ := behind_of_noted (by simp [ANSI_C_eq])
      (by simp [ANSI_C_eq, codes, isYear]) (by simp [ANSI_C_eq, codes]) rfl hy
    exact .words a s (scanint_of_word hs ha) hs ha (behind_alpha ha hnumber (hs ▸ hp))
  · obtain ⟨hmon, -⟩ := complete_USENET hc
    obtain ⟨a, s, hs, ha⟩ := head_of_montoi hmon
    have halong : Scanning.along TIMEFORM_USENET (.start T) = Scanning.along
        (TIMEFORM_USENET.drop 3) ⟨{ Fields.start with mday := (scanint T).1 }, newsMonth T, none⟩ := by
      rw [USENET_eq, Scanning.along_step rfl, Scanning.along_blank (by decide)]
      rfl
    rw [halong] at hy
    obtain ⟨hnumber, p, hp⟩ := behind_of_noted (by simp [USENET_eq])
      (by simp [USENET_eq, codes, isYear]) (by simp [USENET_eq, codes]) rfl hy
    refine .news a s ?_ hs ha (behind_alpha ha hnumber (hs ▸ hp))
    have hdigit := hnews rfl
    cases T with
    | nil => cases hdigit
    | cons c t => exact awordscan_of_not_alpha (isAlpha_of_isDigit hdigit)

theorem awordscan_ne_nil {a : Char} (ha : a.isAlpha = true) (s : Text) :
    (awordscan (a :: s)).1 ≠ [] := by
  unfold awordscan
  rw [awordscanX, if_pos ha]
  exact List.cons_ne_nil a _

theorem dropWhile_of_unblank {T : Text} (hT : Unblank T) : T.dropWhile blank = T := by
  cases T with
  | nil => rfl
  | cons c t => exact dropWhile_blank_cons (hT c rfl) t

/-- What is read of a text that begins with neither a letter, nor a digit, nor a blank. -/
theorem read_mark {c : Char} (ha : c.isAlpha = false) (hd : c.isDigit = false)
    (hb : blank c = false) (r : Text) : awordscan (c :: r) = ([], c :: r) ∧
      scanint (c :: r) = (0, c :: r) ∧ (c :: r).dropWhile blank = c :: r :=
  ⟨awordscan_of_not_alpha ha, scanint_cons hd r, dropWhile_blank_cons hb r⟩

theorem read_letter {a : Char} (ha : a.isAlpha = true) (s : Text) :
    scanint (a :: s) = (0, a :: s) ∧ (a :: s).dropWhile blank = a :: s ∧
      ∀ c, c.isAlpha = false → (a :: s).head? ≠ some c := by
  refine ⟨scanint_cons (isDigit_of_isAlpha ha) s, dropWhile_blank_cons (blank_of_isAlpha ha) s, ?_⟩
  rintro c hc heq
  cases heq
  rw [ha] at hc
  cases hc

theorem eq_cons_of_head {s : Text} {c : Char} (h : s.head? = some c) : ∃ r, s = c :: r := by
  cases s with
  | nil => cases h
  | cons d r =>
    cases h
    exact ⟨r, rfl⟩

theorem length_dropWhile_le (s : Text) : (s.dropWhile blank).length ≤ s.length :=
  (List.dropWhile_suffix blank).length_le

theorem length_awordscan_le (s : Text) : (awordscan s).2.length ≤ s.length :=
  (awordscanX_suffix 128 s).length_le

theorem length_scanint_le (s : Text) : (scanint s).2.length ≤ s.length :=
  (scanint_suffix s).length_le

/-- No format of a partial time gets past the year of a date that begins with a word. -/
theorem left_partial {T y fmt : Text} (hT : Unblank T) (h : Shape T y) (hw : scanint T = (0, T))
    (hfmt : fmt ∈ partialFormats) : y.length ≤ (left fmt T).length := by
  obtain ⟨h0, h1, h2, h3, h4⟩ := RFC_eq
  have hskip := dropWhile_of_unblank hT
  have hword := length_awordscan_le T
  have hrest := length_dropWhile_le (awordscan T).2
  have hslash : T.head? ≠ some '/' := by
    intro hhead
    obtain ⟨t, rfl⟩ := eq_cons_of_head hhead
    obtain ⟨ha, hi, hb⟩ := @read_mark '/' (by decide) (by decide) (by decide) t
    cases h with
    | comma r number word behind =>
      rw [ha] at word
      cases word
    | words a s number word alpha behind =>
      rw [ha, hb] at word
      cases word
      cases alpha
    | news a s none word alpha behind =>
      unfold newsMonth at word
      rw [hi, hb] at word
      cases word
      cases alpha
  have hstop := @left_stop '/' (by decide) (by decide) ['%', 'm', '/', '%', 'y'] T hslash
  simp only [partialFormats, List.mem_cons, List.not_mem_nil, or_false] at hfmt
  cases h with
  | comma r number word behind =>
    obtain ⟨ha, hi, hb⟩ := @read_mark ',' (by decide) (by decide) (by decide) r
    have hcomma := @left_match ',' (by decide) (by decide) [' ', '%', 'Y'] r
    have hday := length_scanint_le (r.dropWhile blank)
    have hr := length_dropWhile_le r
    have hlen : y.length ≤ (',' :: r).length := by
      rw [List.length_cons]
      omega
    rcases hfmt with rfl | rfl | rfl | rfl | rfl
    · simpa [h0, word, hb, hi] using hlen
    · simpa [h1, word, hw, hskip, hb, hi] using hlen
    · simpa [h2, word, hb, hi, hcomma] using behind
    · simpa [h3, word, hb, hi] using hlen
    · rw [word] at hword
      rw [h4, left_d, hw, hstop]
      exact le_trans hlen hword
  | words a s number word alpha behind =>
    obtain ⟨hi, hb, hne⟩ := read_letter alpha s
    have hcomma := @left_stop ',' (by decide) (by decide) [' ', '%', 'Y'] _ (hne ',' (by decide))
    have hlen : y.length ≤ (a :: s).length := by
      rw [List.length_cons]
      omega
    rcases hfmt with rfl | rfl | rfl | rfl | rfl
    · simpa [h0, word, hi] using hlen
    · simpa [h1, word, hw, hskip, hi] using hlen
    · simpa [h2, word, hi, hcomma] using hlen
    · simpa [h3, word, hi, hb] using hlen
    · rw [word] at hrest
      rw [h4, left_d, hw, hstop]
      exact le_trans hlen (le_trans hrest hword)
  | news a s none word alpha behind =>
    unfold newsMonth at word
    rw [hw, hskip] at word
    have hne := awordscan_ne_nil alpha s
    rw [← word, none] at hne
    exact absurd rfl hne

/-- What is read of a date `d` that begins with a blank and goes on with `T`. -/
structure Blanked (d T : Text) : Prop where
  word : awordscan d = ([], d)
  number : scanint d = (0, d)
  skip : d.dropWhile blank = T
  skipped : T.dropWhile blank = T
  length : T.length ≤ d.length
  slash : left ['/', '%', 'm', '/', '%', 'y'] d = d

theorem blanked {d T : Text} {b : Char} {t : Text} (hd : d = b :: t) (hblank : blank b = true)
    (hskip : d.dropWhile blank = T) : Blanked d T := by
  have hb : b = ' ' ∨ b = '\t' := by simpa [blank] using hblank
  have hT : Unblank T := hskip ▸ unblank_dropWhile d
  refine ⟨?_, ?_, hskip, dropWhile_of_unblank hT, hskip ▸ length_dropWhile_le d, ?_⟩
  · rw [hd]
    apply awordscan_of_not_alpha
    rcases hb with rfl | rfl <;> decide
  · rw [hd]
    apply scanint_cons
    rcases hb with rfl | rfl <;> decide
  · refine @left_stop '/' (by decide) (by decide) ['%', 'm', '/', '%', 'y'] d ?_
    rw [hd, List.head?_cons]
    rcases hb with rfl | rfl <;> decide

/-- The year stands behind a word and a comma. -/
theorem left_comma {d T y fmt r : Text} (hd : Blanked d T) (number : scanint T = (0, T))
    (word : (awordscan T).2 = ',' :: r) (behind : y.length ≤ (scanint (r.dropWhile blank)).2.length)
    (hfmt : fmt ∈ otherFormats) : y.length ≤ (left fmt d).length := by
  obtain ⟨h0, h1, h2, h3, h4⟩ := RFC_eq
  obtain ⟨hba, hbi, hskip, hTskip, hdT, hstop⟩ := hd
  obtain ⟨ha, hi, hcb⟩ := @read_mark ',' (by decide) (by decide) (by decide) r
  have hword := length_awordscan_le T
  have hday := length_scanint_le (r.dropWhile blank)
  have hr := length_dropWhile_le r
  have hlen : y.length ≤ (',' :: r).length := by
    rw [List.length_cons]
    omega
  have hcolon := fun fp => @left_stop ':' (by decide) (by decide) fp (',' :: r) (by simp)
  have hlenT : y.length ≤ T.length := by
    rw [word] at hword
    exact le_trans hlen hword
  simp only [otherFormats, partialFormats, List.mem_cons, List.not_mem_nil, or_false] at hfmt
  rcases hfmt with rfl | rfl | rfl | rfl | rfl | rfl | rfl
  · simpa [ANSI_C_eq, hba, hskip, word, hcb, hi, hcolon] using hlen
  · simpa [USENET_eq, hbi, hskip, word, hcb, hi, hcolon] using hlen
  · simpa [h0, hba, hskip, number] using hlenT
  · simpa [h1, hbi, hskip, word, hcb, hi] using hlen
  · by_cases hcomma : T.head? = some ','
    · obtain ⟨r', rfl⟩ := eq_cons_of_head hcomma
      rw [(@read_mark ',' (by decide) (by decide) (by decide) r').1] at word
      cases word
      have hmatch := @left_match ',' (by decide) (by decide) [' ', '%', 'Y'] r
      simpa [h2, hba, hskip, hi, hmatch] using behind
    · have hmiss := @left_stop ',' (by decide) (by decide) [' ', '%', 'Y'] T hcomma
      simpa [h2, hba, hskip, number, hmiss] using hlenT
  · simpa [h3, hba, hskip, number, hTskip] using hlenT
  · rw [h4, left_d, hbi, hstop]
    exact le_trans hlenT hdT

/-- The year stands behind two words. -/
theorem left_words {d T y fmt s : Text} {a : Char} (hd : Blanked d T) (number : scanint T = (0, T))
    (word : (awordscan T).2.dropWhile blank = a :: s) (alpha : a.isAlpha = true)
    (behind : y.length ≤ s.length) (hfmt : fmt ∈ otherFormats) :
    y.length ≤ (left fmt d).length := by
  obtain ⟨h0, h1, h2, h3, h4⟩ := RFC_eq
  obtain ⟨hba, hbi, hskip, hTskip, hdT, hstop⟩ := hd
  obtain ⟨hi, hab, hne⟩ := read_letter alpha s
  have hword := length_awordscan_le T
  have hrest := length_dropWhile_le (awordscan T).2
  have hlen : y.length ≤ (a :: s).length := by
    rw [List.length_cons]
    omega
  have hcolon := fun fp =>
    @left_stop ':' (by decide) (by decide) fp (a :: s) (hne ':' (by decide))
  have hlenT : y.length ≤ T.length := by
    rw [word] at hrest
    exact le_trans hlen (le_trans hrest hword)
  have hcomma : T.head? ≠ some ',' := by
    intro hhead
    obtain ⟨r, rfl⟩ := eq_cons_of_head hhead
    obtain ⟨hra, -, hrb⟩ := @read_mark ',' (by decide) (by decide) (by decide) r
    rw [hra, hrb] at word
    cases word
    cases alpha
  have hmiss := @left_stop ',' (by decide) (by decide) [' ', '%', 'Y'] T hcomma
  simp only [otherFormats, partialFormats, List.mem_cons, List.not_mem_nil, or_false] at hfmt
  rcases hfmt with rfl | rfl | rfl | rfl | rfl | rfl | rfl
  · simpa [ANSI_C_eq, hba, hskip, word, hab, hi, hcolon] using hlen
  · simpa [USENET_eq, hbi, hskip, word, hab, hi, hcolon] using hlen
  · simpa [h0, hba, hskip, number] using hlenT
  · simpa [h1, hbi, hskip, word, hi] using hlen
  · simpa [h2, hba, hskip, number, hmiss] using hlenT
  · simpa [h3, hba, hskip, number, hTskip] using hlenT
  · rw [h4, left_d, hbi, hstop]
    exact le_trans hlenT hdT

/-- The year stands behind a day and a month. -/
theorem left_news {d T y fmt s : Text} {a : Char} (hd : Blanked d T) (none : (awordscan T) = ([], T))
    (word : (scanint T).2.dropWhile blank = a :: s) (alpha : a.isAlpha = true)
    (behind : y.length ≤ s.length) (hfmt : fmt ∈ otherFormats) :
    y.length ≤ (left fmt d).length := by
  obtain ⟨h0, h1, h2, h3, h4⟩ := RFC_eq
  obtain ⟨hba, hbi, hskip, hTskip, hdT, hstop⟩ := hd
  obtain ⟨hi, hab, hne⟩ := read_letter alpha s
  have hnumber := length_scanint_le T
  have hmonth := length_dropWhile_le (scanint T).2
  have hlen : y.length ≤ (a :: s).length := by
    rw [List.length_cons]
    omega
  have hcolon := fun fp =>
    @left_stop ':' (by decide) (by decide) fp (a :: s) (hne ':' (by decide))
  have hlenday : y.length ≤ (scanint T).2.length := by
    rw [word] at hmonth
    exact le_trans hlen hmonth
  have hcomma : (scanint T).2.head? ≠ some ',' := by
    intro hhead
    obtain ⟨r, hr⟩ := eq_cons_of_head hhead
    rw [hr, dropWhile_blank_cons (by decide)] at word
    cases word
    cases alpha
  have hmiss := @left_stop ',' (by decide) (by decide) [' ', '%', 'Y'] _ hcomma
  simp only [otherFormats, partialFormats, List.mem_cons, List.not_mem_nil, or_false] at hfmt
  rcases hfmt with rfl | rfl | rfl | rfl | rfl | rfl | rfl
  · simpa [ANSI_C_eq, hba, hskip, hTskip, none, word, hi, hab, hcolon] using hlen
  · simpa [USENET_eq, hbi, hskip, hTskip, none, word, hi, hab, hcolon] using hlen
  · simpa [h0, hba, hskip] using hlenday
  · simpa [h1, hbi, hskip, hTskip, none] using hlenday
  · simpa [h2, hba, hskip, hmiss] using hlenday
  · simpa [h3, hba, hskip, word, hi] using hlen
  · rw [h4, left_d, hbi, hstop]
    exact le_trans hlenday (le_trans hnumber hdT)

/-- No other format gets past the year of a date with blanks before it. -/
theorem left_other {d T y fmt : Text} {b : Char} {t : Text} (hd : d = b :: t)
    (hblank : blank b = true) (hskip : d.dropWhile blank = T) (h : Shape T y)
    (hfmt : fmt ∈ otherFormats) : y.length ≤ (left fmt d).length := by
  have hbegin := blanked hd hblank hskip
  cases h with
  | comma r number word behind => exact left_comma hbegin number word behind hfmt
  | words a s number word alpha behind => exact left_words hbegin number word alpha behind hfmt
  | news a s none word alpha behind =>
    unfold newsMonth at word
    exact left_news hbegin none word alpha behind hfmt

/-! ## Years -/

theorem digit_le (c : Char) (h : c.isDigit = true) : c.toNat - '0'.toNat ≤ 9 := by
  simp only [Char.isDigit, Bool.and_eq_true, decide_eq_true_eq, ge_iff_le,
    UInt32.le_iff_toNat_le] at h
  change 48 ≤ c.toNat ∧ c.toNat ≤ 57 at h
  change c.toNat - 48 ≤ 9
  omega

theorem ofDigitChars_lt {ds : Text} (h : ∀ c ∈ ds, c.isDigit = true) (v : Nat) :
    Nat.ofDigitChars 10 ds v < (v + 1) * 10 ^ ds.length := by
  induction ds generalizing v with
  | nil => simp [Nat.ofDigitChars_nil]
  | cons c ds ih =>
    have hc := digit_le c (h c List.mem_cons_self)
    have hnext := ih (fun d hd => h d (List.mem_cons_of_mem c hd)) (10 * v + (c.toNat - '0'.toNat))
    rw [Nat.ofDigitChars_cons, List.length_cons, Nat.pow_succ']
    calc Nat.ofDigitChars 10 ds (10 * v + (c.toNat - '0'.toNat))
        < (10 * v + (c.toNat - '0'.toNat) + 1) * 10 ^ ds.length := hnext
      _ ≤ ((v + 1) * 10) * 10 ^ ds.length := Nat.mul_le_mul_right _ (by omega)
      _ = (v + 1) * (10 * 10 ^ ds.length) := Nat.mul_assoc _ _ _

theorem number_lt (y : Text) : number y < 10 ^ (y.takeWhile Char.isDigit).length := by
  have h := @ofDigitChars_lt (y.takeWhile Char.isDigit) (fun c hc => List.mem_takeWhile_imp hc) 0
  rwa [Nat.zero_add, Nat.one_mul] at h

theorem atoi_number {y : Text} (hy : Numbered y) : atoi y = toInt32 (number y) := by
  have hne : y.takeWhile Char.isDigit ≠ [] := by
    obtain ⟨c, r, rfl, hc⟩ := hy
    rw [List.takeWhile_cons, if_pos hc]
    exact List.cons_ne_nil _ _
  have h := @strtol_digits_append _ (y.dropWhile Char.isDigit)
    (fun c hc => List.mem_takeWhile_imp hc) hne (head_dropWhile _ _)
  rw [List.takeWhile_append_dropWhile] at h
  rw [atoi, h]
  rfl

/-- A short year is below 200, or too large for a number. -/
theorem short_cases {y : Text} (hy : Numbered y) (h : atoi y < 200) :
    number y < 200 ∨ INT_MAX < number y := by
  rw [atoi_number hy] at h
  by_contra hneg
  rw [not_or, not_lt, not_lt] at hneg
  unfold INT_MAX at hneg
  rw [toInt32_of_small (by omega)] at h
  omega

theorem short_year_ge {y : Text} (hy : Numbered y) (h : atoi y < 200) :
    70 ≤ year2internal (scanint y).1 := by
  have hcases := short_cases hy h
  rw [scanint_eq]
  dsimp only
  unfold INT_MAX at hcases ⊢
  unfold year2internal
  rcases hcases with hsmall | hlarge
  · rw [Nat.min_eq_left (by omega)]
    split
    · omega
    · rw [if_neg (by omega)]
      omega
  · rw [Nat.min_eq_right (by omega), if_neg (by omega), if_pos (by omega)]
    omega

/-- A year of two digits or more is at most two digits longer when it is canonical. -/
theorem canonNumber_room {y : Text} (hy : Numbered y) (h : atoi y < 200)
    (hlen : 2 ≤ (y.takeWhile Char.isDigit).length) : (canonNumber y).length ≤ y.length + 2 := by
  have hsplit : y.length = (y.takeWhile Char.isDigit).length +
      (y.dropWhile Char.isDigit).length := by
    rw [← List.length_append, List.takeWhile_append_dropWhile]
  have hge := short_year_ge hy h
  have hlt := number_lt y
  obtain ⟨k, hk⟩ := Int.eq_ofNat_of_zero_le
    (show 0 ≤ 1900 + year2internal (scanint y).1 by omega)
  have hdec : (canonNumber y).length = (dec k).length + (y.dropWhile Char.isDigit).length := by
    unfold canonNumber
    rw [hk, decInt_of_nonneg (Int.natCast_nonneg k), Int.toNat_natCast, List.length_append]
  have hdigits : (dec k).length ≤ (y.takeWhile Char.isDigit).length + 2 := by
    rw [scanint_eq] at hk
    dsimp only at hk
    rcases short_cases hy h with hsmall | hlarge
    · have hfour : (dec k).length ≤ 4 := by
        apply (Nat.length_toDigits_le_iff (by decide) (by decide)).mpr
        unfold INT_MAX at hk
        rw [Nat.min_eq_left (by omega)] at hk
        unfold year2internal at hk
        split at hk
        · omega
        · rw [if_neg (by omega)] at hk
          omega
      omega
    · have hten : (dec k).length ≤ 10 := by
        apply (Nat.length_toDigits_le_iff (by decide) (by decide)).mpr
        unfold INT_MAX at hk hlarge
        rw [Nat.min_eq_right (by omega)] at hk
        unfold year2internal at hk
        rw [if_neg (by omega), if_pos (by omega)] at hk
        omega
      have hnine : 9 < (y.takeWhile Char.isDigit).length := by
        by_contra hshort
        have hpow : 10 ^ (y.takeWhile Char.isDigit).length ≤ 10 ^ 9 :=
          Nat.pow_le_pow_right (by decide) (not_lt.mp hshort)
        unfold INT_MAX at hlarge
        omega
      omega
  omega

/-! ## Dates of news -/

/-- In a date of news, the noted year is behind the month. -/
theorem newsYear_of_noted {T y : Text} (hy : shortYear TIMEFORM_USENET T = some y) :
    newsYear T = y := by
  obtain ⟨mday, mon, halong⟩ := along_USENET T
  have hless : ∀ c ∈ codes (TIMEFORM_USENET.drop 8), isYear c = false := by
    simp [USENET_eq, codes, isYear]
  unfold shortYear at hy
  rw [halong] at hy
  change (Scanning.along ('%' :: 'Y' :: TIMEFORM_USENET.drop 8) _).yyp = some y at hy
  rw [Scanning.along_step rfl] at hy
  have hkeep : ∀ st, (Scanning.along (TIMEFORM_USENET.drop 8) st).yyp = st.yyp := by
    intro st
    have hsame := congrArg Scanning.yyp (along_yyp hless st st.yyp)
    exact hsame
  rw [hkeep] at hy
  unfold Scanning.readYear at hy
  dsimp only at hy
  split at hy
  · exact Option.some.inj hy
  · cases hy

/-- The day and the month of a date of news are read alike with another year behind them. -/
theorem news_alike {p y y' : Text} (h : Numbered y) (h' : Numbered y') (hy : newsYear (p ++ y) = y) :
    (scanint (p ++ y')).1 = (scanint (p ++ y)).1 ∧
      (awordscan (newsMonth (p ++ y'))).1 = (awordscan (newsMonth (p ++ y))).1 ∧
      newsYear (p ++ y') = y' := by
  have hmonth := length_dropWhile_le (scanint (p ++ y)).2
  have hword := length_awordscan_le (newsMonth (p ++ y))
  have hyear := length_dropWhile_le (awordscan (newsMonth (p ++ y))).2
  change (newsMonth (p ++ y)).length ≤ _ at hmonth
  change (newsYear (p ++ y)).length ≤ _ at hyear
  rw [hy] at hyear
  obtain ⟨a, q, hq, hq'⟩ := @local_scanint y y' h p (by omega)
  have hskip : ∀ z, Numbered z → ∀ s : Text, (s ++ z).dropWhile blank = s.dropWhile blank ++ z :=
    fun z hz s => dropWhile_numbered hz (fun _ => blank_of_isDigit) s
  have hm : newsMonth (p ++ y) = q.dropWhile blank ++ y := by
    unfold newsMonth
    rw [hq, hskip y h]
  have hm' : newsMonth (p ++ y') = q.dropWhile blank ++ y' := by
    unfold newsMonth
    rw [hq', hskip y' h']
  rw [hm] at hword hyear
  obtain ⟨w, r, hr, hr'⟩ := local_awordscan h h' (q.dropWhile blank) hyear
  refine ⟨by rw [hq, hq'], by rw [hm, hm', hr, hr'], ?_⟩
  have hnil : r.dropWhile blank = [] := by
    unfold newsYear at hy
    rw [hm, hr, hskip y h] at hy
    simpa using hy
  unfold newsYear
  rw [hm', hr', hskip y' h', hnil, List.nil_append]

/-- The year of a partial time. -/
def partialYear (y : Text) : Int :=
  if 1 ≤ (scanint y).1 ∧ (scanint y).1 ≤ 31 then -1 else year2internal (scanint y).1

theorem partialYear_canon {y y' : Text} (h : Canon y y') (hn : ¬ (1 ≤ (scanint y).1 ∧ (scanint y).1 ≤ 31)) :
    partialYear y' = partialYear y ∧ partialYear y = year2internal (scanint y).1 := by
  have hn' : ¬ (1 ≤ (scanint y').1 ∧ (scanint y').1 ≤ 31) := by
    intro hin
    have hlong := h.long
    rw [atoi_number h.number'] at hlong
    rw [scanint_eq] at hin
    obtain ⟨hlo, hhi⟩ := hin
    unfold INT_MAX at hlo hhi
    dsimp only at hlo hhi
    have hsmall : number y' ≤ 31 := by omega
    rw [toInt32_of_small (by omega)] at hlong
    omega
  unfold partialYear
  rw [if_neg hn', if_neg hn]
  exact ⟨h.year, rfl⟩

theorem scanned_RFC1 (T : Text) : scanned TIMEFORM_RFC1 T =
    ⟨partialYear (newsYear T), Montoi (awordscan (newsMonth T)).1, (scanint T).1, -1, -1, -1, [],
      false, true⟩ := by
  unfold scanned
  rw [RFC_eq.2.1, Scanning.along_step rfl, Scanning.along_step rfl,
    Scanning.along_blank (by decide), Scanning.along_step rfl, Scanning.along_blank (by decide),
    Scanning.along_step rfl]
  unfold Scanning.along Scanning.readYear partialYear newsYear newsMonth
  simp [Scanning.start, Fields.start]

theorem scanned_RFC0 (T : Text) : scanned TIMEFORM_RFC0 T =
    ⟨partialYear ((awordscan T).2.dropWhile blank), Montoi (awordscan T).1, -1, -1, -1, -1, [],
      false, true⟩ := by
  unfold scanned
  rw [RFC_eq.1, Scanning.along_step rfl, Scanning.along_step rfl,
    Scanning.along_blank (by decide), Scanning.along_step rfl]
  unfold Scanning.along Scanning.readYear partialYear
  simp [Scanning.start, Fields.start]

theorem Montoi_nil : Montoi [] = -1 := by
  simp [Montoi, Month, List.findIdx?_cons, strcaseeq]

theorem Montoi_of_montoi {w : Text} (h : 0 ≤ montoi w) : 0 ≤ Montoi w := by
  have hmem : w ∈ Month := by
    unfold montoi at h
    cases hi : Month.idxOf? w with
    | none =>
      rw [hi] at h
      cases h
    | some i => exact (List.idxOf?_eq_some_iff.mp hi).2.1 ▸ List.getElem_mem _
  have hall : ∀ mo ∈ Month, 0 ≤ Montoi mo := by decide
  exact hall w hmem

/-- A word that is no month gives no time. -/
theorem scanftime_no_month {T fp : Text} (off : Int) (h : (awordscan T).1 = [])
    (hf : ∀ c ∈ codes fp, c ∉ ['b', 'B', 'm']) :
    scanftime off T ('%' :: 'P' :: '%' :: 'B' :: fp) = some (-1) := by
  apply scanftime_of_mon
  rw [Scanning.along_step rfl, Scanning.along_step rfl, Scanning.along_mon hf]
  change Montoi (awordscan T).1 < 0
  rw [h, Montoi_nil]
  decide

theorem scanftime_RFC4 (off : Int) (T : Text) : scanftime off T TIMEFORM_RFC4 = some (-1) := by
  have hcodes : ∀ c ∈ codes TIMEFORM_RFC4, c ≠ 'H' ∧ c ≠ 'P' := by
    simp [RFC_eq.2.2.2.2, codes]
  obtain ⟨hhour, hwhole⟩ := @Scanning.along_inv
    (fun f => f.hour = -1 ∧ f.isPartial = false) TIMEFORM_RFC4
    (fun c hc _ _ hd h => ⟨((Scanning.directive_keeps hd).2.2.2.1 (hcodes c hc).1).trans h.1,
      ((Scanning.directive_keeps hd).2.2.2.2.2 (hcodes c hc).2).trans h.2⟩) (.start T) ⟨rfl, rfl⟩
  apply scanftime_of_not_complete
  unfold Complete scanned Fields.tm
  rw [hwhole, if_neg (by simp), if_pos (by omega)]
  exact fun h => h rfl

/-- A partial time of a month and a year is not before 1970. -/
theorem scanftime_RFC0_ge (off : Int) {T : Text} (hmon : 0 ≤ Montoi (awordscan T).1)
    (hyear : 70 ≤ partialYear ((awordscan T).2.dropWhile blank)) :
    ∃ t, scanftime off T TIMEFORM_RFC0 = some t ∧ 0 ≤ t := by
  have hle := (Montoi_le (awordscan T).1).2
  have hbase : ∀ m < 12, 0 ≤ yday_base.getD m 0 ∧ yday_base.getD m 0 ≤ 334 := by decide
  rw [scanftime_eq (scanned_RFC0 T)]
  generalize partialYear ((awordscan T).2.dropWhile blank) = year at hyear ⊢
  generalize Montoi (awordscan T).1 = mon at hmon hle ⊢
  have htm : (⟨year, mon, -1, -1, -1, -1, [], false, true⟩ : Fields).tm =
      some ⟨0, 0, 0, 1, mon, year, 0, 0⟩ := by
    unfold Fields.tm
    dsimp only
    rw [if_pos ⟨rfl, by omega, hmon⟩]
    rfl
  rw [htm]
  dsimp only
  unfold Timegm
  have hin : 0 ≤ mon ∧ mon < 13 := ⟨hmon, by omega⟩
  rw [if_neg (by decide), if_pos hin]
  have hb := hbase mon.toNat (by omega)
  generalize yday_base.getD mon.toNat 0 = base at hb
  refine ⟨_, rfl, ?_⟩
  rw [unzoned_of_no_sign (by simp) (by simp)]
  dsimp only
  rw [toInt32_of_range (by split <;> omega) (by split <;> omega)]
  have hdiv : 0 ≤ (year - 70 + 1).tdiv 4 := Int.tdiv_nonneg (by omega) (by decide)
  split <;> omega

/-! ## The date is kept -/

theorem firstOf_congr {off : Int} {d d' : Text} {fmts : List Text}
    (h : ∀ fmt ∈ fmts, scanftime off d' fmt = scanftime off d fmt) :
    firstOf off d' fmts = firstOf off d fmts := by
  induction fmts with
  | nil => rfl
  | cons fmt fmts ih =>
    rw [firstOf, firstOf, h fmt List.mem_cons_self,
      ih fun G hG => h G (List.mem_cons_of_mem _ hG)]

/-- The formats behind one that has a time do not matter. -/
theorem firstOf_append {off : Int} {d d' : Text} {fmts rest : List Text}
    (h : ∀ fmt ∈ fmts, scanftime off d' fmt = scanftime off d fmt)
    (hit : ∃ fmt ∈ fmts, ∃ t, scanftime off d fmt = some t ∧ 0 ≤ t) :
    firstOf off d' (fmts ++ rest) = firstOf off d (fmts ++ rest) := by
  induction fmts with
  | nil =>
    obtain ⟨fmt, hmem, -⟩ := hit
    cases hmem
  | cons fmt fmts ih =>
    rw [List.cons_append, firstOf, firstOf, h fmt List.mem_cons_self]
    cases htime : scanftime off d fmt with
    | none => rfl
    | some clock =>
      rw [Option.bind_eq_bind, Option.bind_some, Option.bind_some]
      by_cases hclock : 0 ≤ clock
      · rw [if_pos hclock, if_pos hclock]
      · rw [if_neg hclock, if_neg hclock]
        apply ih fun G hG => h G (List.mem_cons_of_mem _ hG)
        obtain ⟨G, hG, t, ht, hpos⟩ := hit
        rcases List.mem_cons.mp hG with rfl | hG
        · rw [htime, Option.some.injEq] at ht
          omega
        · exact ⟨G, hG, t, ht, hpos⟩

theorem number_of_complete {E T : Text} (hE : E ∈ canonFormats) (hc : Complete E T)
    (hne : E ≠ TIMEFORM_USENET) : scanint T = (0, T) := by
  simp only [canonFormats, List.mem_cons, List.not_mem_nil, or_false] at hE
  rcases hE with rfl | rfl | rfl | rfl
  · obtain ⟨r, -, hr, -⟩ := complete_RFC822 hc
    exact scanint_of_comma hr
  · obtain ⟨r, -, hr, -⟩ := complete_RFC850 hc
    exact scanint_of_comma hr
  · obtain ⟨a, s, hs, ha⟩ := head_of_montoi (complete_ANSI_C hc).1
    exact scanint_of_word hs ha
  · exact absurd rfl hne

/-- A date of news whose year is none of the first 31 has the same time among the partial ones. -/
theorem firstOf_news {off : Int} {p y : Text} (hT : Unblank (p ++ y))
    (hc : Complete TIMEFORM_USENET (p ++ y)) (hy : shortYear TIMEFORM_USENET (p ++ y) = some y)
    (hnumber : Numbered y) (hshort : atoi y < 200)
    (hn : ¬ (1 ≤ (scanint y).1 ∧ (scanint y).1 ≤ 31))
    (hsame : ∀ F ∈ canonFormats, scanftime off (p ++ canonNumber y) F = scanftime off (p ++ y) F) :
    scanNNTPtime off (p ++ canonNumber y) = scanNNTPtime off (p ++ y) := by
  have hcanon := canon_number hnumber
  have hyear := newsYear_of_noted hy
  obtain ⟨hday, hmon, hyear'⟩ := news_alike hnumber hcanon.number' hyear
  obtain ⟨hpart, hpart'⟩ := partialYear_canon hcanon hn
  obtain ⟨h0, h1, h2, h3, h4⟩ := RFC_eq
  have hmonth := (complete_USENET hc).1
  rw [scanNNTPtime_eq, scanNNTPtime_eq]
  have hp : ∀ c r, p ++ y = c :: r → c.isDigit = false → ∃ r', p ++ canonNumber y = c :: r' := by
    intro c r hcr hd
    cases p with
    | nil =>
      obtain ⟨e, s, hs, he⟩ := hnumber
      rw [List.nil_append, hs] at hcr
      cases hcr
      rw [hd] at he
      cases he
    | cons b p =>
      cases hcr
      exact ⟨_, rfl⟩
  rcases news_cases hT hmonth with ⟨c, r, hcr, hdigit⟩ | ⟨c, r, hcr, halpha, hskip⟩
  · -- a date that begins with the day: only one partial format reads it
    obtain ⟨c', r', hcr', hdigit'⟩ : ∃ c' r', p ++ canonNumber y = c' :: r' ∧ c'.isDigit = true := by
      cases p with
      | nil => exact hcanon.number'
      | cons b p =>
        cases hcr
        exact ⟨_, _, rfl, hdigit⟩
    have hnone : (awordscan (p ++ y)).1 = [] := by
      rw [hcr, awordscan_of_not_alpha (isAlpha_of_isDigit hdigit)]
    have hnone' : (awordscan (p ++ canonNumber y)).1 = [] := by
      rw [hcr', awordscan_of_not_alpha (isAlpha_of_isDigit hdigit')]
    apply firstOf_congr
    intro fmt hfmt
    rw [List.mem_append] at hfmt
    rcases hfmt with hfmt | hfmt
    · exact hsame fmt hfmt
    · simp only [partialFormats, List.mem_cons, List.not_mem_nil, or_false] at hfmt
      rcases hfmt with rfl | rfl | rfl | rfl | rfl
      · rw [h0, scanftime_no_month off hnone (by simp [codes]),
          scanftime_no_month off hnone' (by simp [codes])]
      · apply scanftime_congr
        rw [scanned_RFC1, scanned_RFC1, hyear, hyear', hday, hmon, hpart]
      · rw [h2, scanftime_no_month off hnone (by simp [codes]),
          scanftime_no_month off hnone' (by simp [codes])]
      · rw [h3, scanftime_no_month off hnone (by simp [codes]),
          scanftime_no_month off hnone' (by simp [codes])]
      · rw [scanftime_RFC4, scanftime_RFC4]
  · -- a date that begins with the month: the first partial format has a time
    obtain ⟨r', hcr'⟩ := hp c r hcr (isDigit_of_isAlpha halpha)
    have hskip' : newsMonth (p ++ canonNumber y) = p ++ canonNumber y := by
      unfold newsMonth
      rw [hcr', scanint_cons (isDigit_of_isAlpha halpha)]
      exact dropWhile_blank_cons (blank_of_isAlpha halpha) r'
    rw [hskip] at hmon hmonth
    rw [hskip'] at hmon
    unfold newsYear at hyear hyear'
    rw [hskip] at hyear
    rw [hskip'] at hyear'
    have hsplit : canonFormats ++ partialFormats = (canonFormats ++ [TIMEFORM_RFC0]) ++
        [TIMEFORM_RFC1, TIMEFORM_RFC2, TIMEFORM_RFC3, TIMEFORM_RFC4] := rfl
    rw [hsplit]
    apply firstOf_append
    · intro fmt hfmt
      rw [List.mem_append, List.mem_singleton] at hfmt
      rcases hfmt with hfmt | rfl
      · exact hsame fmt hfmt
      · apply scanftime_congr
        rw [scanned_RFC0, scanned_RFC0, hyear, hyear', hmon, hpart]
    · refine ⟨TIMEFORM_RFC0, by simp, scanftime_RFC0_ge off (Montoi_of_montoi hmonth) ?_⟩
      rw [hyear, hpart']
      exact short_year_ge hnumber hshort

/-- The scanner finds the same time in a date whose year was made canonical. -/
theorem scanNNTPtime_edit {off : Int} {d E p y : Text} (hE : E ∈ canonFormats)
    (hc : Complete E (d.dropWhile blank)) (hy : shortYear E (d.dropWhile blank) = some y)
    (hp : d.dropWhile blank = p ++ y) (hnumber : Numbered y) (hshort : atoi y < 200)
    (hsame : ∀ F ∈ canonFormats,
      scanftime off (p ++ canonNumber y) F = scanftime off (d.dropWhile blank) F)
    (hplain : E = TIMEFORM_USENET →
      if d.head?.any blank then (d.dropWhile blank).head?.any Char.isDigit
      else (∃ t ∈ scanftime off d E, 0 ≤ t) ∨ ¬ (1 ≤ (scanint y).1 ∧ (scanint y).1 ≤ 31)) :
    scanNNTPtime off (d.takeWhile blank ++ (p ++ canonNumber y)) = scanNNTPtime off d := by
  have hnumber' := (canon_number hnumber).number'
  have hT := unblank_dropWhile d
  have hd : d = d.takeWhile blank ++ (p ++ y) := by
    rw [← hp, List.takeWhile_append_dropWhile]
  rw [scanNNTPtime_eq, scanNNTPtime_eq]
  cases hblank : d.head?.any blank with
  | true =>
    -- with blanks before it, the date is read by the other formats, and they stop before the year
    obtain ⟨b, t, hbt, hb⟩ : ∃ b t, d = b :: t ∧ blank b = true := by
      cases d with
      | nil => cases hblank
      | cons b t => exact ⟨b, t, rfl, hblank⟩
    have hshape : Shape (d.dropWhile blank) y := by
      apply shape_of_complete hT hE hc hy
      intro hnews
      have hdigit := hplain hnews
      rw [hblank, if_pos rfl] at hdigit
      exact hdigit
    obtain ⟨w, hw⟩ : ∃ w, d.takeWhile blank = b :: w := by
      rw [hbt, List.takeWhile_cons, if_pos hb]
      exact ⟨_, rfl⟩
    have hcomma : ∀ F ∈ [TIMEFORM_RFC822, TIMEFORM_RFC850], ∀ s,
        scanftime off (b :: s) F = some (-1) := by
      intro F hF s
      have hread : (awordscan (b :: s)).2.head? ≠ some ',' := by
        have hb' : b = ' ' ∨ b = '\t' := by simpa [blank] using hb
        rcases hb' with rfl | rfl
        · rw [awordscan_of_not_alpha (by decide)]
          simp
        · rw [awordscan_of_not_alpha (by decide)]
          simp
      obtain ⟨h822, h850⟩ := @scanftime_no_comma off _ hread
      simp only [List.mem_cons, List.not_mem_nil, or_false] at hF
      rcases hF with rfl | rfl
      · exact h822
      · exact h850
    have hother : ∀ F ∈ otherFormats,
        scanftime off (d.takeWhile blank ++ (p ++ canonNumber y)) F = scanftime off d F := by
      intro F hF
      have hlen := left_other hbt hb rfl hshape hF
      rw [hd, ← List.append_assoc] at hlen
      have huntouched := @scanftime_untouched off F (d.takeWhile blank ++ p) y _ hF hnumber
        hnumber' hlen
      rw [List.append_assoc, List.append_assoc, ← hd] at huntouched
      exact huntouched
    have hall : canonFormats ++ partialFormats =
        [TIMEFORM_RFC822, TIMEFORM_RFC850] ++ otherFormats := rfl
    rw [hall]
    apply firstOf_congr
    intro F hF
    rcases List.mem_append.mp hF with hF | hF
    · rw [hbt, ← hbt, hw, List.cons_append, hcomma F hF, hbt, hcomma F hF]
    · exact hother F hF
  | false =>
    have hnil : d.takeWhile blank = [] := by
      cases d with
      | nil => rfl
      | cons b t =>
        have hb : blank b = false := hblank
        rw [List.takeWhile_cons, hb, if_neg (by decide)]
    have hself : d.dropWhile blank = d := by
      have h := @List.takeWhile_append_dropWhile _ blank d
      rwa [hnil, List.nil_append] at h
    rw [hself] at hT hc hy hp hsame
    rw [hnil, List.nil_append]
    by_cases hnews : E = TIMEFORM_USENET
    · have hcases := hplain hnews
      rw [hblank, if_neg (by decide)] at hcases
      rcases hcases with ⟨t, ht, hpos⟩ | hn
      · exact firstOf_append hsame ⟨E, hE, t, ht, hpos⟩
      · subst hnews hp
        exact firstOf_news hT hc hy hnumber hshort hn hsame
    · have hw := number_of_complete hE hc hnews
      have hshape := shape_of_complete hT hE hc hy fun h => absurd h hnews
      apply firstOf_congr
      intro F hF
      rcases List.mem_append.mp hF with hF | hF
      · exact hsame F hF
      · have hmem : F ∈ otherFormats :=
          List.mem_cons_of_mem _ (List.mem_cons_of_mem _ hF)
        have hlen := left_partial hT hshape hw hF
        rw [hp] at hlen ⊢
        exact scanftime_untouched hmem hnumber hnumber' hlen

/-- The date is kept where its year is plain. -/
theorem canon_date_preserves (off : Int) (d : Text) (h : PlainYear off d) :
    ∃ d', canon_date off d = some d' ∧ Preserved off d d' := by
  by_cases hedit : ∃ E ∈ canonFormats, Complete E (d.dropWhile blank) ∧
      ∃ y, shortYear E (d.dropWhile blank) = some y
  · obtain ⟨E, hE, hc, y, hy⟩ := hedit
    obtain ⟨hdigits, hnews⟩ := h E hE hc y hy
    obtain ⟨hnumber, p, hp, htext, hT', hscan, hothers, hothers', hsame⟩ :=
      canon_date_edit off hE hc hy
    obtain ⟨hdigit, hone, hP, -⟩ := canonFormats_plain hE
    obtain ⟨-, hshort, -, -⟩ := along_noted hdigit hone hP rfl rfl hy
    have hroom := canonNumber_room hnumber hshort hdigits
    have hd : d = (d.takeWhile blank ++ p) ++ y := by
      rw [List.append_assoc, ← hp, List.takeWhile_append_dropWhile]
    have htimes : ∀ F ∈ canonFormats,
        scanftime off (p ++ canonNumber y) F = scanftime off (d.dropWhile blank) F := by
      intro F hF
      by_cases hFE : F = E
      · subst hFE
        exact scanftime_congr hscan
      · rw [scanftime_of_not_complete (hothers F hF hFE),
          scanftime_of_not_complete (hothers' F hF hFE)]
    refine ⟨_, htext, ?_, ?_, ?_, .inr ⟨E, hE, y, ?_⟩⟩
    · have hlen := congrArg List.length hd
      rw [List.length_append, List.length_append] at hlen
      rw [List.length_append, List.length_append]
      omega
    · exact scanNNTPtime_edit hE hc hy hp hnumber hshort htimes hnews
    · -- the second turn skips the same blanks
      have hblanks : ∀ c ∈ d.takeWhile blank, blank c = true := fun c hc =>
        List.mem_takeWhile_imp hc
      obtain ⟨-, hskip⟩ := while_append hblanks hT'
      apply canon_date_same
      intro F hF
      rw [hskip]
      exact hsame F hF
    · obtain ⟨hge, -⟩ : 0 ≤ 1900 + year2internal (scanint y).1 ∧ True :=
        ⟨by have := short_year_ge hnumber hshort; omega, trivial⟩
      refine ⟨decInt (1900 + year2internal (scanint y).1), d.takeWhile blank ++ p, hy, ?_, hd, ?_⟩
      · intro c hc
        rw [decInt_of_nonneg hge] at hc
        exact isDigit_of_mem_dec hc
      · rw [List.append_assoc]
        rfl
  · have hnone : ∀ F ∈ canonFormats, edited F (d.dropWhile blank) = d.dropWhile blank := by
      intro F hF
      by_cases hc : Complete F (d.dropWhile blank)
      · apply edited_of_no_year
        by_contra hy
        obtain ⟨y, hy⟩ := Option.ne_none_iff_exists'.mp hy
        exact hedit ⟨F, hF, hc, y, hy⟩
      · exact edited_of_not_complete hc
    have htext := canon_date_same off hnone
    exact ⟨d, htext, Nat.le_add_right _ _, rfl, htext, .inl rfl⟩

/-- A date with a year of two digits. -/
theorem canon_date_preserves_mail :
    PlainYear 0 "Sun, 06 Nov 94 08:49:37 GMT".toList ∧
      ∃ d', canon_date 0 "Sun, 06 Nov 94 08:49:37 GMT".toList = some d' ∧
        Preserved 0 "Sun, 06 Nov 94 08:49:37 GMT".toList d' := by
  have hothers : ∀ fmt ∈ canonFormats, fmt ≠ TIMEFORM_RFC822 →
      ¬ Complete fmt ("Sun, 06 Nov 94 08:49:37 GMT".toList.dropWhile blank) := by decide +kernel
  have hyear : shortYear TIMEFORM_RFC822 ("Sun, 06 Nov 94 08:49:37 GMT".toList.dropWhile blank) =
      some "94 08:49:37 GMT".toList := by decide +kernel
  have hplain : PlainYear 0 "Sun, 06 Nov 94 08:49:37 GMT".toList := by
    intro fmt hfmt hc y hy
    by_cases hmail : fmt = TIMEFORM_RFC822
    · subst hmail
      rw [hyear, Option.mem_def, Option.some.injEq] at hy
      subst hy
      exact ⟨by decide, fun h => absurd h (by decide)⟩
    · exact absurd hc (hothers fmt hfmt hmail)
  exact ⟨hplain, canon_date_preserves 0 _ hplain⟩

/-- A blank before the month makes the scanner read the short year as the day. -/
theorem canon_date_moves :
    ¬ ∃ d', canon_date 0 " Nov 06 08:49:37 94".toList = some d' ∧
      Preserved 0 " Nov 06 08:49:37 94".toList d' := by
  have htext : canon_date 0 " Nov 06 08:49:37 94".toList =
      some " Nov 2006 08:49:37 94".toList := by decide +kernel
  have htimes : scanNNTPtime 0 " Nov 2006 08:49:37 94".toList ≠
      scanNNTPtime 0 " Nov 06 08:49:37 94".toList := by decide +kernel
  rintro ⟨d', hd', hpres⟩
  rw [htext, Option.some.injEq] at hd'
  subst hd'
  exact htimes hpres.time

end delegate.strftime
