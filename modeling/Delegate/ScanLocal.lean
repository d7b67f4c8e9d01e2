-- Where a scan of Strftime.cpp looks: a format that leaves the end of a text alone
-- reads the same from a text with another end. The year number can be such an end, and
-- a format that reads it as the year reads a canonical year in its place alike.
import Delegate.ScanMonths

open ctext delegate.string

namespace delegate.strftime

/-! ## Readers -/

/-- The text begins with a number. -/
def Numbered (y : Text) : Prop := ∃ c r, y = c :: r ∧ c.isDigit = true

variable {y y' : Text} {c : Char} {st : Scanning}

theorem Numbered.length_pos (h : Numbered y) : 0 < y.length := by
  obtain ⟨c, r, rfl, -⟩ := h
  exact Nat.succ_pos _

theorem Numbered.head (h : Numbered y) {q : Char → Bool} (hq : ∀ c, c.isDigit = true → q c = false)
    :
    ∀ c ∈ y.head?, q c = false := by
  obtain ⟨d, r, rfl, hd⟩ := h
  intro c hc
  simp only [List.head?_cons, Option.mem_def, Option.some.injEq] at hc
  exact hc ▸ hq d hd

theorem blank_of_isDigit (h : c.isDigit = true) : blank c = false := by
  unfold blank
  rw [Bool.or_eq_false_iff, beq_eq_false_iff_ne, beq_eq_false_iff_ne]
  constructor
  · rintro rfl
    cases h
  · rintro rfl
    cases h

/-- What is skipped at the start of a text ends at a number. -/
theorem dropWhile_numbered (h : Numbered y) {q : Char → Bool}
    (hq : ∀ c, c.isDigit = true → q c = false) (p : Text) :
    (p ++ y).dropWhile q = p.dropWhile q ++ y := by
  induction p with
  | nil =>
    obtain ⟨c, r, rfl, hc⟩ := h
    simp [hq c hc]
  | cons c p ih =>
    rw [List.cons_append, List.dropWhile_cons, List.dropWhile_cons]
    split
    · exact ih
    · rfl

/-- A reader that leaves a number alone does not look at it. -/
def Local {α : Type} (y y' : Text) (read : Text → α × Text) : Prop :=
  ∀ p, y.length ≤ (read (p ++ y)).2.length →
    ∃ a p', read (p ++ y) = (a, p' ++ y) ∧ read (p ++ y') = (a, p' ++ y')

theorem local_scanint (h : Numbered y) : Local y y' scanint := by
  intro p hlen
  have hp : p.dropWhile Char.isDigit ≠ [] := by
    intro hnil
    obtain ⟨c, r, rfl, hc⟩ := h
    have hdrop : ((p ++ c :: r).dropWhile Char.isDigit).length ≤ r.length := by
      rw [List.dropWhile_append, hnil, List.isEmpty_nil, if_pos rfl, List.dropWhile_cons, if_pos hc]
      exact (List.dropWhile_suffix _).length_le
    rw [scanint_eq, List.length_cons] at hlen
    dsimp only at hlen
    omega
  have hread : ∀ z : Text, scanint (p ++ z) =
      ((min (number p) INT_MAX : Nat), p.dropWhile Char.isDigit ++ z) := by
    intro z
    have hsplit := @List.takeWhile_append_dropWhile _ Char.isDigit p
    obtain ⟨c, r, hcr⟩ := List.exists_cons_of_ne_nil hp
    have hc : c.isDigit = false := head_dropWhile Char.isDigit p c (by rw [hcr]; rfl)
    have hz : p ++ z = p.takeWhile Char.isDigit ++ (c :: (r ++ z)) := by
      rw [← List.cons_append, ← hcr, ← List.append_assoc, hsplit]
    rw [hz, scanint_append (fun c hc => List.mem_takeWhile_imp hc) (by simpa using hc), hcr]
    rfl
  exact ⟨_, _, hread y, hread y'⟩

theorem awordscanX_numbered (h : Numbered y) (size : Nat) (p : Text) :
    awordscanX size (p ++ y) = ((awordscanX size p).1, (awordscanX size p).2 ++ y) := by
  induction p generalizing size with
  | nil =>
    have hread := @awordscanX_append [] y (size + 1) (by simp) (by simp)
      (h.head fun c hc => isAlpha_of_isDigit hc)
    obtain ⟨c, r, rfl, hc⟩ := h
    rcases size with _ | _ | size
    · rfl
    · rfl
    · rw [List.nil_append, awordscanX, if_neg (by rw [isAlpha_of_isDigit hc]; decide)]
      rfl
  | cons c p ih =>
    rcases size with _ | _ | size
    · rfl
    · rfl
    · rw [List.cons_append, awordscanX, awordscanX, ih (size + 1)]
      split <;> rfl

theorem local_awordscan (h : Numbered y) (h' : Numbered y') : Local y y' awordscan :=
  fun p _ => ⟨_, _, awordscanX_numbered h 128 p, awordscanX_numbered h' 128 p⟩

theorem local_wordScan (h : Numbered y) (h' : Numbered y') : Local y y' wordScan := by
  intro p hlen
  obtain ⟨q, hq⟩ : ∃ q, q = p.dropWhile wordBlank := ⟨_, rfl⟩
  have hskip : ∀ z, Numbered z → (p ++ z).dropWhile wordBlank = q ++ z := fun z hz => by
    rw [dropWhile_numbered hz (fun c => wordBlank_of_isDigit), hq]
  have hread : ∀ z, Numbered z → ((q ++ z).takeWhile fun ch => !wordBlank ch).take 127 =
      (q.takeWhile fun ch => !wordBlank ch).take 127 →
      wordScan (p ++ z) = ((q.takeWhile fun ch => !wordBlank ch).take 127,
        q.drop ((q.takeWhile fun ch => !wordBlank ch).take 127).length ++ z) := by
    intro z hz hword
    have hle : ((q.takeWhile fun ch => !wordBlank ch).take 127).length ≤ q.length :=
      le_trans (List.length_take_le' _ _) (List.takeWhile_prefix _).length_le
    unfold wordScan wordscanX
    dsimp only
    rw [hskip z hz, hword, List.drop_append_of_le_length hle]
  -- either the word ends before the number, or it is cut there
  have hcut : ∀ z, ((q ++ z).takeWhile fun ch => !wordBlank ch).take 127 =
      (q.takeWhile fun ch => !wordBlank ch).take 127 := by
    by_cases hall : ∀ c ∈ q, (!wordBlank c) = true
    · have htake : ∀ z, (q ++ z).takeWhile (fun ch => !wordBlank ch) =
          q ++ z.takeWhile fun ch => !wordBlank ch :=
        fun z => List.takeWhile_append_of_pos hall
      have hfull : 127 ≤ q.length := by
        by_contra hshort
        have hy := h.length_pos
        have hword : 1 ≤ (y.takeWhile fun ch => !wordBlank ch).length := by
          obtain ⟨c, r, rfl, hc⟩ := h
          simp [wordBlank_of_isDigit hc]
        unfold wordScan wordscanX at hlen
        dsimp only at hlen
        rw [hskip y h, htake, List.length_drop, List.length_take, List.length_append,
          List.length_append] at hlen
        omega
      intro z
      rw [htake, List.takeWhile_eq_self_iff.mpr hall, List.take_append_of_le_length hfull]
    · intro z
      rw [List.takeWhile_append, if_neg]
      intro hlen
      exact hall (List.takeWhile_eq_self_iff.mp ((List.takeWhile_prefix _).eq_of_length hlen))
  exact ⟨_, _, hread y h (hcut y), hread y' h' (hcut y')⟩

/-! ## Formats -/

/-- Two scans that have read the same, and stand at the same place before a number. -/
structure Sim (y y' : Text) (st st' : Scanning) : Prop where
  fields : st'.toFields = st.toFields
  before : ∃ p, st.sp = p ++ y ∧ st'.sp = p ++ y'

theorem head_append_numbered (h : Numbered y) (h' : Numbered y') (hc : c.isDigit = false) (p : Text)
    :
    (p ++ y').head? = some c ↔ (p ++ y).head? = some c := by
  cases p with
  | cons d p => exact Iff.rfl
  | nil =>
    have hne : ∀ z, Numbered z → z.head? ≠ some c := by
      rintro z ⟨d, r, rfl, hd⟩ heq
      rw [List.head?_cons, Option.some.injEq] at heq
      rw [heq, hc] at hd
      cases hd
    exact iff_of_false (hne y' h') (hne y h)

theorem scanint_suffix (s : Text) : (scanint s).2 <:+ s := by
  rw [scanint_eq]
  exact List.dropWhile_suffix _

theorem awordscanX_suffix (size : Nat) (s : Text) : (awordscanX size s).2 <:+ s := by
  induction s generalizing size with
  | nil => match size with
    | 0 => exact List.suffix_refl _
    | 1 => exact List.suffix_refl _
    | _ + 2 => exact List.suffix_refl _
  | cons c s ih => match size with
    | 0 => exact List.suffix_refl _
    | 1 => exact List.suffix_refl _
    | size + 2 =>
      rw [awordscanX]
      split
      · exact (ih (size + 1)).trans (List.suffix_cons c s)
      · exact List.suffix_refl _

theorem wordScan_suffix (s : Text) : (wordScan s).2 <:+ s :=
  (List.drop_suffix _ _).trans (List.dropWhile_suffix _)

/-- A directive only goes on in the text. -/
theorem directive_suffix {s : Scanning} (h : st.directive c = some s) : s.sp <:+ st.sp := by
  unfold Scanning.directive at h
  split at h
  all_goals first
    | (cases h; exact List.suffix_refl _)
    | (cases h; exact scanint_suffix _)
    | (cases h; exact awordscanX_suffix _ _)
    | (cases h; exact wordScan_suffix _)
    | (split at h <;> cases h; exact List.tail_suffix _)

theorem along_suffix (fmt : Text) (st : Scanning) : (Scanning.along fmt st).sp <:+ st.sp := by
  induction fmt using codes.induct generalizing st with
  | case1 c fp ih =>
    rw [Scanning.along]
    cases hd : st.directive c with
    | none => exact List.suffix_refl _
    | some s => exact (ih s).trans (directive_suffix hd)
  | case2 ch fp hone ih =>
    by_cases hch : ch = '%'
    · cases fp with
      | nil =>
        rw [hch]
        exact List.suffix_refl _
      | cons c fp => exact (hone c fp hch rfl).elim
    · rw [Scanning.along_char hch]
      split
      · exact (ih _).trans (List.dropWhile_suffix _)
      · split
        · exact (ih _).trans (List.tail_suffix _)
        · exact List.suffix_refl _
  | case3 => exact List.suffix_refl _

theorem directive_sim (h : Numbered y) (h' : Numbered y') {st' s : Scanning}
    (hsim : Sim y y' st st') (hd : st.directive c = some s) (hlen : y.length ≤ s.sp.length) :
    ∃ s', st'.directive c = some s' ∧ Sim y y' s s' := by
  obtain ⟨f, sp, yyp⟩ := st
  obtain ⟨f', sp', yyp'⟩ := st'
  obtain ⟨hfields, p, hp, hp'⟩ := hsim
  dsimp only at hfields hp hp'
  subst hfields hp hp'
  have hint := @local_scanint y y' h p
  have haword := local_awordscan h h' p
  have hword := local_wordScan h h' p
  unfold Scanning.directive at hd ⊢
  split at hd
  case h_2 =>
    split at hd
    · rename_i hhead
      cases hd
      obtain ⟨d, p, rfl⟩ : ∃ d p', p = d :: p' := by
        refine List.exists_cons_of_ne_nil ?_
        rintro rfl
        have hpos := h.length_pos
        change y.length ≤ y.tail.length at hlen
        rw [List.length_tail] at hlen
        omega
      exact ⟨_, if_pos hhead, rfl, p, rfl, rfl⟩
    · cases hd
  all_goals cases hd
  case h_1 | h_18 => exact ⟨_, rfl, rfl, p, rfl, rfl⟩
  case h_7 | h_8 | h_11 | h_12 | h_13 | h_16 | h_17 =>
    obtain ⟨a, p', h1, h2⟩ := hint hlen
    exact ⟨_, rfl, by simp only [Scanning.readYear, h1, h2], p',
      by simp only [Scanning.readYear, h1], by simp only [Scanning.readYear, h2]⟩
  case h_3 | h_4 | h_5 | h_6 | h_14 | h_15 =>
    obtain ⟨a, p', h1, h2⟩ := haword hlen
    exact ⟨_, rfl, by simp only [h1, h2], p', by simp only [h1], by simp only [h2]⟩
  case h_9 | h_10 =>
    obtain ⟨a, p', h1, h2⟩ := hword hlen
    exact ⟨_, rfl, by simp only [h1, h2], p', by simp only [h1], by simp only [h2]⟩

theorem directive_sim_none (h : Numbered y) (h' : Numbered y') {st' : Scanning}
    (hsim : Sim y y' st st') (hd : st.directive c = none) : st'.directive c = none := by
  obtain ⟨p, hp, hp'⟩ := hsim.before
  unfold Scanning.directive at hd ⊢
  split at hd
  case h_2 =>
    split at hd
    · cases hd
    · rename_i hhead
      rw [hp, ← head_append_numbered h h' rfl, ← hp'] at hhead
      exact if_neg hhead
  all_goals cases hd

/-- A scan that leaves the number alone reads the same with another number in its place. -/
theorem along_sim {fmt : Text} (h : Numbered y) (h' : Numbered y')
    (hfmt : ∀ c ∈ fmt, c.isDigit = false) {st' : Scanning} (hsim : Sim y y' st st')
    (hlen : y.length ≤ (Scanning.along fmt st).sp.length) :
    Sim y y' (Scanning.along fmt st) (Scanning.along fmt st') := by
  induction fmt using codes.induct generalizing st st' with
  | case1 c fp ih =>
    rw [Scanning.along] at hlen ⊢
    rw [Scanning.along]
    cases hd : st.directive c with
    | none =>
      rw [directive_sim_none h h' hsim hd]
      exact hsim
    | some s =>
      rw [hd] at hlen
      obtain ⟨s', hd', hs⟩ := directive_sim h h' hsim hd
        (le_trans hlen (along_suffix fp s).length_le)
      rw [hd']
      exact ih (fun c hc => hfmt c (List.mem_cons_of_mem _ (List.mem_cons_of_mem _ hc))) hs hlen
  | case2 ch fp hone ih =>
    have htail : ∀ c ∈ fp, c.isDigit = false := fun c hc => hfmt c (List.mem_cons_of_mem _ hc)
    by_cases hch : ch = '%'
    · cases fp with
      | nil =>
        rw [hch]
        exact hsim
      | cons c fp => exact (hone c fp hch rfl).elim
    · obtain ⟨p, hp, hp'⟩ := hsim.before
      have hhead : st'.sp.head? = some ch ↔ st.sp.head? = some ch := by
        rw [hp, hp']
        exact head_append_numbered h h' (hfmt ch List.mem_cons_self) p
      rw [Scanning.along_char hch] at hlen ⊢
      rw [Scanning.along_char hch]
      by_cases hblank : blank ch = true
      · rw [if_pos hblank] at hlen ⊢
        rw [if_pos hblank]
        refine ih htail ⟨hsim.fields, p.dropWhile blank, ?_, ?_⟩ hlen
        · exact (congrArg _ hp).trans (dropWhile_numbered h (fun _ => blank_of_isDigit) p)
        · exact (congrArg _ hp').trans (dropWhile_numbered h' (fun _ => blank_of_isDigit) p)
      · rw [if_neg hblank] at hlen ⊢
        rw [if_neg hblank]
        by_cases hmatch : st.sp.head? = some ch
        · rw [if_pos hmatch] at hlen ⊢
          rw [if_pos (hhead.mpr hmatch)]
          obtain ⟨d, p, rfl⟩ : ∃ d p', p = d :: p' := by
            refine List.exists_cons_of_ne_nil ?_
            rintro rfl
            have hpos := h.length_pos
            have hle := (along_suffix fp { st with sp := st.sp.tail }).length_le
            dsimp only at hle
            rw [hp, List.nil_append, List.length_tail] at hle
            rw [hp, List.nil_append] at hlen
            omega
          refine ih htail ⟨hsim.fields, p, ?_, ?_⟩ hlen
          · exact congrArg List.tail hp
          · exact congrArg List.tail hp'
        · rw [if_neg hmatch] at hlen ⊢
          rw [if_neg (fun hm => hmatch (hhead.mp hm))]
          exact hsim
  | case3 => exact hsim

/-! ## Canonical years -/

def isYear (c : Char) : Bool := c == 'y' || c == 'Y'

/-- A year number and another one that is read as the same year, with the same text after them.
The other is not a short one. -/
structure Canon (y y' : Text) : Prop where
  number : Numbered y
  number' : Numbered y'
  year : year2internal (scanint y').1 = year2internal (scanint y).1
  rest : (scanint y').2 = (scanint y).2
  long : ¬ atoi y' < 200

/-- Only the directives of the year look at the year that is noted. -/
theorem directive_yyp (st : Scanning) (hc : isYear c = false) (z : Option Text) :
    Scanning.directive { st with yyp := z } c =
      (st.directive c).map fun s => { s with yyp := z } := by
  unfold Scanning.directive
  split
  case h_2 => split <;> rfl
  case h_16 => cases hc
  case h_17 => cases hc
  all_goals rfl

theorem along_yyp {fmt : Text} (hc : ∀ c ∈ codes fmt, isYear c = false) (st : Scanning)
    (z : Option Text) :
    Scanning.along fmt { st with yyp := z } = { Scanning.along fmt st with yyp := z } := by
  induction fmt using codes.induct generalizing st with
  | case1 c fp ih =>
    rw [Scanning.along, Scanning.along, directive_yyp st (hc c List.mem_cons_self)]
    cases st.directive c with
    | none => rfl
    | some s => exact ih (fun c hm => hc c (List.mem_cons_of_mem _ hm)) s
  | case2 ch fp hone ih =>
    by_cases hch : ch = '%'
    · cases fp with
      | nil =>
        rw [hch]
        rfl
      | cons c fp => exact (hone c fp hch rfl).elim
    · rw [codes_char hch] at hc
      rw [Scanning.along_char hch, Scanning.along_char hch]
      split
      · exact ih hc { st with sp := st.sp.dropWhile blank }
      · split
        · exact ih hc { st with sp := st.sp.tail }
        · rfl
  | case3 => rfl

theorem readYear_noted (hwhole : st.isPartial = false) (full : Bool) :
    st.readYear full = { st with
      yyp := if (st.sp.head?.any Char.isDigit) ∧ atoi st.sp < 200 then some st.sp else st.yyp
      sp := (scanint st.sp).2
      year := year2internal (scanint st.sp).1 } := by
  unfold Scanning.readYear
  simp [hwhole]

theorem directive_year (hc : isYear c = true) : st.directive c = some (st.readYear (c == 'Y')) := by
  unfold isYear at hc
  rw [Bool.or_eq_true, beq_iff_eq, beq_iff_eq] at hc
  rcases hc with rfl | rfl <;> rfl

theorem along_year {fmt : Text} (hc : ∀ c ∈ codes fmt, isYear c = false) (st : Scanning) :
    (Scanning.along fmt st).year = st.year := by
  apply @Scanning.along_inv (fun f => f.year = st.year) fmt _ st rfl
  intro c hm s s' hd hyear
  have hnot : c ∉ ['y', 'Y'] := by
    intro hin
    have hless := hc c hm
    simp only [List.mem_cons, List.not_mem_nil, or_false] at hin
    rcases hin with rfl | rfl <;> cases hless
  exact ((Scanning.directive_keeps hd).2.1 hnot).trans hyear

/-- What is known of a year `y` that was noted by a scan from `st`: it is the short year number that
was read, it stands behind what the scan stands at, and a canonical year in its place is read
alike. -/
structure Noted (fmt : Text) (st : Scanning) (y : Text) : Prop where
  number : Numbered y
  short : atoi y < 200
  year : (Scanning.along fmt st).year = year2internal (scanint y).1
  alike : ∃ p, st.sp = p ++ y ∧ ∀ y', Canon y y' → ∀ st' : Scanning,
    st'.toFields = st.toFields → st'.sp = p ++ y' → st'.yyp = none →
      Scanning.along fmt st' = { Scanning.along fmt st with yyp := none }

/-- A directive that reads no year notes none. -/
theorem directive_yyp_none {s : Scanning} (hc : isYear c = false) (hd : st.directive c = some s)
    (hnone : st.yyp = none) : s.yyp = none := by
  have hsame := directive_yyp st hc none
  rw [hd, ← hnone] at hsame
  have heq : st.directive c = some { s with yyp := st.yyp } := hsame
  rw [hd, Option.some.injEq] at heq
  rw [heq]
  exact hnone

/-- The directive that reads the year. -/
theorem Noted.here {fp : Text} (hc : isYear c = true) (hless : ∀ d ∈ codes fp, isYear d = false)
    (hwhole : st.isPartial = false) (hshort : st.sp.head?.any Char.isDigit ∧ atoi st.sp < 200) :
    Noted ('%' :: c :: fp) st st.sp := by
  constructor
  · obtain ⟨hdigit, -⟩ := hshort
    cases hsp : st.sp with
    | nil =>
      rw [hsp] at hdigit
      cases hdigit
    | cons d r =>
      rw [hsp] at hdigit
      exact ⟨d, r, rfl, hdigit⟩
  · exact hshort.2
  · rw [Scanning.along, directive_year hc, readYear_noted hwhole]
    exact along_year hless _
  · refine ⟨[], rfl, ?_⟩
    intro y' h st' hfields hsp hyyp
    obtain ⟨f', sp', yyp'⟩ := st'
    dsimp only at hfields hsp hyyp
    subst hfields hyyp
    rw [List.nil_append] at hsp
    subst hsp
    have hwhole' : (⟨st.toFields, sp', none⟩ : Scanning).isPartial = false := hwhole
    rw [Scanning.along, Scanning.along, directive_year hc, directive_year hc,
      readYear_noted hwhole, readYear_noted hwhole']
    dsimp only
    rw [if_neg (fun hl => h.long hl.2), if_pos hshort, h.year, h.rest]
    exact along_yyp hless ⟨_, _, some st.sp⟩ none

/-- A directive before the one that reads the year. -/
theorem Noted.directive {fp : Text} (hc : isYear c = false) {s : Scanning}
    (hd : st.directive c = some s) (h : Noted fp s y) : Noted ('%' :: c :: fp) st y := by
  obtain ⟨hnumber, hshort, hyear, q, hq, hrun⟩ := h
  obtain ⟨t, ht⟩ := directive_suffix hd
  have hsplit : st.sp = (t ++ q) ++ y := by rw [← ht, hq, List.append_assoc]
  refine ⟨hnumber, hshort, ?_, t ++ q, hsplit, ?_⟩
  · rw [Scanning.along, hd]
    exact hyear
  · intro y' h st' hfields hsp hyyp
    have hlen : y.length ≤ s.sp.length := by
      rw [hq, List.length_append]
      omega
    obtain ⟨s', hd', hs⟩ := directive_sim h.number h.number' ⟨hfields, t ++ q, hsplit, hsp⟩ hd hlen
    obtain ⟨r, hr, hr'⟩ := hs.before
    have hrq : r = q := List.append_cancel_right (hr.symm.trans hq)
    rw [Scanning.along, Scanning.along, hd, hd']
    exact hrun y' h s' hs.fields (hrq ▸ hr') (directive_yyp_none hc hd' hyyp)

/-- A blank of the format before the directive that reads the year. -/
theorem Noted.blank {fp : Text} {ch : Char} (hblank : strftime.blank ch = true)
    (h : Noted fp { st with sp := st.sp.dropWhile strftime.blank } y) : Noted (ch :: fp) st y := by
  obtain ⟨hnumber, hshort, hyear, q, hq, hrun⟩ := h
  obtain ⟨t, ht⟩ := @List.dropWhile_suffix _ st.sp strftime.blank
  change st.sp.dropWhile strftime.blank = q ++ y at hq
  have hsplit : st.sp = (t ++ q) ++ y := by rw [← ht, hq, List.append_assoc]
  refine ⟨hnumber, hshort, ?_, t ++ q, hsplit, ?_⟩
  · rw [Scanning.along_blank hblank]
    exact hyear
  · intro y' h st' hfields hsp hyyp
    have hdrop : (t ++ q).dropWhile strftime.blank = q := by
      have hstart := dropWhile_numbered hnumber (fun _ => blank_of_isDigit) (t ++ q)
      rw [← hsplit] at hstart
      exact List.append_cancel_right (hstart.symm.trans hq)
    rw [Scanning.along_blank hblank, Scanning.along_blank hblank]
    refine hrun y' h { st' with sp := st'.sp.dropWhile strftime.blank } hfields ?_ hyyp
    dsimp only
    rw [hsp, dropWhile_numbered h.number' (fun _ => blank_of_isDigit), hdrop]

/-- A character of the format before the directive that reads the year. -/
theorem Noted.char {fp : Text} {ch : Char} (hch : ch ≠ '%') (hblank : ¬ strftime.blank ch = true)
    (hmatch : st.sp.head? = some ch) (h : Noted fp { st with sp := st.sp.tail } y) :
    Noted (ch :: fp) st y := by
  have hblank' : strftime.blank ch = false := by simpa using hblank
  obtain ⟨hnumber, hshort, hyear, q, hq, hrun⟩ := h
  change st.sp.tail = q ++ y at hq
  have hsp : st.sp = ch :: (q ++ y) := by
    rw [← hq]
    exact (List.cons_head?_tail (Option.mem_def.mpr hmatch)).symm
  refine ⟨hnumber, hshort, ?_, ch :: q, hsp, ?_⟩
  · rw [Scanning.along_match hch hblank' fp hsp, ← hq]
    exact hyear
  · intro y' h st' hfields hsp' hyyp
    rw [Scanning.along_match hch hblank' fp hsp, Scanning.along_match hch hblank' fp hsp', ← hq]
    exact hrun y' h { st' with sp := q ++ y' } hfields rfl hyyp

theorem along_noted {fmt : Text} (hfmt : ∀ c ∈ fmt, c.isDigit = false)
    (hone : (codes fmt).countP isYear ≤ 1) (hP : 'P' ∉ codes fmt) (hnone : st.yyp = none)
    (hwhole : st.isPartial = false) (hy : (Scanning.along fmt st).yyp = some y) :
    Noted fmt st y := by
  induction fmt using codes.induct generalizing st with
  | case1 c fp ih =>
    have hfp : ∀ c ∈ fp, c.isDigit = false := fun d hd =>
      hfmt d (List.mem_cons_of_mem _ (List.mem_cons_of_mem _ hd))
    have hPfp : 'P' ∉ codes fp := fun hm => hP (List.mem_cons_of_mem _ hm)
    rw [codes, List.countP_cons] at hone
    rw [Scanning.along] at hy
    by_cases hc : isYear c = true
    · have hless : ∀ d ∈ codes fp, isYear d = false := by
        rw [if_pos hc] at hone
        have hzero : (codes fp).countP isYear = 0 := by omega
        intro d hd
        simpa using List.countP_eq_zero.mp hzero d hd
      rw [directive_year hc, readYear_noted hwhole] at hy
      dsimp only at hy
      rw [along_yyp hless ⟨_, _, none⟩] at hy
      dsimp only at hy
      split at hy
      · rename_i hshort
        cases hy
        exact .here hc hless hwhole hshort
      · rw [hnone] at hy
        cases hy
    · have hyear : isYear c = false := by simpa using hc
      rw [if_neg hc] at hone
      cases hd : st.directive c with
      | none =>
        rw [hd] at hy
        dsimp only at hy
        rw [hnone] at hy
        cases hy
      | some s =>
        rw [hd] at hy
        have hpart : s.isPartial = false := by
          rw [(Scanning.directive_keeps hd).2.2.2.2.2 (fun he => hP (he ▸ List.mem_cons_self))]
          exact hwhole
        have hkeep := directive_yyp_none hyear hd hnone
        exact (ih hfp (by omega) hPfp hkeep hpart hy).directive hyear hd
  | case2 ch fp hnot ih =>
    have hfp : ∀ c ∈ fp, c.isDigit = false := fun d hd => hfmt d (List.mem_cons_of_mem _ hd)
    by_cases hch : ch = '%'
    · cases fp with
      | nil =>
        rw [hch] at hy
        exact absurd (hnone.symm.trans hy) (by simp)
      | cons c fp => exact (hnot c fp hch rfl).elim
    · rw [codes_char hch] at hone hP
      rw [Scanning.along_char hch] at hy
      split at hy
      · rename_i hblank
        exact .blank hblank (ih hfp hone hP hnone hwhole hy)
      · rename_i hblank
        split at hy
        · rename_i hmatch
          exact .char hch hblank hmatch (ih hfp hone hP hnone hwhole hy)
        · exact absurd (hnone.symm.trans hy) (by simp)
  | case3 => exact absurd (hnone.symm.trans hy) (by simp)

end delegate.strftime
