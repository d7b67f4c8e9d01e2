-- The password of a URL. `url_strippass` looks for the last `@` of the site in a
-- copy of 63 characters without the blanks before it, and takes its place there
-- for its place in the URL.
import Delegate.UrlSite

open ctext

namespace delegate.url

/-! ## The pure model -/

/-- `site_strippass`: the site afterwards. -/
def site_strippass (site : Text) : Text :=
  let u := scan_userpassX site
  if u.2.2.head? = some '@' then u.1 ++ u.2.2 else site

/-- `url_strippass`: the URL afterwards. -/
def url_strippass (url : Text) : Text :=
  match strstr [':', '/', '/'] url with
  | some (before, sp) => before ++ sp.take 3 ++ site_strippass (sp.drop 3)
  | none => url

/-! ## The copy of the site -/

/-- A character that does not end the site. -/
def inUser (c : Char) : Prop := c ≠ '/' ∧ c ≠ '?' ∧ c ≠ '\r' ∧ c ≠ '\n'

/-- Nothing, or a text that begins where a site ends. -/
def EndsSite (tail : Text) : Prop := ∀ c ∈ tail.head?, ¬ inUser c

/-- `strpbrk(s,"/?\r\n")` does not find the character. -/
def notEnd (c : Char) : Bool := !(['/', '?', '\r', '\n'].contains c)

theorem notEnd_iff (c : Char) : notEnd c = true ↔ inUser c := by
  unfold notEnd inUser
  simp

theorem takeWhile_copyLine_user (n : Nat) {s tail : Text} (hs : ∀ c ∈ s, inUser c)
    (ht : EndsSite tail) : (copyLine n (s ++ tail)).takeWhile notEnd = s.take n := by
  induction s generalizing n with
  | nil =>
    cases n with
    | zero => cases tail <;> rfl
    | succ n =>
      cases tail with
      | nil => rfl
      | cons c tail =>
        have hc : notEnd c = false := by
          have hno := ht c rfl
          rw [← notEnd_iff] at hno
          simpa using hno
        rw [List.nil_append, List.take_nil]
        unfold copyLine
        split
        · rfl
        · exact List.takeWhile_cons_of_neg (by simp [hc])
  | cons c s ih =>
    cases n with
    | zero => rfl
    | succ n =>
      have hc := hs c List.mem_cons_self
      rw [List.cons_append, copyLine, if_neg (by simp [hc.2.2.1, hc.2.2.2]),
        List.takeWhile_cons_of_pos ((notEnd_iff c).mpr hc), List.take_succ_cons,
        ih n fun d hd => hs d (List.mem_cons_of_mem _ hd)]

/-- A blank, which is skipped before the copy. -/
def blank (c : Char) : Bool := c == ' ' || c == '\t'

/-- What `scan_userpassX` copies. -/
def copied (site : Text) : Text := (linescanX site 64).takeWhile notEnd

theorem copied_eq {s tail : Text} (hs : ∀ c ∈ s, inUser c) (ht : EndsSite tail)
    (hblank : ∀ c ∈ (s ++ tail).head?, blank c = false) : copied (s ++ tail) = s.take 63 := by
  have hdrop : (s ++ tail).dropWhile blank = s ++ tail := by
    cases hst : s ++ tail with
    | nil => rfl
    | cons c l =>
      rw [hst] at hblank
      exact List.dropWhile_cons_of_neg (by simp [hblank c rfl])
  unfold copied linescanX
  change (copyLine 63 ((s ++ tail).dropWhile blank)).takeWhile notEnd = _
  rw [hdrop]
  exact takeWhile_copyLine_user 63 hs ht

/-- What is copied does not begin with a blank. -/
theorem head_copied (site : Text) : ∀ c ∈ (copied site).head?, blank c = false := by
  intro c hc
  have hfirst : ∀ n (s : Text) d, d ∈ ((copyLine n s).takeWhile notEnd).head? → d ∈ s.head? := by
    intro n s d hd
    cases n with
    | zero => simp [copyLine] at hd
    | succ n =>
      cases s with
      | nil => simp [copyLine] at hd
      | cons e s =>
        unfold copyLine at hd
        split at hd
        · simp at hd
        · rw [List.takeWhile_cons] at hd
          split at hd
          · simpa using hd
          · simp at hd
  have hhead := hfirst 63 (site.dropWhile blank) c hc
  have hnot := head_dropWhile blank site c hhead
  simpa using hnot

/-- `scan_userpassX`, from the copy. -/
theorem scan_userpassX_eq (site : Text) :
    scan_userpassX site =
      let hp := strrchr '@' (copied site)
      let i_user := hp.elim (copied site) Prod.fst
      let np := hp.elim [] fun p => site.drop p.1.length
      match afterChr ':' i_user with
      | some pp => (beforeChr ':' i_user, (wordscanY pp 64 ['^', '\r', '\n']).1, np)
      | none => (i_user, [], np) := rfl

theorem beforeChr_eq_self {c : Char} {s : Text} (h : c ∉ s) : beforeChr c s = s := by
  unfold beforeChr
  apply List.takeWhile_eq_self_iff.mpr
  intro d hd
  simp only [decide_eq_true_eq]
  rintro rfl
  exact h hd

theorem length_beforeChr {c : Char} {s : Text} (h : c ∈ s) :
    (beforeChr c s).length < s.length := by
  obtain ⟨a, b, rfl, ha⟩ := List.eq_append_cons_of_mem h
  rw [beforeChr_append ha]
  simp

theorem beforeChr_append_of_mem {c : Char} {s : Text} (t : Text) (h : c ∈ s) :
    beforeChr c (s ++ t) = beforeChr c s := by
  obtain ⟨a, b, rfl, ha⟩ := List.eq_append_cons_of_mem h
  rw [List.append_assoc, List.cons_append, beforeChr_append ha, beforeChr_append ha]

/-- What is printed first: the user in the copy. -/
theorem scan_userpassX_user (site : Text) :
    (scan_userpassX site).1 =
      beforeChr ':' ((strrchr '@' (copied site)).elim (copied site) Prod.fst) := by
  rw [scan_userpassX_eq]
  dsimp only
  generalize (strrchr '@' (copied site)).elim (copied site) Prod.fst = user
  split
  · rfl
  · rename_i hnone
    apply (beforeChr_eq_self _).symm
    intro hmem
    obtain ⟨a, b, rfl, ha⟩ := List.eq_append_cons_of_mem hmem
    rw [afterChr_append ha] at hnone
    cases hnone

/-- The site afterwards: as it was, or the text before the first `:` of the user in the copy and
what stands in the site where the copy has its last `@`. -/
theorem site_strippass_cases (site : Text) :
    ('@' ∉ copied site ∧ site_strippass site = site) ∨
    ∃ a b, copied site = a ++ '@' :: b ∧ '@' ∉ b ∧
      site_strippass site =
        if (site.drop a.length).head? = some '@' then beforeChr ':' a ++ site.drop a.length
        else site := by
  have hnp : (scan_userpassX site).2.2 =
      (strrchr '@' (copied site)).elim [] fun p => site.drop p.1.length := scan_userpassX_np site
  unfold site_strippass
  dsimp only
  rw [scan_userpassX_user, hnp]
  rcases strrchr_cases '@' (copied site) with hno | ⟨a, b, hab, hb⟩
  · apply Or.inl
    rw [strrchr_eq_none hno]
    exact ⟨hno, if_neg (by simp)⟩
  · apply Or.inr
    refine ⟨a, b, hab, hb, ?_⟩
    rw [hab, strrchr_append hb]
    rfl

/-! ## The password -/

section
variable {p h tail : Text}

theorem expected_shorter (hcolon : ':' ∈ p) :
    (beforeChr ':' p ++ '@' :: h ++ tail).length < (p ++ '@' :: h ++ tail).length := by
  have hlen := length_beforeChr hcolon
  simp
  omega

/-- Without a blank at its beginning, a site is copied as it is, up to 63 characters. -/
theorem copied_site (hp : ∀ c ∈ p, inUser c) (hh : ∀ c ∈ h, inUser c) (htail : EndsSite tail)
    (hcolon : ':' ∈ p) (hblank : ∀ c ∈ p.head?, blank c = false) :
    copied (p ++ '@' :: h ++ tail) = (p ++ '@' :: h).take 63 := by
  have hs : ∀ c ∈ p ++ '@' :: h, inUser c := by
    intro c hc
    rcases List.mem_append.mp hc with hc | hc
    · exact hp c hc
    · rcases List.mem_cons.mp hc with rfl | hc
      · simp [inUser]
      · exact hh c hc
  apply copied_eq hs htail
  cases p with
  | nil => cases hcolon
  | cons d p => exact hblank

/-- A user part that fits the copy is found there. -/
theorem site_strippass_short (hp : ∀ c ∈ p, inUser c) (hh : ∀ c ∈ h, inUser c) (hat : '@' ∉ h)
    (htail : EndsSite tail) (hlen : p.length < 63) (hcolon : ':' ∈ p)
    (hblank : ∀ c ∈ p.head?, blank c = false) :
    site_strippass (p ++ '@' :: h ++ tail) = beforeChr ':' p ++ '@' :: h ++ tail := by
  have hcopy : copied (p ++ '@' :: h ++ tail) = p ++ '@' :: h.take (62 - p.length) := by
    rw [copied_site hp hh htail hcolon hblank]
    obtain ⟨k, hk⟩ : ∃ k, 63 = p.length + (k + 1) := ⟨62 - p.length, by omega⟩
    rw [hk, List.take_length_add_append, List.take_succ_cons]
    congr 3
    omega
  have hcut : '@' ∉ h.take (62 - p.length) := fun hm => hat (List.mem_of_mem_take hm)
  rcases site_strippass_cases (p ++ '@' :: h ++ tail) with ⟨hno, -⟩ | ⟨a, b, hab, hb, hres⟩
  · rw [hcopy] at hno
    exact absurd (List.mem_append_right _ List.mem_cons_self) hno
  · rw [hcopy] at hab
    have hsame := congrArg (strrchr '@') hab
    rw [strrchr_append hcut, strrchr_append hb] at hsame
    have ha : p = a := congrArg Prod.fst (Option.some.inj hsame)
    subst ha
    rw [hres]
    simp

/-- A user part that begins with a blank loses it, or keeps its password. -/
theorem site_strippass_blank (hcolon : ':' ∈ p) (hblank : ∃ c ∈ p.head?, blank c = true) :
    site_strippass (p ++ '@' :: h ++ tail) ≠ beforeChr ':' p ++ '@' :: h ++ tail := by
  obtain ⟨c, hc, hblank⟩ := hblank
  obtain ⟨p, rfl⟩ : ∃ q, p = c :: q := by
    cases p with
    | nil => simp at hc
    | cons d q =>
      simp only [List.head?_cons, Option.mem_def, Option.some.injEq] at hc
      exact ⟨q, by rw [hc]⟩
  have hne : c ≠ ':' := by
    rintro rfl
    simp [blank] at hblank
  have hat : c ≠ '@' := by
    rintro rfl
    simp [blank] at hblank
  have hexp : beforeChr ':' (c :: p) = c :: beforeChr ':' p := by
    unfold beforeChr
    exact List.takeWhile_cons_of_pos (by simpa using hne)
  intro heq
  rcases site_strippass_cases (c :: p ++ '@' :: h ++ tail) with ⟨-, hsame⟩ | ⟨a, b, hab, -, hres⟩
  · rw [hsame] at heq
    exact absurd (congrArg List.length heq) (Nat.ne_of_gt (expected_shorter hcolon))
  · rw [hres] at heq
    split at heq
    · rename_i hfirst
      rw [hexp] at heq
      have hhead := congrArg List.head? heq
      cases hb : beforeChr ':' a with
      | nil =>
        rw [hb, List.nil_append, hfirst] at hhead
        simp only [List.cons_append, List.head?_cons, Option.some.injEq] at hhead
        exact hat hhead.symm
      | cons d l =>
        rw [hb] at hhead
        simp only [List.cons_append, List.head?_cons, Option.some.injEq] at hhead
        have hd : d ∈ (copied (c :: p ++ '@' :: h ++ tail)).head? := by
          have hpre : beforeChr ':' a <+: a := List.takeWhile_prefix _
          rw [hb] at hpre
          obtain ⟨rest, rfl⟩ := hpre
          rw [hab]
          simp
        rw [hhead] at hd
        have hnot := head_copied _ c hd
        rw [hblank] at hnot
        cases hnot
    · exact absurd (congrArg List.length heq) (Nat.ne_of_gt (expected_shorter hcolon))

/-- The password of a user part that does not fit the copy stays, or a part of it. -/
theorem site_strippass_long (hp : ∀ c ∈ p, inUser c) (hh : ∀ c ∈ h, inUser c)
    (htail : EndsSite tail) (hlen : 63 ≤ p.length) (hcolon : ':' ∈ p)
    (hblank : ∀ c ∈ p.head?, blank c = false) :
    site_strippass (p ++ '@' :: h ++ tail) ≠ beforeChr ':' p ++ '@' :: h ++ tail := by
  have hcopy : copied (p ++ '@' :: h ++ tail) = p.take 63 := by
    rw [copied_site hp hh htail hcolon hblank, List.take_append_of_le_length hlen]
  intro heq
  rcases site_strippass_cases (p ++ '@' :: h ++ tail) with ⟨-, hsame⟩ | ⟨a, b, hab, -, hres⟩
  · rw [hsame] at heq
    exact absurd (congrArg List.length heq) (Nat.ne_of_gt (expected_shorter hcolon))
  · rw [hres] at heq
    split at heq
    · rw [hcopy] at hab
      have hpa : p = a ++ ('@' :: b ++ p.drop 63) := by
        rw [← List.append_assoc, ← hab, List.take_append_drop]
      have hshort : a.length < 63 := by
        have hl := congrArg List.length hab
        simp at hl
        omega
      have hl := congrArg List.length heq
      rw [List.append_assoc p, List.append_assoc (beforeChr ':' p), List.length_append,
        List.length_append, List.length_drop, List.length_append] at hl
      by_cases hmem : ':' ∈ a
      · have hsame : beforeChr ':' p = beforeChr ':' a := by
          rw [hpa, beforeChr_append_of_mem _ hmem]
        rw [hsame] at hl
        omega
      · have hlt := length_beforeChr hcolon
        rw [beforeChr_eq_self hmem] at hl
        omega
    · exact absurd (congrArg List.length heq) (Nat.ne_of_gt (expected_shorter hcolon))

end

theorem url_strippass_eq {scheme : Text} (site : Text) (h : ':' ∉ scheme) :
    url_strippass (scheme ++ [':', '/', '/'] ++ site) =
      scheme ++ [':', '/', '/'] ++ site_strippass site := by
  unfold url_strippass
  rw [List.append_assoc, strstr_append h]
  simp

theorem blank_eq_false_iff (c : Char) : blank c = false ↔ c ≠ ' ' ∧ c ≠ '\t' := by
  unfold blank
  simp

/-- The password of a URL is taken out, and nothing else, exactly if the user part is shorter
than 63 characters and begins with neither a blank nor a tab. -/
theorem password_stripped_iff (scheme p h tail : Text) (hscheme : ':' ∉ scheme)
    (hp : ∀ c ∈ p, inUser c) (hcolon : ':' ∈ p) (hh : ∀ c ∈ h, inUser c) (hat : '@' ∉ h)
    (htail : EndsSite tail) :
    url_strippass (scheme ++ [':', '/', '/'] ++ (p ++ '@' :: h ++ tail)) =
        scheme ++ [':', '/', '/'] ++ (beforeChr ':' p ++ '@' :: h ++ tail) ↔
      p.length < 63 ∧ ∀ c ∈ p.head?, c ≠ ' ' ∧ c ≠ '\t' := by
  rw [url_strippass_eq _ hscheme, List.append_right_inj]
  constructor
  · intro heq
    have hblank : ∀ c ∈ p.head?, blank c = false := by
      intro c hc
      cases hb : blank c with
      | false => rfl
      | true => exact absurd heq (site_strippass_blank hcolon ⟨c, hc, hb⟩)
    constructor
    · by_contra hlong
      exact site_strippass_long hp hh htail (by omega) hcolon hblank heq
    · intro c hc
      exact (blank_eq_false_iff c).mp (hblank c hc)
  · rintro ⟨hlen, hblank⟩
    apply site_strippass_short hp hh hat htail hlen hcolon
    intro c hc
    exact (blank_eq_false_iff c).mpr (hblank c hc)

theorem password_stripped_short :
    ':' ∉ "ftp".toList ∧ (∀ c ∈ "user:p:a@ss".toList, inUser c) ∧ EndsSite "/path?q".toList ∧
      (url_strippass ("ftp".toList ++ [':', '/', '/'] ++
          ("user:p:a@ss".toList ++ '@' :: "host".toList ++ "/path?q".toList)) =
        "ftp".toList ++ [':', '/', '/'] ++
          (beforeChr ':' "user:p:a@ss".toList ++ '@' :: "host".toList ++ "/path?q".toList) ↔
        "user:p:a@ss".toList.length < 63 ∧
          ∀ c ∈ "user:p:a@ss".toList.head?, c ≠ ' ' ∧ c ≠ '\t') := by
  have hscheme : ':' ∉ "ftp".toList := by simp
  have hp : ∀ c ∈ "user:p:a@ss".toList, inUser c := by simp [inUser]
  have htail : EndsSite "/path?q".toList := by simp [EndsSite, inUser]
  exact ⟨hscheme, hp, htail, password_stripped_iff _ _ _ _ hscheme hp (by simp)
    (by simp [inUser]) (by simp) htail⟩

/-- A password of 70 characters stays in the URL. -/
theorem password_stays :
    ¬ ∀ scheme p h tail : Text, ':' ∉ scheme → (∀ c ∈ p, inUser c) → ':' ∈ p →
      (∀ c ∈ h, inUser c) → '@' ∉ h → EndsSite tail →
      url_strippass (scheme ++ [':', '/', '/'] ++ (p ++ '@' :: h ++ tail)) =
        scheme ++ [':', '/', '/'] ++ (beforeChr ':' p ++ '@' :: h ++ tail) := by
  intro hall
  have hp : ∀ c ∈ 'u' :: ':' :: List.replicate 70 'x', inUser c := by
    intro c hc
    rcases List.mem_cons.mp hc with rfl | hc
    · simp [inUser]
    · rcases List.mem_cons.mp hc with rfl | hc
      · simp [inUser]
      · rw [List.eq_of_mem_replicate hc]
        simp [inUser]
  have hcolon : ':' ∈ 'u' :: ':' :: List.replicate 70 'x' :=
    List.mem_cons_of_mem _ List.mem_cons_self
  have htail : EndsSite [] := by simp [EndsSite]
  have heq := hall ['f', 't', 'p'] _ ['h'] [] (by simp) hp hcolon (by simp [inUser]) (by simp) htail
  rw [url_strippass_eq _ (by simp), List.append_right_inj] at heq
  refine site_strippass_long hp (by simp [inUser]) htail ?_ hcolon ?_ heq
  · rw [List.length_cons, List.length_cons, List.length_replicate]
    omega
  · simp [blank]

end delegate.url
