-- A second charset of a Content-Type (mimekit/rfc822.cpp): `erase_charset_param` erases from the first `;`
-- that only blanks and `charset=` are behind, in a quoted value or not, to where `valuescanX` stops.
import Delegate.ContentCharset

open ctext segs

namespace delegate.rfc822

/-! ## Where it is -/

/-- The first `;` that only blanks and `charset=` are behind: the text that is kept before it, and the text
behind it. -/
def cutAt : Text → Option (Text × Text)
  | [] => none
  | c :: sp =>
    let np := sp.dropWhile isspace
    if c = ';' ∧ strncaseeq np charsetPat charsetPat.length = true then
      some ((c :: sp.takeWhile isspace).dropLast, np.drop charsetPat.length)
    else (cutAt sp).map fun k => (c :: k.1, k.2)

section
variable {x y t u b w : Text} {c : Char}

theorem erase_eq (t : Text) :
    erase_charset_param t = (cutAt t).map fun k => k.1 ++ (valuescanX k.2 32).2 := by
  induction t with
  | nil => rfl
  | cons c sp ih =>
    rw [erase_charset_param, cutAt]
    split_ifs
    · rfl
    · rw [ih, Option.map_map, Option.map_map]
      rfl

/-- `charset=` begins the text. -/
theorem charset_begins (h : strncaseeq t charsetPat charsetPat.length = true) :
    ∃ w, t = w ++ t.drop charsetPat.length ∧ strcaseeq w charsetPat = true := by
  unfold strncaseeq at h
  rw [List.take_length] at h
  exact ⟨_, (List.take_append_drop ..).symm, h⟩

theorem cutAt_some (h : cutAt t = some (b, y)) :
    ∃ a sp w, t = a ++ ';' :: (sp ++ (w ++ y)) ∧ b = a ++ (';' :: sp).dropLast ∧
      (∀ c ∈ sp, isspace c = true) ∧ strcaseeq w charsetPat = true := by
  induction t generalizing b y with
  | nil => cases h
  | cons c t ih =>
    rw [cutAt] at h
    split_ifs at h with hcut
    · cases h
      obtain ⟨rfl, hat⟩ := hcut
      obtain ⟨w, hw, hcharset⟩ := charset_begins hat
      refine ⟨[], t.takeWhile isspace, w, ?_, rfl, fun c hc => List.mem_takeWhile_imp hc, hcharset⟩
      rw [← hw, List.takeWhile_append_dropWhile]
      rfl
    · obtain ⟨⟨b', y'⟩, hrest, heq⟩ := Option.map_eq_some_iff.mp h
      cases heq
      obtain ⟨a, sp, w, rfl, rfl, hsp, hw⟩ := ih hrest
      exact ⟨c :: a, sp, w, rfl, rfl, hsp, hw⟩

/-- The text that is kept stands before a `;` or a blank, and `charset=`. -/
theorem cutAt_kept (h : cutAt t = some (b, y)) :
    ∃ e w, t = b ++ e :: (w ++ y) ∧ (e = ';' ∨ isspace e = true) ∧ strcaseeq w charsetPat = true := by
  obtain ⟨a, sp, w, rfl, rfl, hsp, hw⟩ := cutAt_some h
  have hne : ';' :: sp ≠ [] := List.cons_ne_nil _ _
  refine ⟨(';' :: sp).getLast hne, w, ?_, ?_, hw⟩
  · have hlast : ';' :: (sp ++ (w ++ y)) = (';' :: sp).dropLast ++ [(';' :: sp).getLast hne] ++ (w ++ y) := by
      rw [List.dropLast_append_getLast hne]
      rfl
    rw [hlast]
    simp
  · rcases List.mem_cons.mp (List.getLast_mem hne) with hlast | hlast
    · exact .inl hlast
    · exact .inr (hsp _ hlast)

theorem mem_equal_charset (h : strcaseeq w charsetPat = true) : '=' ∈ w := by
  have hback : strcaseeq charsetPat w = true := by
    unfold strcaseeq at h ⊢
    exact beq_iff_eq.mpr (eq_of_beq h).symm
  exact mem_of_strcaseeq hback rfl (by simp [charsetPat])

theorem cutAt_no_equal (h : '=' ∉ t) : cutAt t = none := by
  rw [Option.eq_none_iff_forall_ne_some]
  rintro ⟨b, y⟩ hcut
  obtain ⟨a, sp, w, rfl, -, -, hw⟩ := cutAt_some hcut
  exact h (by simp [mem_equal_charset hw])

theorem cutAt_skip (h : ';' ∉ x) : cutAt (x ++ t) = (cutAt t).map fun k => (x ++ k.1, k.2) := by
  induction x with
  | nil => simp
  | cons c x ih =>
    rw [List.mem_cons, not_or] at h
    rw [List.cons_append, cutAt, if_neg (fun hc => h.1 hc.1.symm), ih h.2, Option.map_map]
    rfl

theorem dropWhile_stop {p : Char → Bool} (hc : p c = false) :
    (x ++ c :: t).takeWhile p = x.takeWhile p ∧
      (x ++ c :: t).dropWhile p = x.dropWhile p ++ c :: t := by
  induction x with
  | nil =>
    rw [List.nil_append, List.takeWhile_cons_of_neg (by simp [hc]),
      List.dropWhile_cons_of_neg (by simp [hc])]
    exact ⟨rfl, rfl⟩
  | cons d x ih =>
    rw [List.cons_append, List.takeWhile_cons, List.takeWhile_cons, List.dropWhile_cons,
      List.dropWhile_cons, ih.1, ih.2]
    split <;> exact ⟨rfl, rfl⟩

/-- A quote ends the text in which `charset=` is looked for. -/
theorem cutAt_quote (x t : Text) :
    cutAt (x ++ '"' :: t) = match cutAt x with
      | some k => some (k.1, k.2 ++ '"' :: t)
      | none => (cutAt t).map fun k => (x ++ '"' :: k.1, k.2) := by
  induction x with
  | nil => exact @cutAt_skip ['"'] t (by simp)
  | cons c x ih =>
    obtain ⟨htake, hdrop⟩ := @dropWhile_stop x t '"' isspace rfl
    have hstop : ∀ d ∈ ('"' :: t).head?, d.toLower ∉ charsetPat.map Char.toLower := by
      intro d hd
      cases hd
      simp [charsetPat]
    rw [List.cons_append, cutAt, cutAt, htake, hdrop, strncaseeq_stop hstop]
    by_cases hcut : c = ';' ∧ strncaseeq (x.dropWhile isspace) charsetPat charsetPat.length = true
    · obtain ⟨w, hw, hcharset⟩ := charset_begins hcut.2
      have hlen : charsetPat.length ≤ (x.dropWhile isspace).length := by
        rw [hw, List.length_append, length_of_strcaseeq hcharset]
        exact Nat.le_add_right ..
      rw [if_pos hcut, if_pos hcut, List.drop_append_of_le_length hlen]
    · rw [if_neg hcut, if_neg hcut, ih]
      cases cutAt x with
      | some k => rfl
      | none =>
        dsimp only
        rw [Option.map_map]
        rfl

/-! ## In a Content-Type -/

theorem isspace_of_sep (hc : isSep c = true) (hsemi : c ≠ ';') : isspace c = true := by
  rcases isSep_cases hc with rfl | rfl | rfl | rfl | rfl
  · rfl
  · rfl
  · rfl
  · rfl
  · exact absurd rfl hsemi

theorem not_space_token (h : isToken c = true) : isspace c = false := by
  cases hs : isspace c with
  | false => rfl
  | true =>
    unfold isToken at h
    rw [hs] at h
    cases h

/-- The last character of `charset=`, and the letters before. -/
theorem charset_letters {w : Text} (h : strcaseeq w charsetPat = true) :
    ∃ n, w = n ++ ['='] ∧ isCharset n = true ∧ ∀ e : Char, e.isAlpha = false → e ∉ n := by
  have hlen : w.length = 8 := length_of_strcaseeq h
  rcases List.eq_nil_or_concat w with rfl | ⟨n, e, rfl⟩
  · cases hlen
  · rw [List.concat_eq_append] at h ⊢
    unfold strcaseeq at h
    have hcat : charsetPat.map Char.toLower = charsetPat.dropLast.map Char.toLower ++ ['='] := rfl
    rw [hcat, List.map_append, beq_iff_eq] at h
    obtain ⟨hn, he⟩ := List.append_inj' h rfl
    have hcharset : isCharset n = true := beq_iff_eq.mpr hn
    refine ⟨n, by rw [eq_of_toLower_eq rfl (List.cons.inj he).1], hcharset, fun d hd hmem => ?_⟩
    have hin := mem_of_strcaseeq hcharset hd hmem
    simp only [charsetPat, List.dropLast_cons_cons, List.dropLast_singleton, List.mem_cons,
      List.not_mem_nil, or_false] at hin
    rcases hin with rfl | rfl | rfl | rfl | rfl | rfl | rfl <;> cases hd

theorem charset_equal {n : Text} (h : isCharset n = true) : strcaseeq (n ++ ['=']) charsetPat = true := by
  unfold isCharset strcaseeq at h
  unfold strcaseeq
  rw [List.map_append, eq_of_beq h]
  rfl

/-- `charset=` begins at a name that is the one of the charset. -/
theorem charset_at_name {name : Text} (hname : ∀ c ∈ name, isToken c = true) (t : Text) :
    strncaseeq (name ++ '=' :: t) charsetPat charsetPat.length = isCharset name ∧
      (isCharset name = true → (name ++ '=' :: t).drop charsetPat.length = t) := by
  have hsplit : name ++ '=' :: t = (name ++ ['=']) ++ t := by simp
  constructor
  · rw [Bool.eq_iff_iff]
    constructor
    · intro hat
      obtain ⟨w, hw, hcharset⟩ := charset_begins hat
      obtain ⟨n, rfl, hn, hletters⟩ := charset_letters hcharset
      rw [List.append_assoc, List.singleton_append] at hw
      have hno : '=' ∉ name := fun h => ne_of_token rfl (hname _ h) rfl
      rw [(append_cons_inj hno (hletters '=' rfl) hw).1]
      exact hn
    · intro hn
      rw [hsplit]
      exact (charset_at (charset_equal hn) t).1
  · intro hn
    rw [hsplit]
    exact (charset_at (charset_equal hn) t).2

theorem cutAt_head {lead name : Text} (hlead : ∀ c ∈ lead, isSep c = true)
    (hname : name ≠ [] ∧ ∀ c ∈ name, isToken c = true) :
    cutAt (lead ++ (name ++ '=' :: t)) =
      if ';' ∈ lead ∧ isCharset name = true then some (lead.dropLast, t)
      else (cutAt t).map fun k => (lead ++ (name ++ '=' :: k.1), k.2) := by
  obtain ⟨hat, hdropName⟩ := charset_at_name hname.2 t
  induction lead with
  | nil =>
    have hsplit : name ++ '=' :: t = (name ++ ['=']) ++ t := by simp
    have hno : ';' ∉ name ++ ['='] := by
      rw [List.mem_append, not_or]
      exact ⟨fun h => ne_of_token rfl (hname.2 _ h) rfl, by simp⟩
    rw [if_neg (by simp), List.nil_append, hsplit, cutAt_skip hno]
    simp
  | cons c lead ih =>
    obtain ⟨hc, hlead⟩ := List.forall_mem_cons.mp hlead
    replace ih := ih hlead
    rw [List.cons_append, cutAt]
    by_cases hsemi : ';' ∈ lead
    · -- The blanks behind `c` end at a `;`.
      obtain ⟨a, b, rfl⟩ := List.append_of_mem hsemi
      have hstop : strncaseeq ((a ++ ';' :: b ++ (name ++ '=' :: t)).dropWhile isspace) charsetPat
          charsetPat.length = false := by
        have hdrop := (@dropWhile_stop a (b ++ (name ++ '=' :: t)) ';' isspace rfl).2
        rw [List.append_assoc, List.cons_append, hdrop, Bool.eq_false_iff]
        intro hbegins
        have hhead := head_dropWhile isspace a
        cases ha : a.dropWhile isspace with
        | nil =>
          rw [ha, List.nil_append] at hbegins
          cases hbegins
        | cons d a' =>
          have hd : d ∈ a := (List.dropWhile_suffix isspace).subset (by rw [ha]; exact List.mem_cons_self)
          have hsep := hlead d (List.mem_append_left _ hd)
          have hspace := hhead d (by rw [ha]; rfl)
          by_cases hsemi : d = ';'
          · rw [ha, hsemi] at hbegins
            cases hbegins
          · rw [isspace_of_sep hsep hsemi] at hspace
            cases hspace
      rw [if_neg (by rw [hstop]; simp), ih]
      simp only [hsemi, true_and, List.mem_cons, or_true]
      split_ifs
      · rw [Option.map_some, List.dropLast_cons_of_ne_nil (by simp)]
      · rw [Option.map_map]
        rfl
    · have hspaces : ∀ d ∈ lead, isspace d = true := by
        intro d hd
        refine isspace_of_sep (hlead d hd) ?_
        rintro rfl
        exact hsemi hd
      have hfirst : ∀ d ∈ (name ++ '=' :: t).head?, isspace d = false := by
        intro d hd
        obtain ⟨e, n, rfl⟩ := List.exists_cons_of_ne_nil hname.1
        cases hd
        exact not_space_token (hname.2 d List.mem_cons_self)
      obtain ⟨htake, hdrop⟩ := while_append hspaces hfirst
      rw [htake, hdrop, hat, ih, if_neg (fun h : ';' ∈ lead ∧ _ => hsemi h.1)]
      by_cases hcut : c = ';' ∧ isCharset name = true
      · rw [if_pos hcut, if_pos ⟨by rw [hcut.1]; exact List.mem_cons_self, hcut.2⟩, hdropName hcut.2]
      · rw [if_neg hcut, if_neg, Option.map_map]
        · rfl
        · rintro ⟨hmem, hcharset⟩
          rcases List.mem_cons.mp hmem with rfl | hmem
          · exact hcut ⟨rfl, hcharset⟩
          · exact hsemi hmem

/-- A parameter that is not the charset and does not look like one within its quotes. -/
structure Param.Plain (p : Param) : Prop where
  other : p.isCharset = false
  value : p.quote = true → cutAt p.value = none

theorem Param.Wf.no_semi {p : Param} (hp : p.Wf) (hq : p.quote = false) : ';' ∉ p.value := by
  intro hmem
  exact ne_of_token rfl (hp.bare hq _ hmem) rfl

/-- A value, or what is left of it, and the text behind it. -/
theorem cutAt_value {p : Param} (hp : p.Wf) {v : Text} (hv : v <:+ p.value) (t : Text) :
    cutAt (v ++ (p.quotes ++ t)) = match (if p.quote then cutAt v else none) with
      | some k => some (k.1, k.2 ++ (p.quotes ++ t))
      | none => (cutAt t).map fun k => (v ++ (p.quotes ++ k.1), k.2) := by
  unfold Param.quotes
  cases hq : p.quote with
  | true => exact cutAt_quote v t
  | false => exact cutAt_skip fun hmem => hp.no_semi hq (hv.subset hmem)

theorem Param.text_append (p : Param) (t : Text) :
    p.text ++ t = p.lead ++ (p.name ++ '=' :: (p.quotes ++ (p.value ++ (p.quotes ++ t)))) := by
  unfold Param.text Param.raw
  simp

theorem cutAt_param {p : Param} (hp : p.Wf) (t : Text) :
    cutAt (p.text ++ t) =
      if p.isCharset then some (p.lead.dropLast, p.raw ++ t)
      else match (if p.quote then cutAt p.value else none) with
        | some k => some (p.lead ++ (p.name ++ '=' :: (p.quotes ++ k.1)), k.2 ++ (p.quotes ++ t))
        | none => (cutAt t).map fun k => (p.text ++ k.1, k.2) := by
  have hquotes : ';' ∉ p.quotes := by
    unfold Param.quotes
    split <;> simp
  rw [p.text_append, cutAt_head hp.lead hp.name]
  cases hcharset : isCharset p.name with
  | true =>
    rw [if_pos ⟨hp.semi, rfl⟩, if_pos (show p.isCharset = true from hcharset)]
    unfold Param.raw
    simp only [List.append_assoc]
  | false =>
    rw [if_neg (by simp), if_neg (by rw [show p.isCharset = false from hcharset]; simp),
      cutAt_skip hquotes, cutAt_value hp (List.suffix_refl _) t]
    cases (if p.quote = true then cutAt p.value else none) with
    | some k => rfl
    | none =>
      dsimp only
      rw [Option.map_map, Option.map_map]
      congr 1
      funext k
      rw [p.text_append]
      rfl

theorem cutAt_plain {ps : List Param} (hps : ∀ p ∈ ps, p.Wf) (hplain : ∀ p ∈ ps, p.Plain) (t : Text) :
    cutAt (paramsText ps ++ t) = (cutAt t).map fun k => (paramsText ps ++ k.1, k.2) := by
  induction ps with
  | nil => simp
  | cons p ps ih =>
    obtain ⟨hp, hps⟩ := List.forall_mem_cons.mp hps
    obtain ⟨hone, hplain⟩ := List.forall_mem_cons.mp hplain
    have hvalue : (if p.quote = true then cutAt p.value else none) = none := by
      split_ifs with hq
      · exact hone.value hq
      · rfl
    rw [paramsText_cons, List.append_assoc, cutAt_param hp, hone.other, if_neg Bool.false_ne_true, hvalue,
      ih hps hplain]
    dsimp only
    rw [Option.map_map]
    congr 1
    funext k
    simp

/-- What is found in parameters: nothing, a charset parameter, or a quoted value. -/
inductive Found (ps : List Param) (t : Text) : Option (Text × Text) → Prop
  | nothing : (∀ p ∈ ps, p.Plain) → Found ps t none
  | charset {ds es : List Param} {d : Param} : ps = ds ++ d :: es → (∀ p ∈ ds, p.Plain) →
      d.isCharset = true →
      Found ps t (some (paramsText ds ++ d.lead.dropLast, d.raw ++ (paramsText es ++ t)))
  | quoted {ds es : List Param} {q : Param} {b y : Text} : ps = ds ++ q :: es → (∀ p ∈ ds, p.Plain) →
      q.isCharset = false → q.quote = true → cutAt q.value = some (b, y) →
      Found ps t (some (paramsText ds ++ (q.lead ++ (q.name ++ '=' :: '"' :: b)),
        y ++ '"' :: (paramsText es ++ t)))

theorem cutAt_params {ps : List Param} (hps : ∀ p ∈ ps, p.Wf) (ht : ∀ c ∈ t, isSep c = true) :
    Found ps t (cutAt (paramsText ps ++ t)) := by
  induction ps with
  | nil =>
    have hno : cutAt (paramsText [] ++ t) = none := by
      refine cutAt_no_equal fun hmem => ?_
      exact ne_of_sep rfl (ht _ hmem) rfl
    rw [hno]
    exact .nothing (by simp)
  | cons p ps ih =>
    obtain ⟨hp, hps⟩ := List.forall_mem_cons.mp hps
    replace ih := ih hps
    have hparam := cutAt_param hp (paramsText ps ++ t)
    rw [paramsText_cons, List.append_assoc, hparam]
    cases hcharset : p.isCharset with
    | true =>
      rw [if_pos rfl]
      exact @Found.charset _ _ [] ps p rfl (by simp) hcharset
    | false =>
      rw [if_neg Bool.false_ne_true]
      cases hvalue : (if p.quote = true then cutAt p.value else none) with
      | some k =>
        obtain ⟨hq, hvalue⟩ := Option.ite_none_right_eq_some.mp hvalue
        have hfound := @Found.quoted (p :: ps) t [] ps p k.1 k.2 rfl (by simp) hcharset hq hvalue
        unfold Param.quotes
        rw [hq]
        exact hfound
      | none =>
        have hplain : p.Plain := ⟨hcharset, fun hq => by rwa [if_pos hq] at hvalue⟩
        have hall : ∀ {ds : List Param}, (∀ q ∈ ds, q.Plain) → ∀ q ∈ p :: ds, q.Plain := fun hds =>
          List.forall_mem_cons.mpr ⟨hplain, hds⟩
        generalize cutAt (paramsText ps ++ t) = k at ih
        cases ih with
        | nothing hps => exact .nothing (hall hps)
        | @charset ds es d hsplit hds hd =>
          have hfound := @Found.charset (p :: ps) t (p :: ds) es d (by rw [hsplit]; rfl) (hall hds) hd
          rwa [paramsText_cons, List.append_assoc] at hfound
        | @quoted ds es q b y hsplit hds hq hquote hcut =>
          have hfound := @Found.quoted (p :: ps) t (p :: ds) es q b y (by rw [hsplit]; rfl) (hall hds) hq
            hquote hcut
          rwa [paramsText_cons, List.append_assoc] at hfound

/-! ## Where the erased value ends -/

theorem wordscanY_until (str : Text) (siz : Nat) (pat : Text) :
    url.wordscanY str siz ('^' :: pat) =
      ((str.take (siz - 1)).takeWhile (fun ch => !pat.contains ch),
        str.drop ((str.take (siz - 1)).takeWhile (fun ch => !pat.contains ch)).length) := rfl

/-- A scan up to a quote, or up to a character of a set with it. -/
theorem scan_to_quote {pat : Text} (hpat : '"' ∈ pat) (siz : Nat) :
    (url.wordscanY (y ++ '"' :: t) siz ('^' :: pat)).2 =
      (url.wordscanY y siz ('^' :: pat)).2 ++ '"' :: t := by
  have hstop : (fun ch => !pat.contains ch) '"' = false := by
    rw [Bool.not_eq_false', List.contains_iff_mem]
    exact hpat
  have hsame : ((y ++ '"' :: t).take (siz - 1)).takeWhile (fun ch => !pat.contains ch) =
      (y.take (siz - 1)).takeWhile (fun ch => !pat.contains ch) := by
    rw [List.take_append]
    cases siz - 1 - y.length with
    | zero => rw [List.take_zero, List.append_nil]
    | succ k =>
      rw [List.take_succ_cons]
      exact (dropWhile_stop hstop).1
  rw [wordscanY_until, wordscanY_until, hsame, List.drop_append_of_le_length]
  exact (List.takeWhile_prefix _).length_le.trans (List.length_take_le' ..)

theorem wordscanY_split (str : Text) (siz : Nat) (pat : Text) :
    ∃ val, str = val ++ (url.wordscanY str siz ('^' :: pat)).2 ∧ (∀ c ∈ val, c ∉ pat) ∧
      val.length ≤ siz - 1 := by
  rw [wordscanY_until]
  refine ⟨(str.take (siz - 1)).takeWhile (fun ch => !pat.contains ch), ?_, fun c hc => ?_, ?_⟩
  · have hpre : (str.take (siz - 1)).takeWhile (fun ch => !pat.contains ch) <+: str :=
      (List.takeWhile_prefix _).trans (List.take_prefix ..)
    exact (List.prefix_iff_eq_append.mp hpre).symm
  · have hgo := List.mem_takeWhile_imp hc
    rwa [Bool.not_eq_true', ← Bool.not_eq_true, List.contains_iff_mem] at hgo
  · exact (List.takeWhile_prefix _).length_le.trans (List.length_take_le ..)

theorem valuescan_quote (t : Text) : valuescanX ('"' :: t) 32 = url.wordscanY t 32 ['^', '"'] := rfl

theorem valuescan_bare (h : y.head? ≠ some '"') :
    valuescanX y 32 = url.wordscanY y 32 ['^', ';', ' ', '\t', '\r', '\n', '>', '"'] := if_neg h

/-- The value of a parameter without quotes is erased, up to its 31st character. -/
theorem valuescan_token (hx : ∀ c ∈ x, isToken c = true) (ht : ∀ c ∈ t.head?, isSep c = true) :
    (valuescanX (x ++ t) 32).2 = x.drop 31 ++ t := by
  have hhead : (x ++ t).head? ≠ some '"' := by
    intro hquote
    cases x with
    | nil => exact ne_of_sep rfl (ht _ hquote) rfl
    | cons c x =>
      cases hquote
      exact ne_of_token rfl (hx _ List.mem_cons_self) rfl
  have hgo : ∀ c ∈ x, [';', ' ', '\t', '\r', '\n', '>', '"'].contains c = false := by
    intro c hc
    have hne : ∀ d : Char, isToken d = false → c ≠ d := fun d hd => ne_of_token hd (hx c hc)
    simp [hne ';' rfl, hne ' ' rfl, hne '\t' rfl, hne '\r' rfl, hne '\n' rfl, hne '>' rfl, hne '"' rfl]
  have hstop : ∀ c ∈ t.head?, [';', ' ', '\t', '\r', '\n', '>', '"'].contains c = true := by
    intro c hc
    rcases isSep_cases (ht c hc) with rfl | rfl | rfl | rfl | rfl <;> rfl
  rw [valuescan_bare hhead]
  by_cases hlen : x.length ≤ 31
  · rw [url.wordscanY_stop hlen hgo hstop, List.drop_eq_nil_of_le hlen]
    rfl
  · have hall : ((x ++ t).take 31).takeWhile
        (fun ch => !List.contains [';', ' ', '\t', '\r', '\n', '>', '"'] ch) = x.take 31 := by
      rw [List.take_append_of_le_length (by omega), List.takeWhile_eq_self_iff]
      intro c hc
      rw [hgo c (List.mem_of_mem_take hc)]
      rfl
    rw [wordscanY_until, hall, List.length_take, Nat.min_eq_left (by omega),
      List.drop_append_of_le_length (by omega)]

/-- In a quoted value, the erased one ends with it. -/
theorem valuescan_inside (h : y.head? ≠ some '"') (hne : y ≠ []) (t : Text) :
    (valuescanX (y ++ '"' :: t) 32).2 = (valuescanX y 32).2 ++ '"' :: t := by
  have hhead : (y ++ '"' :: t).head? ≠ some '"' := by
    rwa [List.head?_append_of_ne_nil _ hne]
  rw [valuescan_bare hhead, valuescan_bare h, scan_to_quote (by simp)]

theorem valuescan_split (h : y.head? ≠ some '"') : ∃ val, y = val ++ (valuescanX y 32).2 := by
  rw [valuescan_bare h]
  obtain ⟨val, hval, -, -⟩ := wordscanY_split y 32 [';', ' ', '\t', '\r', '\n', '>', '"']
  exact ⟨val, hval⟩

/-- A quoted value is erased up to a quote, or up to its 31st character. -/
theorem valuescan_quoted (t : Text) :
    ∃ val, t = val ++ (valuescanX ('"' :: t) 32).2 ∧ '"' ∉ val ∧ val.length ≤ 31 := by
  rw [valuescan_quote]
  obtain ⟨val, hval, hno, hlen⟩ := wordscanY_split t 32 ['"']
  exact ⟨val, hval, fun hmem => hno _ hmem (by simp), hlen⟩

end

end delegate.rfc822
