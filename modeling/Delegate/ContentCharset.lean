-- The charset of a Content-Type (mimekit/rfc822.cpp): `replace_charset_value` sets
-- it at the first `charset=` of the text, wherever that is, and leaves a name
-- that begins with the new one.
import Delegate.HeaderFilter
import Delegate.ContentParams

open ctext segs

namespace delegate.rfc822

/-! ## The pure model -/

/-- `strcasestr`: the text before the first `t` up to case, and the text from it on. -/
def strcasefind (s t : Text) : Option (Text × Text) :=
  (strstr (t.map Char.toLower) (s.map Char.toLower)).map fun p =>
    (s.take p.1.length, s.drop p.1.length)

def isNameChar (nc : Char) : Bool := nc == '_' || nc == '-' || nc.isAlphanum

def charset_namelen (name : Text) : Nat := (name.takeWhile isNameChar).length

/-- The quote that `charset=` may be followed by. -/
def quoteAt (csp : Text) : Text := if csp.head? = some '"' then ['"'] else []

/-- `get_charset`: the name in a buffer of `size` bytes. -/
def get_charset (ctype : Text) (size : Nat) : Option Text :=
  (strcasefind ctype charsetPat).map fun found =>
    let csp := found.2.drop charsetPat.length
    let csp := csp.drop (quoteAt csp).length
    let len := charset_namelen csp
    if size < len + 1 then csp.take (size - 1) else csp.take len

def valuescanX (str : Text) (siz : Nat) : Text × Text :=
  if str.head? = some '"' then url.wordscanY str.tail siz ['^', '"']
  else url.wordscanY str siz ['^', ';', ' ', '\t', '\r', '\n', '>', '"']

/-- `erase_charset_param`: the text afterwards, where there is something to erase. The last blank behind
the `;` is erased, or the `;`. -/
def erase_charset_param : Text → Option Text
  | [] => none
  | c :: sp =>
    let np := sp.dropWhile isspace
    if c = ';' ∧ strncaseeq np charsetPat charsetPat.length = true then
      some ((c :: sp.takeWhile isspace).dropLast ++ (valuescanX (np.drop charsetPat.length) 32).2)
    else (erase_charset_param sp).map (c :: ·)

/-- `replace_charset_value`: the text afterwards. It is `none` where the rest does not fit `tmp`. -/
def replace_charset_value (ctype charset : Text) (force : Bool) : Option Text :=
  match strcasefind ctype charsetPat with
  | some found =>
    let csp := found.2.drop charsetPat.length
    let csp := csp.drop (quoteAt csp).length
    if strncaseeq csp charset charset.length then some ctype
    else
      let cst := csp.drop (charset_namelen csp)
      if MAX_MIMEHEAD ≤ cst.length then none
      else some (upto ctype csp ++ copyHeader false charset ++ (erase_charset_param cst).getD cst)
  | none =>
    let cst := ctype.dropWhile fun c => !(c == ';' || c == '\r' || c == '\n')
    if cst = [] ∧ force = false then some ctype
    else if MAX_MIMEHEAD ≤ cst.length then none
    else some (upto ctype cst ++ copyHeader false ([';', ' '] ++ charsetPat ++ charset) ++ cst)

def contentType : Text := ['C', 'o', 'n', 't', 'e', 'n', 't', '-', 'T', 'y', 'p', 'e']

/-- `insert_ctype`, with the version of `myMIMEversion`. -/
def insert_ctype (ver head ctype : Text) : Option Text :=
  let EOL := if (strstr ['\r', '\n'] head).isSome then ['\r', '\n'] else ['\n']
  let ctp := strSeekEOH true head
  let version :=
    if (findFieldValue head "MIME-Version".toList).isNone then "MIME-Version: ".toList ++ ver ++ EOL else []
  if MAX_MIMEHEAD ≤ ctp.length then none
  else some (upto head ctp ++ version ++ (contentType ++ [':', ' '] ++ ctype ++ EOL) ++ ctp)

/-- `replace_charset` -/
def replace_charset (ver head charset : Text) : Option Text :=
  match findFieldValue head contentType with
  | none => insert_ctype ver head ("text/plain; ".toList ++ charsetPat ++ charset)
  | some ctp => (replace_charset_value ctp charset false).map fun ctype => upto head ctp ++ ctype

/-- The name of a charset. -/
structure CharsetName (c : Text) : Prop where
  nonempty : c ≠ []
  chars : ∀ d ∈ c, isNameChar d = true

/-! ## Finding `charset=` -/

theorem strcasefind_eq_none {s t : Text} : strcasefind s t = none ↔ strcasestr s t = false := by
  unfold strcasefind strcasestr
  rw [Option.map_eq_none_iff, Option.isSome_eq_false_iff, Option.isNone_iff_eq_none]

theorem lower_of_strncaseeq {s t : Text} (h : strncaseeq s t t.length = true) :
    t.map Char.toLower <+: s.map Char.toLower := by
  unfold strncaseeq strcaseeq at h
  rw [List.take_length, beq_iff_eq] at h
  rw [← h, List.map_take]
  exact List.take_prefix ..

/-- No part of `charset=` is behind another part of it. -/
theorem charsetPat_drop_ne {j : Nat} (hpos : 0 < j) (hj : j < charsetPat.length) :
    charsetPat.drop j ≠ charsetPat.take (charsetPat.length - j) := by
  have hlen : charsetPat.length = 8 := rfl
  rw [hlen] at hj
  interval_cases j <;> simp [charsetPat]

theorem charsetPat_lower : charsetPat.map Char.toLower = charsetPat := rfl

/-- `charset=` is found behind a text that it is not in. -/
theorem strcasefind_charset {a b : Text} (ha : strcasestr a charsetPat = false)
    (hb : strncaseeq b charsetPat charsetPat.length = true) :
    strcasefind (a ++ b) charsetPat = some (a, b) := by
  obtain ⟨rest, hrest⟩ := lower_of_strncaseeq hb
  rw [charsetPat_lower] at hrest
  have hno : ¬charsetPat <:+: a.map Char.toLower := by
    rw [← strstr_isSome_iff]
    unfold strcasestr at ha
    rw [charsetPat_lower] at ha
    rw [ha]
    exact Bool.false_ne_true
  have hlow : (a ++ b).map Char.toLower = a.map Char.toLower ++ charsetPat ++ rest := by
    rw [List.map_append, ← hrest, List.append_assoc]
  have hsome : (strstr charsetPat ((a ++ b).map Char.toLower)).isSome = true := by
    rw [strstr_isSome_iff, hlow]
    exact ⟨_, _, rfl⟩
  obtain ⟨⟨x, y⟩, hfound⟩ := Option.isSome_iff_exists.mp hsome
  obtain ⟨hxy, hpre⟩ := strstr_some hfound
  have hle := strstr_first hfound hlow
  have hlen : x.length = a.length := by
    by_contra hne
    rw [List.length_map] at hle
    have hlt : x.length < a.length := by omega
    -- The text found begins in `a`; it does not end there, and its rest is not where it begins.
    rw [hlow, List.append_assoc] at hxy
    obtain ⟨w, hw, hy⟩ : ∃ w, a.map Char.toLower = x ++ w ∧ y = w ++ (charsetPat ++ rest) := by
      rcases List.append_eq_append_iff.mp hxy with ⟨w, hx, hw⟩ | ⟨w, hw, hy⟩
      · have hbad := congrArg List.length hx
        rw [List.length_append, List.length_map] at hbad
        omega
      · exact ⟨w, hw, hy⟩
    have hwlen := congrArg List.length hw
    rw [List.length_map, List.length_append] at hwlen
    rw [hy] at hpre
    by_cases hlong : charsetPat.length ≤ w.length
    · have hin : charsetPat <+: w := List.prefix_of_prefix_length_le hpre (List.prefix_append ..) hlong
      exact hno (hw ▸ hin.isInfix.trans (List.suffix_append x w).isInfix)
    · have hwpre : w <+: charsetPat :=
        List.prefix_of_prefix_length_le (List.prefix_append ..) hpre (by omega)
      obtain ⟨u, hu⟩ := hwpre
      have hdrop : charsetPat.drop w.length = u := by rw [← hu, List.drop_left]
      rw [← hu, List.prefix_append_right_inj] at hpre
      have hupre : u <+: charsetPat :=
        List.prefix_of_prefix_length_le (hu ▸ hpre) (hu ▸ List.prefix_append ..) (by
          rw [← hu, List.length_append]
          omega)
      have htake : charsetPat.take (charsetPat.length - w.length) = u := by
        have hulen : charsetPat.length - w.length = u.length := by
          rw [← hdrop, List.length_drop]
        rw [hulen, ← List.prefix_iff_eq_take.mp hupre]
      exact charsetPat_drop_ne (by omega) (by omega) (hdrop.trans htake.symm)
  unfold strcasefind
  rw [charsetPat_lower, hfound, Option.map_some, hlen, List.take_left, List.drop_left]

theorem strcasestr_no_eq {a : Text} (h : '=' ∉ a) : strcasestr a charsetPat = false := by
  unfold strcasestr
  rw [charsetPat_lower, Option.isSome_eq_false_iff, Option.isNone_iff_eq_none]
  have heq : '=' ∈ charsetPat := by simp [charsetPat]
  refine strstr_eq_none (not_infix_of_not_mem heq ?_)
  intro hmem
  obtain ⟨c, hc, hlow⟩ := List.mem_map.mp hmem
  rw [eq_of_toLower_eq rfl hlow] at hc
  exact h hc

/-- A name that is compared ends where a character does not belong to it. -/
theorem strncaseeq_stop {x y t : Text} (h : ∀ d ∈ y.head?, d.toLower ∉ t.map Char.toLower) :
    strncaseeq (x ++ y) t t.length = strncaseeq x t t.length := by
  unfold strncaseeq strcaseeq
  by_cases hlen : t.length ≤ x.length
  · rw [List.take_append_of_le_length hlen]
  · rw [List.take_append, List.take_of_length_le (by omega), List.take_length]
    cases y with
    | nil => rw [List.take_nil, List.append_nil]
    | cons d y =>
      obtain ⟨k, hk⟩ : ∃ k, t.length - x.length = k + 1 := ⟨t.length - x.length - 1, by omega⟩
      have hlong : ((x ++ (d :: y).take (t.length - x.length)).map Char.toLower == t.map Char.toLower) =
          false := by
        rw [beq_eq_false_iff_ne]
        intro heq
        refine h d rfl ?_
        rw [← heq, hk, List.take_succ_cons]
        simp
      have hshort : (x.map Char.toLower == t.map Char.toLower) = false := by
        rw [beq_eq_false_iff_ne]
        intro heq
        have := congrArg List.length heq
        rw [List.length_map, List.length_map] at this
        omega
      rw [hlong, hshort]

theorem isNameChar_toLower (c : Char) : isNameChar c.toLower = isNameChar c := by
  by_cases hup : c.isUpper = true
  · have hc : c.isAlphanum = true := by grind [Char.isAlphanum, Char.isAlpha]
    have hlow : c.toLower.isAlphanum = true := by
      have halpha : c.toLower.isAlpha = true := by
        grind [Char.isAlpha, Char.isUpper, Char.isLower, Char.toLower]
      grind [Char.isAlphanum]
    unfold isNameChar
    rw [hc, hlow, Bool.or_true, Bool.or_true]
  · have h : c.toLower = c := by grind [Char.toLower, Char.isUpper]
    rw [h]

theorem CharsetName.stop {c : Text} (h : CharsetName c) {d : Char} (hd : isNameChar d = false) :
    d.toLower ∉ c.map Char.toLower := by
  intro hmem
  obtain ⟨e, he, heq⟩ := List.mem_map.mp hmem
  have hname := h.chars e he
  rw [← isNameChar_toLower, heq, isNameChar_toLower, hd] at hname
  cases hname

theorem charset_namelen_append {x y : Text} (h : ∀ d ∈ y.head?, isNameChar d = false) :
    charset_namelen (x ++ y) = charset_namelen x := by
  unfold charset_namelen
  induction x with
  | nil =>
    cases y with
    | nil => rfl
    | cons d y =>
      rw [List.nil_append, List.takeWhile_cons_of_neg (by simp [h d rfl])]
      rfl
  | cons c x ih =>
    rw [List.cons_append, List.takeWhile_cons, List.takeWhile_cons]
    split
    · rw [List.length_cons, List.length_cons, ih]
    · rfl

theorem charset_namelen_le (w : Text) : charset_namelen w ≤ w.length :=
  (List.takeWhile_prefix _).length_le

/-- Behind the name of a charset there is no character of it. -/
theorem drop_namelen_head (w : Text) : ∀ d ∈ (w.drop (charset_namelen w)).head?, isNameChar d = false := by
  intro d hd
  have hdrop : w.drop (charset_namelen w) = w.dropWhile isNameChar :=
    calc w.drop (charset_namelen w)
        = (w.takeWhile isNameChar ++ w.dropWhile isNameChar).drop (w.takeWhile isNameChar).length := by
          rw [List.takeWhile_append_dropWhile]
          rfl
      _ = w.dropWhile isNameChar := List.drop_left
  rw [hdrop] at hd
  exact head_dropWhile _ _ d hd

/-- The text up to case, and what is behind it. -/
theorem charset_at {w : Text} (h : strcaseeq w charsetPat = true) (t : Text) :
    strncaseeq (w ++ t) charsetPat charsetPat.length = true ∧ (w ++ t).drop charsetPat.length = t := by
  have hlen : w.length = charsetPat.length := length_of_strcaseeq h
  constructor
  · unfold strncaseeq
    rw [List.take_length, ← hlen, List.take_left]
    exact h
  · rw [← hlen, List.drop_left]

/-- The text that is found first. -/
theorem strcasefind_some {s x y : Text} (h : strcasefind s charsetPat = some (x, y)) :
    strcasestr x charsetPat = false ∧
      ∃ w r, s = x ++ (w ++ r) ∧ y = w ++ r ∧ strcaseeq w charsetPat = true := by
  unfold strcasefind at h
  rw [charsetPat_lower] at h
  obtain ⟨⟨u, v⟩, hfound, heq⟩ := Option.map_eq_some_iff.mp h
  obtain ⟨hs, hpre⟩ := strstr_some hfound
  obtain ⟨rfl, rfl⟩ := Prod.mk.inj heq
  dsimp only at *
  have hlow : (s.drop u.length).map Char.toLower = v := by rw [List.map_drop, hs, List.drop_left]
  have hu : (s.take u.length).map Char.toLower = u := by rw [List.map_take, hs, List.take_left]
  have hw : strcaseeq ((s.drop u.length).take charsetPat.length) charsetPat = true := by
    unfold strcaseeq
    rw [List.map_take, hlow, ← List.prefix_iff_eq_take.mp hpre, charsetPat_lower]
    exact beq_self_eq_true _
  refine ⟨?_, _, (s.drop u.length).drop charsetPat.length, ?_, ?_, hw⟩
  · unfold strcasestr
    rw [charsetPat_lower, hu, Option.isSome_eq_false_iff, Option.isNone_iff_eq_none]
    refine strstr_eq_none fun hin => ?_
    obtain ⟨p, q, hpq⟩ := hin
    have hfirst := strstr_first hfound (x := p) (y := q ++ v) (by rw [hs, ← hpq, List.append_assoc])
    have hlen := congrArg List.length hpq
    rw [List.length_append, List.length_append, show charsetPat.length = 8 from rfl] at hlen
    omega
  · rw [List.take_append_drop, List.take_append_drop]
  · rw [List.take_append_drop]

/-! ## Reading and replacing the name -/

section
variable {a w q csp c : Text}

/-- The charset is read from the first `charset=`. -/
theorem get_charset_at {size : Nat} (ha : strcasestr a charsetPat = false)
    (hw : strcaseeq w charsetPat = true) (hq : quoteAt (q ++ csp) = q)
    (hsize : charset_namelen csp < size) :
    get_charset (a ++ (w ++ (q ++ csp))) size = some (csp.take (charset_namelen csp)) := by
  obtain ⟨hat, hdrop⟩ := charset_at hw (q ++ csp)
  unfold get_charset
  rw [strcasefind_charset ha hat]
  simp only [Option.map_some, hdrop, hq, List.drop_left]
  rw [if_neg (by omega)]

theorem copyHeader_name (hc : CharsetName c) : copyHeader false c = c := by
  refine copyHeader_value fun d hd => ?_
  rintro rfl
  cases hc.chars _ hd

/-- The name behind the first `charset=` is replaced, unless it begins with the new one. -/
theorem replace_at (force : Bool) (hc : CharsetName c) (ha : strcasestr a charsetPat = false)
    (hw : strcaseeq w charsetPat = true) (hq : quoteAt (q ++ csp) = q) :
    replace_charset_value (a ++ (w ++ (q ++ csp))) c force =
      if strncaseeq csp c c.length = true then some (a ++ (w ++ (q ++ csp)))
      else if MAX_MIMEHEAD ≤ (csp.drop (charset_namelen csp)).length then none
      else some (a ++ (w ++ (q ++ (c ++ (erase_charset_param (csp.drop (charset_namelen csp))).getD
        (csp.drop (charset_namelen csp)))))) := by
  obtain ⟨hat, hdrop⟩ := charset_at hw (q ++ csp)
  have hupto : upto (a ++ (w ++ (q ++ csp))) csp = a ++ (w ++ q) := by
    rw [← List.append_assoc w, ← List.append_assoc a, upto_append]
  unfold replace_charset_value
  rw [strcasefind_charset ha hat]
  simp only [hdrop, hq, List.drop_left]
  rw [hupto, copyHeader_name hc]
  simp only [List.append_assoc]

end

end delegate.rfc822
