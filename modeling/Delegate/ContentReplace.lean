-- What `replace_charset_value` makes of a Content-Type (mimekit/rfc822.cpp), and that the charset is set
-- where it can be.
import Delegate.ContentSet

open ctext segs

namespace delegate.rfc822

section
variable {v : CType} {c t b y : Text} {as bs ds es : List Param} {p : Param}

/-! ## Names and quotes -/

theorem isToken_of_nameChar {d : Char} (h : isNameChar d = true) :
    isToken d = true ∧ d ≠ '"' ∧ d ≠ '\\' := by
  have hne : ∀ e : Char, isNameChar e = false → d ≠ e := by
    rintro e he rfl
    rw [he] at h
    cases h
  have hspace : isspace d = false := by
    unfold isspace
    simp [hne ' ' rfl, hne '\t' rfl, hne '\n' rfl, hne '\x0b' rfl, hne '\x0c' rfl, hne '\r' rfl]
  unfold isToken
  rw [hspace]
  simp [hne ';' rfl, hne '"' rfl, hne '=' rfl, hne '>' rfl, hne '\\' rfl]

theorem isNameChar_of_sep {d : Char} (h : isSep d = true) : isNameChar d = false := by
  rcases isSep_cases h with rfl | rfl | rfl | rfl | rfl <;> rfl

theorem quotable_append {w : Text} (h : ∀ d ∈ w, isNameChar d = true) :
    quotable (w ++ t) = quotable t := by
  induction w with
  | nil => rfl
  | cons d w ih =>
    obtain ⟨-, hquote, hback⟩ := isToken_of_nameChar (h d List.mem_cons_self)
    rw [List.cons_append, quotable_cons ⟨hback, hquote⟩, ih fun e he => h e (List.mem_cons_of_mem _ he)]

theorem take_namelen (w : Text) : ∀ d ∈ w.take (charset_namelen w), isNameChar d = true := by
  intro d hd
  have htake : w.take (charset_namelen w) = w.takeWhile isNameChar :=
    (List.prefix_iff_eq_take.mp (List.takeWhile_prefix _)).symm
  rw [htake] at hd
  exact List.mem_takeWhile_imp hd

theorem namelen_zero : charset_namelen t = 0 ↔ ∀ d ∈ t.head?, isNameChar d = false := by
  unfold charset_namelen
  cases t with
  | nil => simp
  | cons d t =>
    rw [List.takeWhile_cons]
    cases h : isNameChar d <;> simp [h]

theorem Param.left_quotable (hp : p.Wf) (hq : p.quote = true) : quotable p.left = true := by
  have hvalue := hp.quoted hq
  rw [← List.take_append_drop (charset_namelen p.value) p.value,
    quotable_append (take_namelen _)] at hvalue
  exact hvalue

theorem Param.left_token (hp : p.Wf) (hq : p.quote = false) : ∀ d ∈ p.left, isToken d = true :=
  fun d hd => hp.bare hq d (List.mem_of_mem_drop hd)

theorem Param.left_suffix (p : Param) : p.left <:+ p.value := List.drop_suffix ..

/-- A parameter with the name before another rest of its value. -/
theorem wf_named (hp : p.Wf) (hc : CharsetName c)
    (h : if p.quote then quotable t = true else ∀ d ∈ t, isToken d = true) :
    Param.Wf { p with value := c ++ t } := by
  refine ⟨hp.lead, hp.semi, hp.name, ?_⟩
  dsimp only
  split_ifs at h ⊢
  · rw [quotable_append hc.chars]
    exact h
  · intro d hd
    rcases List.mem_append.mp hd with hd | hd
    · exact (isToken_of_nameChar (hc.chars d hd)).1
    · exact h d hd

theorem wf_left (hp : p.Wf) (hc : CharsetName c) : Param.Wf { p with value := c ++ p.left } := by
  refine wf_named hp hc ?_
  split_ifs with hq
  · exact p.left_quotable hp hq
  · exact p.left_token hp (Bool.eq_false_iff.mpr hq)

theorem head_seps (ht : ∀ d ∈ t, isSep d = true) : ∀ d ∈ t.head?, isSep d = true := fun d hd =>
  ht d (List.mem_of_mem_head? hd)

/-- Parameters begin with blanks and `;`. -/
theorem params_head (hbs : ∀ q ∈ bs, q.Wf) (ht : ∀ d ∈ t.head?, isSep d = true) :
    ∀ d ∈ (paramsText bs ++ t).head?, isSep d = true := by
  intro d hd
  cases bs with
  | nil => exact ht d hd
  | cons q bs =>
    have hq := hbs q List.mem_cons_self
    rw [paramsText_cons, List.append_assoc, q.text_append] at hd
    obtain ⟨e, lead, hlead⟩ := List.exists_cons_of_ne_nil (List.ne_nil_of_mem hq.semi)
    rw [hlead] at hd
    cases hd
    exact hq.lead d (by rw [hlead]; exact List.mem_cons_self)

theorem quotes_head (ht : ∀ d ∈ t.head?, isSep d = true) :
    ∀ d ∈ (p.quotes ++ t).head?, isNameChar d = false := by
  intro d hd
  rcases p.quotes_cases with hq | hq
  · rw [hq] at hd
    exact isNameChar_of_sep (ht d hd)
  · rw [hq] at hd
    cases hd
    rfl

theorem quoteAt_value (hp : p.Wf) (ht : ∀ d ∈ t.head?, isSep d = true) :
    quoteAt (p.quotes ++ (p.value ++ (p.quotes ++ t))) = p.quotes := by
  cases hq : p.quote with
  | true =>
    rw [quotes_quoted hq]
    rfl
  | false =>
    rw [quotes_bare hq, List.nil_append, List.nil_append]
    unfold quoteAt
    rw [if_neg]
    intro hhead
    cases hv : p.value with
    | nil =>
      rw [hv] at hhead
      exact ne_of_sep rfl (ht _ hhead) rfl
    | cons d w =>
      rw [hv] at hhead
      cases hhead
      exact ne_of_token rfl (hp.bare hq '"' (by rw [hv]; exact List.mem_cons_self)) rfl

/-! ## What is written -/

/-- The text without its second charset. -/
def erased (t : Text) : Text := (erase_charset_param t).getD t

theorem erased_some {k : Text × Text} (h : cutAt t = some k) : erased t = k.1 ++ (valuescanX k.2 32).2 := by
  unfold erased
  rw [erase_eq, h]
  rfl

theorem erased_none (h : cutAt t = none) : erased t = t := by
  unfold erased
  rw [erase_eq, h]
  rfl

/-- The first `charset=` is the end of a name: the name of the charset in its value is replaced. -/
theorem replace_value {n k : Text} (force : Bool) (hv : v.Wf) (hc : CharsetName c)
    (hlen : v.text.length < MAX_MIMEHEAD) (hsplit : v.params = as ++ p :: bs) (hname : p.name = n ++ k)
    (hk : isCharset k = true)
    (hx : strcasestr (v.media ++ (paramsText as ++ (p.lead ++ n))) charsetPat = false) :
    replace_charset_value v.text c force =
      if p.begins c = true then some v.text
      else some (v.media ++ (paramsText as ++ (p.lead ++ (p.name ++ '=' :: (p.quotes ++ (c ++
        erased (p.left ++ (p.quotes ++ (paramsText bs ++ v.tail))))))))) := by
  obtain ⟨-, hp, hbs⟩ := hv.split hsplit
  have hhead := params_head hbs (head_seps hv.tail)
  have hstop := @quotes_head _ p hhead
  have htext : v.text = (v.media ++ (paramsText as ++ (p.lead ++ n))) ++ ((k ++ ['=']) ++
      (p.quotes ++ (p.value ++ (p.quotes ++ (paramsText bs ++ v.tail))))) := by
    rw [CType.text_at hsplit, hname]
    simp
  have hbegins : strncaseeq (p.value ++ (p.quotes ++ (paramsText bs ++ v.tail))) c c.length = p.begins c :=
    strncaseeq_stop fun d hd => hc.stop (hstop d hd)
  have hcst : (p.value ++ (p.quotes ++ (paramsText bs ++ v.tail))).drop
      (charset_namelen (p.value ++ (p.quotes ++ (paramsText bs ++ v.tail)))) =
        p.left ++ (p.quotes ++ (paramsText bs ++ v.tail)) := by
    rw [charset_namelen_append hstop, List.drop_append_of_le_length (charset_namelen_le _)]
    rfl
  have hfits : ¬MAX_MIMEHEAD ≤ (p.left ++ (p.quotes ++ (paramsText bs ++ v.tail))).length := by
    have hle := p.left_suffix.length_le
    rw [htext] at hlen
    simp only [List.length_append] at hlen ⊢
    omega
  rw [htext, replace_at force hc hx (charset_equal hk) (quoteAt_value hp hhead), hbegins, hcst, if_neg hfits]
  split_ifs
  · rfl
  · unfold erased
    rw [hname]
    simp

theorem replace_first (force : Bool) (h : v.Asks c as p bs) :
    replace_charset_value v.text c force = some (v.media ++ (paramsText as ++ (p.lead ++ (p.name ++ '=' ::
      (p.quotes ++ (c ++ erased (p.left ++ (p.quotes ++ (paramsText bs ++ v.tail))))))))) := by
  have hx : strcasestr (v.media ++ (paramsText as ++ (p.lead ++ []))) charsetPat = false := by
    rw [List.append_nil]
    exact h.first.before
  have hreplace :=
    @replace_value v c as bs p [] p.name force h.wf h.name h.room h.first.split rfl h.first.charset hx
  rwa [h.begins, if_neg Bool.false_ne_true] at hreplace

/-! ## Where the charset is set -/

/-- What is erased behind the name leaves parameters. -/
theorem set_first {E : Text} (force : Bool) (h : v.Asks c as p bs)
    (hE : erased (p.left ++ (p.quotes ++ (paramsText bs ++ v.tail))) = E) (hname : charset_namelen E = 0)
    (hscan : ∃ X, (Scan.at as p).scan (p.quotes ++ (c ++ E)) =
      some (as.map Param.pair ++ (p.name, X) :: others (bs.map Param.pair))) : v.IsSet c force := by
  obtain ⟨v', hset⟩ := (sets_first h.wf h.name h.first).mpr ⟨hname, hscan⟩
  exact ⟨_, v', by rw [replace_first force h, hE], hset⟩

theorem namelen_left (ht : ∀ d ∈ t.head?, isSep d = true) :
    charset_namelen (p.left ++ (p.quotes ++ t)) = 0 := by
  rw [charset_namelen_append (quotes_head ht), namelen_zero]
  exact drop_namelen_head _

theorem cutAt_left (hp : p.Wf) (hleft : p.quote = true → cutAt p.left = none) (t : Text) :
    cutAt (p.left ++ (p.quotes ++ t)) = (cutAt t).map fun k => (p.left ++ (p.quotes ++ k.1), k.2) := by
  have hnone : (if p.quote then cutAt p.left else none) = none := by
    split_ifs with hq
    · exact hleft hq
    · rfl
  rw [cutAt_value hp p.left_suffix, hnone]

theorem cutAt_tail (ht : ∀ d ∈ t, isSep d = true) : cutAt t = none :=
  cutAt_no_equal fun hmem => ne_of_sep rfl (ht _ hmem) rfl

theorem set_replaced (force : Bool) (h : v.Asks c as p bs) (hleft : p.quote = true → cutAt p.left = none)
    (hbs : ∀ q ∈ bs, q.Plain) : v.IsSet c force := by
  obtain ⟨-, hp, hwf⟩ := h.wfs
  have hnone : cutAt (p.left ++ (p.quotes ++ (paramsText bs ++ v.tail))) = none := by
    rw [cutAt_left hp hleft, cutAt_plain hwf hbs, cutAt_tail h.wf.tail]
    rfl
  have hscan := @scan_at_value v.tail as [] bs p _ [] (wf_left hp h.name) (by simp) (by simp) hwf h.wf.tail
  refine set_first force h (erased_none hnone) (namelen_left (params_head hwf (head_seps h.wf.tail))) ⟨p.quotes ++ (c ++ p.left ++ p.quotes), ?_⟩
  rw [others_plain fun q hq => (hbs q hq).other]
  simpa using hscan

theorem others_charset {d : Param} (hds : ∀ q ∈ ds, q.isCharset = false) (hd : d.isCharset = true) :
    others ((ds ++ d :: es).map Param.pair) = ds.map Param.pair ++ others (es.map Param.pair) := by
  rw [List.map_append, others_append, others_plain hds, List.map_cons]
  unfold others
  rw [List.filter_cons_of_neg (by simp [show isCharset d.pair.1 = true from hd])]

theorem seps_dropLast {d : Param} (hd : d.Wf) : ∀ e ∈ d.lead.dropLast, isSep e = true := fun e he =>
  hd.lead e (List.dropLast_subset _ he)

/-- A charset parameter behind others is found. -/
theorem erased_duplicate {d : Param} (hp : p.Wf) (hwf : ∀ q ∈ ds ++ d :: es, q.Wf)
    (hleft : p.quote = true → cutAt p.left = none) (hds : ∀ q ∈ ds, q.Plain) (hd : d.isCharset = true) (t : Text) :
    erased (p.left ++ (p.quotes ++ (paramsText (ds ++ d :: es) ++ t))) =
      p.left ++ (p.quotes ++ (paramsText ds ++ (d.lead.dropLast ++
        (valuescanX (d.raw ++ (paramsText es ++ t)) 32).2))) := by
  have hdwf := hwf d (by simp)
  have hcut : cutAt (paramsText (ds ++ d :: es) ++ t) =
      some (paramsText ds ++ d.lead.dropLast, d.raw ++ (paramsText es ++ t)) := by
    rw [paramsText_append, List.append_assoc, cutAt_plain (fun q hq => hwf q (by simp [hq])) hds,
      paramsText_cons, List.append_assoc, cutAt_param hdwf, hd]
    rfl
  have hfound : cutAt (p.left ++ (p.quotes ++ (paramsText (ds ++ d :: es) ++ t))) =
      some (p.left ++ (p.quotes ++ (paramsText ds ++ d.lead.dropLast)), d.raw ++ (paramsText es ++ t)) := by
    rw [cutAt_left hp hleft, hcut]
    rfl
  rw [erased_some hfound]
  simp only [List.append_assoc]

theorem set_duplicate {d : Param} (force : Bool) (h : v.Asks c as p (ds ++ d :: es))
    (hleft : p.quote = true → cutAt p.left = none) (hds : ∀ q ∈ ds, q.Plain) (hd : d.isCharset = true)
    (hquote : d.quote = false) (hshort : d.value.length ≤ 31) (hes : ∀ q ∈ es, q.isCharset = false) :
    v.IsSet c force := by
  obtain ⟨-, hp, hwf⟩ := h.wfs
  have hdwf := hwf d (by simp)
  have hdswf : ∀ q ∈ ds, q.Wf := fun q hq => hwf q (by simp [hq])
  have heswf : ∀ q ∈ es, q.Wf := fun q hq => hwf q (by simp [hq])
  have hend := params_head heswf (head_seps h.wf.tail)
  have herased := erased_duplicate hp hwf hleft hds hd v.tail
  rw [raw_bare hquote, valuescan_token (hdwf.bare hquote) hend, List.drop_eq_nil_of_le hshort,
    List.nil_append] at herased
  have hhead : ∀ e ∈ (paramsText ds ++ (d.lead.dropLast ++ (paramsText es ++ v.tail))).head?, isSep e = true := by
    refine params_head hdswf fun e he => ?_
    cases hw : d.lead.dropLast with
    | nil =>
      rw [hw] at he
      exact hend e he
    | cons e' w =>
      rw [hw] at he
      cases he
      exact seps_dropLast hdwf e (by rw [hw]; exact List.mem_cons_self)
  have hscan := @scan_at_value v.tail as ds es p _ d.lead.dropLast (wf_left hp h.name) hdswf
    (seps_dropLast hdwf) heswf h.wf.tail
  refine set_first force h herased (namelen_left hhead) ⟨p.quotes ++ (c ++ p.left ++ p.quotes), ?_⟩
  rw [others_charset (fun q hq => (hds q hq).other) hd, others_plain hes]
  simpa using hscan

/-- A value without quotes with more at its end. -/
theorem wf_longer {z : Text} (hp : p.Wf) (hc : CharsetName c) (hq : p.quote = false)
    (hz : ∀ e ∈ z, isToken e = true) : Param.Wf { p with value := c ++ (p.left ++ z) } := by
  refine wf_named hp hc ?_
  rw [if_neg (by rw [hq]; exact Bool.false_ne_true)]
  intro e he
  rcases List.mem_append.mp he with he | he
  · exact p.left_token hp hq e he
  · exact hz e he

theorem set_overlong {d : Param} (force : Bool) (h : v.Asks c as p (d :: es))
    (hp' : p.quote = false) (hd : d.isCharset = true) (hquote : d.quote = false) (hlead : d.lead = [';'])
    (hname : charset_namelen (p.left ++ d.value.drop 31) = 0) (hes : ∀ q ∈ es, q.isCharset = false) :
    v.IsSet c force := by
  obtain ⟨-, hp, hwf⟩ := h.wfs
  have hdwf := hwf d (by simp)
  have heswf : ∀ q ∈ es, q.Wf := fun q hq => hwf q (by simp [hq])
  have hend := params_head heswf (head_seps h.wf.tail)
  have hvalue := hdwf.bare hquote
  have herased := @erased_duplicate [] es p d hp hwf (fun hq => by rw [hp'] at hq; cases hq) (by simp) hd v.tail
  have hX := @wf_longer c p (d.value.drop 31) hp h.name hp' fun e he => hvalue e (List.mem_of_mem_drop he)
  have hscan := @scan_at_value v.tail as [] es p _ [] hX (by simp) (by simp) heswf h.wf.tail
  have hE : erased (p.left ++ (p.quotes ++ (paramsText (d :: es) ++ v.tail))) =
      p.left ++ (d.value.drop 31 ++ (paramsText es ++ v.tail)) := by
    rw [raw_bare hquote, valuescan_token hvalue hend, hlead] at herased
    rw [show paramsText (d :: es) = paramsText ([] ++ d :: es) from rfl, herased, quotes_bare hp']
    rfl
  refine set_first force h hE ?_ ⟨p.quotes ++ (c ++ (p.left ++ d.value.drop 31) ++ p.quotes), ?_⟩
  · rw [← List.append_assoc, charset_namelen_append fun e he => isNameChar_of_sep (hend e he)]
    exact hname
  · have hothers := @others_charset [] es d (by simp) hd
    rw [List.nil_append] at hothers
    rw [hothers, others_plain hes]
    simpa [quotes_bare hp'] using hscan

/-! ## Inside of the quoted value -/

/-- A quote does not stand directly behind `charset=` in quotes. -/
theorem not_quotable (a : Text) {e : Char} (he : e ≠ '\\') (t : Text) :
    quotable (a ++ e :: '"' :: t) = false := by
  have hone : quotable (e :: '"' :: t) = false := by
    rw [quotable.eq_3 _ _ (by rintro c t' rfl; exact absurd rfl he), quotable_quote, Bool.and_false]
  induction a using quotable.induct with
  | case1 => exact hone
  | case2 d a ih => exact ih
  | case3 d a hno ih =>
    by_cases hback : d = '\\'
    · subst hback
      cases a with
      | nil => exact quotable_quote t
      | cons e' a => exact absurd rfl (hno e' a rfl)
    · rw [List.cons_append, quotable.eq_3 _ _ (by rintro c t' rfl; exact absurd rfl hback), ih,
        Bool.and_false]

theorem behind_charset {w : Text} (hw : strcaseeq w charsetPat = true) (h : quotable (b ++ (w ++ y)) = true) :
    y.head? ≠ some '"' := by
  intro hhead
  obtain ⟨k, rfl, -, -⟩ := charset_letters hw
  cases y with
  | nil => cases hhead
  | cons d y =>
    cases hhead
    have hbad := not_quotable (b ++ k) (show '=' ≠ '\\' by decide) y
    simp only [List.append_assoc, List.singleton_append] at h hbad
    rw [hbad] at h
    cases h

/-- In a quoted value, `charset=` is behind the name or behind the place of the name. -/
theorem left_head (hp : p.Wf) (hq : p.quote = true) (h : cutAt p.left = some (b, y)) :
    y.head? ≠ some '"' := by
  obtain ⟨e, w, hleft, -, hw⟩ := cutAt_kept h
  have hquotable := p.left_quotable hp hq
  rw [hleft] at hquotable
  refine @behind_charset (b ++ [e]) y w hw ?_
  simpa using hquotable

theorem cutAt_inside (hp : p.Wf) (hq : p.quote = true) (h : cutAt p.left = some (b, y)) (t : Text) :
    cutAt (p.left ++ (p.quotes ++ t)) = some (b, y ++ '"' :: t) := by
  have hsome : (if p.quote then cutAt p.left else none) = some (b, y) := by rw [if_pos hq, h]
  rw [cutAt_value hp p.left_suffix, hsome]
  dsimp only
  rw [quotes_quoted hq]
  rfl

theorem set_inside (force : Bool) (h : v.Asks c as p bs) (hq : p.quote = true)
    (hcut : cutAt p.left = some (b, y)) (hy : y ≠ []) (hquotable : quotable (b ++ (valuescanX y 32).2) = true)
    (hname : charset_namelen (b ++ (valuescanX y 32).2) = 0) (hbs : ∀ q ∈ bs, q.isCharset = false) :
    v.IsSet c force := by
  obtain ⟨-, hp, hwf⟩ := h.wfs
  have hE : erased (p.left ++ (p.quotes ++ (paramsText bs ++ v.tail))) =
      (b ++ (valuescanX y 32).2) ++ '"' :: (paramsText bs ++ v.tail) := by
    rw [erased_some (cutAt_inside hp hq hcut _), valuescan_inside (left_head hp hq hcut) hy, List.append_assoc]
  have hX : Param.Wf { p with value := c ++ (b ++ (valuescanX y 32).2) } :=
    wf_named hp h.name (by rw [if_pos hq]; exact hquotable)
  have hscan := @scan_at_value v.tail as [] bs p _ [] hX (by simp) (by simp) hwf h.wf.tail
  refine set_first force h hE ?_ ⟨p.quotes ++ (c ++ (b ++ (valuescanX y 32).2) ++ p.quotes), ?_⟩
  · rw [charset_namelen_append fun e he => by cases he; rfl]
    exact hname
  · rw [others_plain hbs]
    simpa [quotes_quoted hq] using hscan

/-- The begin of a quoted value, behind a backslash or not. -/
theorem opened_begin {u w : Text} (h : quotable (u ++ w) = true) : ∃ esc, opened u esc := by
  obtain ⟨esc, hrun, -⟩ := @run_quotable [] [] [] u w h
  exact ⟨esc, (run_opened hrun opened_nil).1⟩

/-- Where a quote may stand, the text behind it is in quotes. -/
theorem quotable_behind {u w : Text} (h : quotable (u ++ w) = true) (hquote : quotable (u ++ ['"']) = true)
    (t : Text) : quotable (u ++ '"' :: t) = quotable t := by
  obtain ⟨esc, hesc⟩ := opened_begin h
  cases esc with
  | true => exact hesc '"' t
  | false =>
    have hnil := hesc ['"']
    rw [hquote, quotable_quote] at hnil
    cases hnil

theorem no_quote_bare (hds : ∀ q ∈ ds, q.Wf ∧ q.quote = false) : '"' ∉ paramsText ds := by
  induction ds with
  | nil => simp
  | cons q ds ih =>
    obtain ⟨⟨hq, hquote⟩, hds⟩ := List.forall_mem_cons.mp hds
    obtain ⟨hlead, hname⟩ := @Param.Wf.not_head q hq '"' rfl rfl
    have hvalue : '"' ∉ q.value := fun hmem => ne_of_token rfl (hq.bare hquote _ hmem) rfl
    rw [paramsText_cons, Param.text, raw_bare hquote]
    simp [hlead, hname, hvalue, ih hds]

/-- The text that is kept behind the name does not begin with a character of it. -/
theorem namelen_kept (h : cutAt p.left = some (b, y)) : charset_namelen b = 0 := by
  obtain ⟨e, w, hleft, -, -⟩ := cutAt_kept h
  rw [namelen_zero]
  intro x hx
  refine drop_namelen_head p.value x ?_
  rw [show p.value.drop (charset_namelen p.value) = p.left from rfl, hleft,
    List.head?_append_of_ne_nil _ (by rintro rfl; cases hx)]
  exact hx

theorem others_nothing {ps : List Param} (h : ∀ q ∈ ps, q.isCharset = true) :
    others (ps.map Param.pair) = [] := by
  unfold others
  rw [List.filter_eq_nil_iff]
  intro x hx
  obtain ⟨q, hq, rfl⟩ := List.mem_map.mp hx
  rw [show isCharset q.pair.1 = q.isCharset from rfl, h q hq]
  simp

theorem set_swallowed {d : Param} (force : Bool) (h : v.Asks c as p (ds ++ d :: es)) (hq : p.quote = true) (hcut : cutAt p.left = some (b, [])) (hquotable : quotable (b ++ ['"']) = true)
    (hds : ∀ q ∈ ds, q.isCharset = true ∧ q.quote = false) (hd : d.isCharset = true) (hquote : d.quote = true)
    (hshort : (paramsText ds ++ (d.lead ++ (d.name ++ ['=']))).length ≤ 31)
    (hes : ∀ q ∈ es, q.isCharset = false) :
    v.IsSet c force := by
  obtain ⟨-, hp, hwf⟩ := h.wfs
  have hdwf := hwf d (by simp)
  have heswf : ∀ q ∈ es, q.Wf := fun q hq => hwf q (by simp [hq])
  obtain ⟨e, w, hleft, -, -⟩ := cutAt_kept hcut
  have hopen : ∀ t, quotable (b ++ '"' :: t) = quotable t :=
    quotable_behind (by rw [← hleft]; exact p.left_quotable hp hq) hquotable
  have hdvalue := hdwf.quoted hquote
  have hstop : ∀ x ∈ paramsText ds ++ (d.lead ++ (d.name ++ ['='])), ['"'].contains x = false := by
    intro x hx
    have hno := @no_quote_bare ds fun q hq => ⟨hwf q (by simp [hq]), (hds q hq).2⟩
    obtain ⟨hlead, hname⟩ := @Param.Wf.not_head d hdwf '"' rfl rfl
    rw [Bool.eq_false_iff]
    intro hmem
    rw [List.contains_iff_mem, List.mem_singleton] at hmem
    subst hmem
    simp [hno, hlead, hname] at hx
  have htext : '"' :: (paramsText (ds ++ d :: es) ++ v.tail) =
      '"' :: ((paramsText ds ++ (d.lead ++ (d.name ++ ['=']))) ++
        '"' :: (d.value ++ '"' :: (paramsText es ++ v.tail))) := by
    rw [paramsText_append, paramsText_cons, List.append_assoc, List.append_assoc, d.text_append,
      quotes_quoted hquote]
    simp
  have hE : erased (p.left ++ (p.quotes ++ (paramsText (ds ++ d :: es) ++ v.tail))) =
      (b ++ '"' :: d.value) ++ '"' :: (paramsText es ++ v.tail) := by
    rw [erased_some (cutAt_inside hp hq hcut _), List.nil_append, htext, valuescan_quote,
      url.wordscanY_stop hshort hstop (fun x hx => by cases hx; rfl)]
    simp
  have hX : Param.Wf { p with value := c ++ (b ++ '"' :: d.value) } :=
    wf_named hp h.name (by rw [if_pos hq, hopen]; exact hdvalue)
  have hscan := @scan_at_value v.tail as [] es p _ [] hX (by simp) (by simp) heswf h.wf.tail
  have hothers : others ((ds ++ d :: es).map Param.pair) = es.map Param.pair := by
    have hsplit : ds ++ d :: es = (ds ++ [d]) ++ es := by simp
    rw [hsplit, List.map_append, others_append, others_plain hes, others_nothing, List.nil_append]
    intro q hq
    rcases List.mem_append.mp hq with hq | hq
    · exact (hds q hq).1
    · rw [List.mem_singleton.mp hq]
      exact hd
  refine set_first force h hE ?_ ⟨p.quotes ++ (c ++ (b ++ '"' :: d.value) ++ p.quotes), ?_⟩
  · rw [charset_namelen_append fun e he => by cases he; rfl]
    rw [charset_namelen_append fun e he => by cases he; rfl]
    exact namelen_kept hcut
  · rw [hothers]
    simpa [quotes_quoted hq] using hscan

/-! ## Without a change, and without a charset -/

theorem replace_same (force : Bool) (h : Reads t c) : replace_charset_value t c force = some t := by
  unfold Reads get_charset at h
  unfold replace_charset_value
  cases hfind : strcasefind t charsetPat with
  | none =>
    obtain ⟨name, hget, -⟩ := h (c.length + 1) (Nat.lt_succ_self _)
    rw [hfind] at hget
    cases hget
  | some found =>
    dsimp only
    generalize hcsp : (found.2.drop charsetPat.length).drop
      (quoteAt (found.2.drop charsetPat.length)).length = csp
    obtain ⟨name, hget, heq⟩ := h (charset_namelen csp + c.length + 1) (by omega)
    rw [hfind, Option.map_some] at hget
    dsimp only at hget
    rw [hcsp, if_neg (by omega), Option.some.injEq] at hget
    have hlen := length_of_strcaseeq heq
    rw [← hget, List.length_take, Nat.min_eq_left (charset_namelen_le csp)] at hlen
    have hbegins : strncaseeq csp c c.length = true := by
      unfold strncaseeq
      rw [List.take_length, ← hlen, hget]
      exact heq
    rw [if_pos hbegins]

/-- The blanks before the first `;` or line end, and the parameters behind them. -/
theorem params_split {stop : Char → Bool} {ps : List Param} (hps : ∀ q ∈ ps, q.Wf)
    (ht : ∀ d ∈ t, isSep d = true) (hsemi : stop ';' = false) :
    ∃ w ps' t', (paramsText ps ++ t).takeWhile stop = w ∧
      (paramsText ps ++ t).dropWhile stop = paramsText ps' ++ t' ∧ (∀ d ∈ w, isSep d = true) ∧
      (∀ q ∈ ps', q.Wf) ∧ (∀ d ∈ t', isSep d = true) ∧ ps'.map Param.pair = ps.map Param.pair := by
  cases ps with
  | nil =>
    exact ⟨_, [], t.dropWhile stop, rfl, rfl, fun d hd => ht d ((List.takeWhile_prefix stop).subset hd),
      by simp, fun d hd => ht d ((List.dropWhile_suffix stop).subset hd), rfl⟩
  | cons q qs =>
    obtain ⟨hq, hqs⟩ := List.forall_mem_cons.mp hps
    obtain ⟨a, b, hab, -⟩ := List.eq_append_cons_of_mem hq.semi
    obtain ⟨htake, hdrop⟩ := @dropWhile_stop a (b ++ (q.name ++ '=' :: (q.quotes ++ (q.value ++
      (q.quotes ++ (paramsText qs ++ t)))))) ';' stop hsemi
    have hlead : ∀ d ∈ a.dropWhile stop ++ ';' :: b, isSep d = true := by
      intro d hd
      refine hq.lead d ?_
      rw [hab]
      rcases List.mem_append.mp hd with hd | hd
      · exact List.mem_append_left _ ((List.dropWhile_suffix stop).subset hd)
      · exact List.mem_append_right _ hd
    have htext : paramsText (q :: qs) ++ t = a ++ ';' :: (b ++ (q.name ++ '=' :: (q.quotes ++ (q.value ++
        (q.quotes ++ (paramsText qs ++ t)))))) := by
      rw [paramsText_cons, List.append_assoc, q.text_append, hab]
      simp
    refine ⟨a.takeWhile stop, { q with lead := a.dropWhile stop ++ ';' :: b } :: qs, t, ?_, ?_, ?_, ?_, ht, rfl⟩
    · rw [htext, htake]
    · rw [htext, hdrop, paramsText_cons, List.append_assoc, Param.text_append]
      simp [Param.quotes]
    · intro d hd
      refine hq.lead d ?_
      rw [hab]
      exact List.mem_append_left _ ((List.takeWhile_prefix stop).subset hd)
    · exact List.forall_mem_cons.mpr ⟨⟨hlead, by simp, hq.name, hq.value⟩, hqs⟩

/-- `; charset=` with the name. -/
def newCharset (c : Text) : Text := [';', ' '] ++ charsetPat ++ c

/-- The place of a parameter that is not there yet is the first `;` or the end of the line. -/
def beforePlace (d : Char) : Bool := !(d == ';' || d == '\r' || d == '\n')

theorem charset_missing {force : Bool} (hc : CharsetName c) (hlen : t.length < MAX_MIMEHEAD)
    (h : strcasestr t charsetPat = false) (hne : ¬(t.dropWhile beforePlace = [] ∧ force = false)) :
    replace_charset_value t c force =
      some (t.takeWhile beforePlace ++ (newCharset c ++ t.dropWhile beforePlace)) := by
  have hcopy : copyHeader false (newCharset c) = newCharset c := by
    refine copyHeader_value fun d hd => ?_
    rcases List.mem_append.mp hd with hd | hd
    · rintro rfl
      simp [charsetPat] at hd
    · rintro rfl
      cases hc.chars _ hd
  have hfits : ¬MAX_MIMEHEAD ≤ (t.dropWhile beforePlace).length := by
    have hle := (@List.dropWhile_suffix _ t beforePlace).length_le
    omega
  have hupto : upto t (t.dropWhile beforePlace) = t.takeWhile beforePlace := by
    have hall := upto_append (t.takeWhile beforePlace) (t.dropWhile beforePlace)
    rwa [List.takeWhile_append_dropWhile] at hall
  unfold replace_charset_value
  rw [strcasefind_eq_none.mpr h]
  dsimp only
  rw [show (t.dropWhile fun d => !(d == ';' || d == '\r' || d == '\n')) = t.dropWhile beforePlace from rfl,
    if_neg hne, if_neg hfits, show [';', ' '] ++ charsetPat ++ c = newCharset c from rfl, hcopy, hupto,
    List.append_assoc]

/-- Where there is no `charset=`, a parameter is put before the others. -/
theorem set_missing (hv : v.Wf) (hc : CharsetName c) (hlen : v.text.length < MAX_MIMEHEAD)
    (h : strcasestr v.text charsetPat = false) : v.IsSet c true := by
  have hno : ∀ q ∈ v.params, q.isCharset = false := by
    intro q hq
    rw [Bool.eq_false_iff]
    intro hcharset
    have hin := charset_occurs hq hcharset v.media v.tail
    rw [show v.media ++ (paramsText v.params ++ v.tail) = v.text from rfl, h] at hin
    cases hin
  obtain ⟨w, ps, t, htake, hdrop, hw, hps, ht, hpairs⟩ :=
    params_split hv.params hv.tail (show beforePlace ';' = false from rfl)
  have hmedia : ∀ d ∈ v.media, beforePlace d = true := by
    intro d hd
    obtain ⟨hsemi, -, -, hcr, hnl⟩ := hv.media d hd
    simp [beforePlace, hsemi, hcr, hnl]
  let p : Param := ⟨w ++ [';', ' '], charsetPat.dropLast, false, c⟩
  have hp : p.Wf := by
    refine ⟨fun d hd => ?_, by simp [p], ⟨by simp [p, charsetPat], fun d hd => ?_⟩, fun d hd =>
      (isToken_of_nameChar (hc.chars d hd)).1⟩
    · rcases List.mem_append.mp hd with hd | hd
      · exact hw d hd
      · simp only [List.mem_cons, List.not_mem_nil, or_false] at hd
        rcases hd with rfl | rfl <;> rfl
    · refine (isToken_of_nameChar ?_).1
      simp only [p, charsetPat, List.dropLast_cons_cons, List.dropLast_singleton, List.mem_cons,
        List.not_mem_nil, or_false] at hd
      rcases hd with rfl | rfl | rfl | rfl | rfl | rfl | rfl <;> rfl
  have hcharset : p.isCharset = true := beq_self_eq_true _
  have hout : replace_charset_value v.text c true =
      some (v.media ++ (paramsText (p :: ps) ++ t)) := by
    rw [charset_missing hc hlen h (by simp)]
    unfold CType.text
    rw [List.takeWhile_append_of_pos hmedia, List.dropWhile_append_of_pos hmedia, htake, hdrop,
      paramsText_cons, bare_text]
    simp [newCharset, charsetPat]
  suffices hset : ∃ v', v.Sets c (v.media ++ (paramsText (p :: ps) ++ t)) v' by
    obtain ⟨v', hset⟩ := hset
    exact ⟨_, v', hout, hset⟩
  refine (sets_iff hv).mpr ⟨?_, (p :: ps).map Param.pair,
    scan_start_params (List.forall_mem_cons.mpr ⟨hp, hps⟩) ht, ?_, ?_⟩
  · have ha : strcasestr (v.media ++ (w ++ [';', ' '])) charsetPat = false := by
      refine strcasestr_no_eq ?_
      simp only [List.mem_append, not_or]
      exact ⟨fun hmem => (hv.media _ hmem).2.2.1 rfl, fun hmem => ne_of_sep rfl (hw _ hmem) rfl, by simp⟩
    have hread := @reads_iff c (v.media ++ (w ++ [';', ' '])) charsetPat [] (paramsText ps ++ t) hc ha
      (beq_self_eq_true _) (quoteAt_name hc (.inl rfl) _)
    have hsame : v.media ++ (paramsText (p :: ps) ++ t) =
        v.media ++ (w ++ [';', ' ']) ++ (charsetPat ++ ([] ++ (c ++ (paramsText ps ++ t)))) := by
      rw [paramsText_cons, bare_text]
      simp [charsetPat]
    rw [hsame, hread, namelen_zero]
    exact fun d hd => isNameChar_of_sep (params_head hps (head_seps ht) d hd)
  · rw [List.map_cons, hpairs]
    unfold CType.others others
    rw [List.filter_cons_of_neg (by simp [show isCharset p.pair.1 = true from hcharset])]
  · have hzero := countP_charset_zero hno
    rw [List.map_cons, countP_charset_cons (show isCharset p.pair.1 = true from hcharset), hpairs, hzero]

/-- Where the charset can be set, it is. -/
theorem set_of_canSet (hv : v.Wf) (hc : CharsetName c) (hlen : v.text.length < MAX_MIMEHEAD)
    (h : CanSet v c) : v.IsSet c true := by
  cases h with
  | missing h => exact set_missing hv hc hlen h
  | same hreads hone => exact ⟨v.text, v, replace_same true hreads, hv, rfl, rfl, rfl, hone, hreads⟩
  | replaced h hbegins hleft hbs => exact set_replaced true ⟨hv, hc, hlen, h, hbegins⟩ hleft hbs
  | duplicate h hbegins hleft hds hd hquote hshort hes =>
    exact set_duplicate true ⟨hv, hc, hlen, h, hbegins⟩ hleft hds hd hquote hshort hes
  | overlong h hbegins hp hd hquote _ hlead hname hes =>
    exact set_overlong true ⟨hv, hc, hlen, h, hbegins⟩ hp hd hquote hlead hname hes
  | inside h hbegins hq hcut hy hquotable hname hbs =>
    exact set_inside true ⟨hv, hc, hlen, h, hbegins⟩ hq hcut hy hquotable hname hbs
  | swallowed h hbegins hq hcut hquotable hds hd hquote hshort hes =>
    exact set_swallowed true ⟨hv, hc, hlen, h, hbegins⟩ hq hcut hquotable hds hd hquote hshort hes

end

end delegate.rfc822
