-- Where `replace_charset_value` sets the charset (mimekit/rfc822.cpp): the first `charset=` has to belong
-- to a charset parameter, and what is erased behind it has to be another one.
import Delegate.ContentErase

open ctext segs

namespace delegate.rfc822

/-- The charset of the text is the name, up to case. -/
def Reads (t c : Text) : Prop :=
  ∀ size, c.length < size → ∃ name, get_charset t size = some name ∧ strcaseeq name c = true

/-- The text is the Content-Type with the charset set: the media type and the other parameters are as they
were, and there is one charset parameter. -/
structure CType.Sets (v : CType) (c out : Text) (v' : CType) : Prop where
  wf : v'.Wf
  text : out = v'.text
  media : v'.media = v.media
  others : v'.others = v.others
  one : v'.params.countP Param.isCharset = 1
  charset : Reads out c

/-- The first `charset=` belongs to the charset parameter `p`. -/
structure CType.First (v : CType) (as : List Param) (p : Param) (bs : List Param) : Prop where
  split : v.params = as ++ p :: bs
  charset : p.isCharset = true
  before : strcasestr (v.media ++ (paramsText as ++ p.lead)) charsetPat = false

/-- The charset of the text is set. -/
def CType.IsSet (v : CType) (c : Text) (force : Bool) : Prop :=
  ∃ out v', replace_charset_value v.text c force = some out ∧ v.Sets c out v'

/-- What is left of the value behind the name. -/
def Param.left (p : Param) : Text := p.value.drop (charset_namelen p.value)

/-- The value begins with the name. -/
def Param.begins (p : Param) (c : Text) : Bool := strncaseeq p.value c c.length

/-- Another name is asked for where the first `charset=` belongs to the parameter `p`. -/
structure CType.Asks (v : CType) (c : Text) (as : List Param) (p : Param) (bs : List Param) : Prop where
  wf : v.Wf
  name : CharsetName c
  room : v.text.length < MAX_MIMEHEAD
  first : v.First as p bs
  begins : p.begins c = false

/-- There is no `charset=`; or the charset is the name already, in one parameter. Or the first `charset=` is
in a charset parameter whose name does not begin with it, and behind that name

* nothing is erased;
* the value of the next charset parameter is erased, which has no quotes;
* the 31 first characters of that value are erased, and the rest of it becomes the end of this value;
* a part of this value is erased, and its quotes stay around the rest;
* the end of this value is erased with its quote and the charset parameters up to the next quote, which
  stands behind a backslash then. -/
inductive CanSet (v : CType) (c : Text) : Prop
  | missing : strcasestr v.text charsetPat = false → CanSet v c
  | same : Reads v.text c → v.params.countP Param.isCharset = 1 → CanSet v c
  | replaced {as bs : List Param} {p : Param} : v.First as p bs → p.begins c = false →
      (p.quote = true → cutAt p.left = none) → (∀ q ∈ bs, q.Plain) → CanSet v c
  | duplicate {as ds es : List Param} {p d : Param} : v.First as p (ds ++ d :: es) → p.begins c = false →
      (p.quote = true → cutAt p.left = none) → (∀ q ∈ ds, q.Plain) → d.isCharset = true →
      d.quote = false → d.value.length ≤ 31 → (∀ q ∈ es, q.isCharset = false) → CanSet v c
  | overlong {as es : List Param} {p d : Param} : v.First as p (d :: es) → p.begins c = false →
      p.quote = false → d.isCharset = true → d.quote = false → 31 < d.value.length → d.lead = [';'] →
      charset_namelen (p.left ++ d.value.drop 31) = 0 → (∀ q ∈ es, q.isCharset = false) → CanSet v c
  | inside {as bs : List Param} {p : Param} {b y : Text} : v.First as p bs → p.begins c = false →
      p.quote = true → cutAt p.left = some (b, y) → y ≠ [] →
      quotable (b ++ (valuescanX y 32).2) = true → charset_namelen (b ++ (valuescanX y 32).2) = 0 →
      (∀ q ∈ bs, q.isCharset = false) → CanSet v c
  | swallowed {as ds es : List Param} {p d : Param} {b : Text} : v.First as p (ds ++ d :: es) →
      p.begins c = false → p.quote = true → cutAt p.left = some (b, []) →
      quotable (b ++ ['"']) = true → (∀ q ∈ ds, q.isCharset = true ∧ q.quote = false) →
      d.isCharset = true → d.quote = true →
      (paramsText ds ++ (d.lead ++ (d.name ++ ['=']))).length ≤ 31 →
      (∀ q ∈ es, q.isCharset = false) → CanSet v c

section
variable {v : CType} {c out t y : Text} {as bs ds es : List Param} {p : Param} {D l : List (Text × Text)}

/-! ## What is set, by the scan -/

theorem countP_pairs (ps : List Param) :
    (ps.map Param.pair).countP (fun x => isCharset x.1) = ps.countP Param.isCharset := by
  rw [List.countP_map]
  rfl

theorem scan_start_params {ps : List Param} (hps : ∀ p ∈ ps, p.Wf) (ht : ∀ c ∈ t, isSep c = true) :
    Scan.start.scan (paramsText ps ++ t) = some (ps.map Param.pair) := by
  have h := @scan_params Scan.start [] t ps hps rfl ht
  rwa [List.nil_append] at h

/-- The charset is set if the text behind the media type is read to the other parameters and a charset. -/
theorem sets_iff (hv : v.Wf) :
    (∃ v', v.Sets c (v.media ++ t) v') ↔
      Reads (v.media ++ t) c ∧ ∃ l, Scan.start.scan t = some l ∧ others l = v.others ∧
        l.countP (fun x => isCharset x.1) = 1 := by
  constructor
  · rintro ⟨v', h⟩
    have htext := h.text
    unfold CType.text at htext
    rw [h.media, List.append_cancel_left_eq] at htext
    refine ⟨h.charset, v'.params.map Param.pair, ?_, h.others, ?_⟩
    · rw [htext]
      exact scan_start_params h.wf.params h.wf.tail
    · rw [countP_pairs]
      exact h.one
  · rintro ⟨hreads, l, hscan, hothers, hone⟩
    obtain ⟨ps, w, hps, rfl, rfl, hw⟩ := scan_sound hscan
    refine ⟨⟨v.media, ps, w⟩, ⟨hv.media, hps, hw⟩, rfl, rfl, hothers, ?_, hreads⟩
    rwa [countP_pairs] at hone

theorem others_append (a b : List (Text × Text)) : others (a ++ b) = others a ++ others b :=
  List.filter_append ..

theorem others_plain {ps : List Param} (h : ∀ p ∈ ps, p.isCharset = false) :
    others (ps.map Param.pair) = ps.map Param.pair := by
  unfold others
  rw [List.filter_eq_self]
  intro x hx
  obtain ⟨p, hp, rfl⟩ := List.mem_map.mp hx
  rw [show isCharset p.pair.1 = p.isCharset from rfl, h p hp]
  rfl

theorem no_charset_of_others {ps : List Param} (h : ps.map Param.pair = others l) :
    ∀ p ∈ ps, p.isCharset = false := by
  intro p hp
  have hmem : p.pair ∈ others l := by
    rw [← h]
    exact List.mem_map_of_mem hp
  have hgo := (List.mem_filter.mp hmem).2
  rwa [Bool.not_eq_true'] at hgo

theorem others_eq_iff {m m' : List (Text × Text)} :
    (others m = others m' ∧ m.countP (fun x => isCharset x.1) = 0) ↔ m = others m' := by
  constructor
  · rintro ⟨h, hzero⟩
    rw [← h]
    unfold others
    rw [eq_comm, List.filter_eq_self]
    intro x hx
    rw [Bool.not_eq_true', ← Bool.not_eq_true]
    exact List.countP_eq_zero.mp hzero x hx
  · rintro rfl
    unfold others
    refine ⟨?_, ?_⟩
    · rw [List.filter_filter]
      simp
    · rw [List.countP_eq_zero]
      intro x hx
      have hgo := (List.mem_filter.mp hx).2
      rwa [Bool.not_eq_true', ← Bool.not_eq_true] at hgo

/-! ## At a parameter -/

/-- The scan at the value of a parameter. -/
def Scan.at (as : List Param) (p : Param) : Scan := ⟨as.map Param.pair, .value p.name []⟩

theorem run_at (has : ∀ q ∈ as, q.Wf) (hp : p.Wf) :
    Scan.start.run (paramsText as ++ (p.lead ++ (p.name ++ ['=']))) = some (Scan.at as p) := by
  obtain ⟨s, hrun, hfinish⟩ := @run_params Scan.start [] as has rfl
  rw [Scan.run_append, hrun, Option.bind_some]
  exact run_head hp hfinish

theorem scan_at (has : ∀ q ∈ as, q.Wf) (hp : p.Wf) (t : Text) :
    Scan.start.scan (paramsText as ++ (p.lead ++ (p.name ++ '=' :: t))) = (Scan.at as p).scan t := by
  have hsplit : paramsText as ++ (p.lead ++ (p.name ++ '=' :: t)) =
      paramsText as ++ (p.lead ++ (p.name ++ ['='])) ++ t := by simp
  rw [hsplit, Scan.scan_of_run (run_at has hp)]

theorem at_pairs (h : (Scan.at as p).scan t = some l) :
    ∃ X m, l = as.map Param.pair ++ (p.name, X) :: m := by
  obtain ⟨X, m, hl, -⟩ := scan_value h
  exact ⟨X, m, hl⟩

/-- The value of a parameter, and parameters behind it with blanks and `;` between them. -/
theorem scan_at_value {X w : Text} (hX : Param.Wf { p with value := X }) (hds : ∀ q ∈ ds, q.Wf)
    (hw : ∀ c ∈ w, isSep c = true) (hes : ∀ q ∈ es, q.Wf) (ht : ∀ c ∈ t, isSep c = true) :
    (Scan.at as p).scan (p.quotes ++ (X ++ (p.quotes ++ (paramsText ds ++ (w ++ (paramsText es ++ t)))))) =
      some (as.map Param.pair ++ (p.name, p.quotes ++ (X ++ p.quotes)) ::
        (ds.map Param.pair ++ es.map Param.pair)) := by
  have hraw : Param.raw { p with value := X } = p.quotes ++ (X ++ p.quotes) := List.append_assoc ..
  have hpair : Param.pair { p with value := X } = (p.name, p.quotes ++ (X ++ p.quotes)) := by
    rw [← hraw]
    rfl
  have hat : (Scan.at as p).run (Param.raw { p with value := X }) = some _ := run_after hX
  obtain ⟨s', hrun', hready'⟩ := run_params hds finish_after
  have hrest : s'.scan (w ++ (paramsText es ++ t)) =
      some (as.map Param.pair ++ [Param.pair { p with value := X }] ++ ds.map Param.pair ++ es.map Param.pair) := by
    by_cases hne : w = []
    · rw [hne, List.nil_append, scan_params hes hready' ht]
    · obtain ⟨semi, hsep, -⟩ := run_ready hready' hw hne
      rw [Scan.scan_of_run hsep]
      exact scan_params hes rfl ht
  have hsplit : p.quotes ++ (X ++ (p.quotes ++ (paramsText ds ++ (w ++ (paramsText es ++ t))))) =
      Param.raw { p with value := X } ++ (paramsText ds ++ (w ++ (paramsText es ++ t))) := by
    rw [hraw]
    simp
  rw [hsplit, Scan.scan_of_run hat, Scan.scan_of_run hrun', hrest, hpair]
  simp

theorem CType.text_at (h : v.params = as ++ p :: bs) :
    v.text = v.media ++ (paramsText as ++ (p.lead ++ (p.name ++ '=' ::
      (p.quotes ++ (p.value ++ (p.quotes ++ (paramsText bs ++ v.tail))))))) := by
  unfold CType.text
  rw [h, paramsText_append, paramsText_cons, List.append_assoc, List.append_assoc, p.text_append]

theorem CType.Wf.split (hv : v.Wf) (h : v.params = as ++ p :: bs) :
    (∀ q ∈ as, q.Wf) ∧ p.Wf ∧ ∀ q ∈ bs, q.Wf := by
  refine ⟨fun q hq => hv.params q ?_, hv.params p ?_, fun q hq => hv.params q ?_⟩ <;>
    rw [h] <;> simp [*]

theorem CType.Asks.wfs (h : v.Asks c as p bs) : (∀ q ∈ as, q.Wf) ∧ p.Wf ∧ ∀ q ∈ bs, q.Wf :=
  h.wf.split h.first.split

/-! ## The first `charset=` -/

/-- Where a text without `e` ends, the `e` before is before it. -/
theorem suffix_split {e : Char} {w x a n : Text} (he : e ∉ w) (h : x ++ w = a ++ e :: n) :
    ∃ n', n = n' ++ w ∧ x = a ++ e :: n' := by
  rcases List.append_eq_append_iff.mp h with ⟨m, rfl, hw⟩ | ⟨m, rfl, hm⟩
  · exact absurd (by rw [hw]; simp) he
  · cases m with
    | nil => exact absurd (by rw [← List.nil_append w, ← hm]; simp) he
    | cons d m =>
      rw [List.cons_append, List.cons.injEq] at hm
      obtain ⟨rfl, rfl⟩ := hm
      exact ⟨m, rfl, rfl⟩

/-- A character behind a text without it. -/
theorem char_behind {e : Char} {x u r : Text} (hx : e ∉ x) (h : x ++ t = u ++ e :: r) :
    ∃ u', u = x ++ u' ∧ t = u' ++ e :: r := by
  rcases List.append_eq_append_iff.mp h with ⟨m, rfl, ht⟩ | ⟨m, rfl, hm⟩
  · exact ⟨m, rfl, ht⟩
  · cases m with
    | nil => exact ⟨[], by simp, by simpa using hm.symm⟩
    | cons d m =>
      cases hm
      exact absurd (by simp) hx

/-- A `=` is behind a name, or in a quoted value. -/
def EqualPlace (ps : List Param) (t u r : Text) : Prop :=
  ∃ as p bs, ps = as ++ p :: bs ∧
    ((u = paramsText as ++ (p.lead ++ p.name) ∧
        r = p.quotes ++ (p.value ++ (p.quotes ++ (paramsText bs ++ t)))) ∨
      (p.quote = true ∧ ∃ b z, p.value = b ++ '=' :: z ∧
        u = paramsText as ++ (p.lead ++ (p.name ++ '=' :: '"' :: b)) ∧
        r = z ++ '"' :: (paramsText bs ++ t)))

theorem equal_place {ps : List Param} {u r : Text} (hps : ∀ p ∈ ps, p.Wf)
    (ht : ∀ c ∈ t, isSep c = true) (h : paramsText ps ++ t = u ++ '=' :: r) : EqualPlace ps t u r := by
  induction ps generalizing u with
  | nil =>
    have hmem : '=' ∈ t := by
      rw [show t = u ++ '=' :: r from h]
      simp
    exact absurd rfl (ne_of_sep rfl (ht _ hmem))
  | cons p ps ih =>
    obtain ⟨hp, hps⟩ := List.forall_mem_cons.mp hps
    have hno : '=' ∉ p.lead ++ p.name := by
      rw [List.mem_append, not_or]
      exact hp.not_head rfl rfl
    -- The `=` is behind this parameter.
    have hrest : ∀ u', paramsText ps ++ t = u' ++ '=' :: r → u = p.text ++ u' →
        EqualPlace (p :: ps) t u r := by
      rintro u' hu' rfl
      obtain ⟨as, q, bs, rfl, hplace⟩ := ih hps hu'
      refine ⟨p :: as, q, bs, rfl, ?_⟩
      rcases hplace with ⟨rfl, hr⟩ | ⟨hq, b, z, hvalue, rfl, hr⟩
      · exact .inl ⟨by rw [paramsText_cons, List.append_assoc], hr⟩
      · exact .inr ⟨hq, b, z, hvalue, by rw [paramsText_cons, List.append_assoc], hr⟩
    rw [paramsText_cons, List.append_assoc, p.text_append, ← List.append_assoc] at h
    obtain ⟨u1, rfl, hu1⟩ := char_behind hno h
    cases u1 with
    | nil =>
      rw [List.nil_append, List.cons.injEq] at hu1
      exact ⟨[], p, ps, rfl, .inl ⟨by simp, hu1.2.symm⟩⟩
    | cons d u1 =>
      rw [List.cons_append, List.cons.injEq] at hu1
      obtain ⟨rfl, hu1⟩ := hu1
      have hquotes : '=' ∉ p.quotes := by
        unfold Param.quotes
        split <;> simp
      obtain ⟨u2, rfl, hu2⟩ := char_behind hquotes hu1
      cases hq : p.quote with
      | false =>
        obtain ⟨u3, rfl, hu3⟩ := char_behind (fun hmem => ne_of_token rfl (hp.bare hq _ hmem) rfl) hu2
        obtain ⟨u4, rfl, hu4⟩ := char_behind hquotes hu3
        refine hrest u4 hu4 ?_
        unfold Param.text Param.raw
        simp
      | true =>
        have hone := quotes_quoted hq
        rw [hone] at hu2
        rcases List.append_eq_append_iff.mp hu2 with ⟨m, rfl, hm⟩ | ⟨m, hm, hr⟩
        · obtain ⟨u4, rfl, hu4⟩ := char_behind (by simp) hm
          refine hrest u4 hu4 ?_
          unfold Param.text Param.raw
          simp [hone]
        · cases m with
          | nil => cases hr
          | cons e m =>
            rw [List.cons_append, List.cons.injEq] at hr
            obtain ⟨rfl, rfl⟩ := hr
            exact ⟨[], p, ps, rfl, .inr ⟨hq, u2, m, hm, by simp [hone], by simp⟩⟩

theorem sep_not_alpha {e : Char} (he : isSep e = true) : e.isAlpha = false := by
  rcases isSep_cases he with rfl | rfl | rfl | rfl | rfl <;> rfl

/-- The first `charset=` is the end of a name, or is in a quoted value. -/
theorem charset_place {x w r : Text} (hv : v.Wf) (h : v.text = x ++ (w ++ r))
    (hw : strcaseeq w charsetPat = true) :
    ∃ as p bs, v.params = as ++ p :: bs ∧
      ((∃ n k, p.name = n ++ k ∧ isCharset k = true ∧ w = k ++ ['='] ∧
          x = v.media ++ (paramsText as ++ (p.lead ++ n)) ∧
          r = p.quotes ++ (p.value ++ (p.quotes ++ (paramsText bs ++ v.tail)))) ∨
        (p.quote = true ∧ ∃ b z, p.value = b ++ (w ++ z) ∧
          x = v.media ++ (paramsText as ++ (p.lead ++ (p.name ++ '=' :: '"' :: b))) ∧
          r = z ++ '"' :: (paramsText bs ++ v.tail))) := by
  obtain ⟨k, rfl, hk, hletters⟩ := charset_letters hw
  have hsplit : v.media ++ (paramsText v.params ++ v.tail) = (x ++ k) ++ '=' :: r := by
    rw [← show v.text = v.media ++ (paramsText v.params ++ v.tail) from rfl, h]
    simp
  obtain ⟨u, hu, hparams⟩ := char_behind (fun hmem => (hv.media _ hmem).2.2.1 rfl) hsplit
  obtain ⟨as, p, bs, hps, hplace⟩ := equal_place hv.params hv.tail hparams
  refine ⟨as, p, bs, hps, ?_⟩
  obtain ⟨-, hp, -⟩ := hv.split hps
  rcases hplace with ⟨rfl, hr⟩ | ⟨hq, b, z, hvalue, rfl, hr⟩
  · left
    -- The blanks and `;` before the name are no letters.
    rcases List.eq_nil_or_concat p.lead with hnil | ⟨lead, e, hlead⟩
    · have hmem := hp.semi
      rw [hnil] at hmem
      cases hmem
    · rw [List.concat_eq_append] at hlead
      have he : e ∉ k := hletters e (sep_not_alpha (hp.lead e (by rw [hlead]; simp)))
      have hname : x ++ k = (v.media ++ (paramsText as ++ lead)) ++ e :: p.name := by
        rw [hu, hlead]
        simp
      obtain ⟨n, hn, hx⟩ := suffix_split he hname
      refine ⟨n, k, hn, hk, rfl, ?_, hr⟩
      rw [hx, hlead]
      simp
  · right
    have hbegin : x ++ k = (v.media ++ (paramsText as ++ (p.lead ++ (p.name ++ ['='])))) ++ '"' :: b := by
      rw [hu]
      simp
    obtain ⟨b', rfl, hx⟩ := suffix_split (hletters '"' rfl) hbegin
    refine ⟨hq, b', z, by rw [hvalue]; simp, ?_, hr⟩
    rw [hx]
    simp

/-! ## The text with the new name -/

/-- The charset is read as the name if no character of a name is behind it. -/
theorem reads_iff {a w q E : Text} (hc : CharsetName c) (ha : strcasestr a charsetPat = false)
    (hw : strcaseeq w charsetPat = true) (hq : quoteAt (q ++ (c ++ E)) = q) :
    Reads (a ++ (w ++ (q ++ (c ++ E)))) c ↔ charset_namelen E = 0 := by
  have hlen : charset_namelen (c ++ E) = c.length + charset_namelen E := by
    unfold charset_namelen
    rw [List.takeWhile_append_of_pos hc.chars, List.length_append]
  have htake : (c ++ E).take (c.length + charset_namelen E) = c ++ E.take (charset_namelen E) :=
    List.take_length_add_append ..
  constructor
  · intro h
    obtain ⟨name, hget, heq⟩ := h (charset_namelen (c ++ E) + 1) (by omega)
    rw [get_charset_at ha hw hq (Nat.lt_succ_self _), hlen, htake, Option.some.injEq] at hget
    have hsame := length_of_strcaseeq heq
    rw [← hget, List.length_append, List.length_take, Nat.min_eq_left (charset_namelen_le E)] at hsame
    omega
  · intro h size hsize
    refine ⟨c, ?_, beq_self_eq_true _⟩
    rw [get_charset_at ha hw hq (by omega), hlen, htake, h, List.take_zero, List.append_nil]

theorem CharsetName.head {c : Text} (hc : CharsetName c) (t : Text) :
    ∀ d ∈ (c ++ t).head?, isNameChar d = true := by
  intro d hd
  obtain ⟨e, c, rfl⟩ := List.exists_cons_of_ne_nil hc.nonempty
  cases hd
  exact hc.chars d List.mem_cons_self

theorem quoteAt_name {q : Text} (hc : CharsetName c) (hq : q = [] ∨ q = ['"']) (t : Text) :
    quoteAt (q ++ (c ++ t)) = q := by
  rcases hq with rfl | rfl
  · unfold quoteAt
    rw [List.nil_append, if_neg]
    intro hhead
    have hname := hc.head t _ hhead
    cases hname
  · rfl

theorem Param.quotes_cases (p : Param) : p.quotes = [] ∨ p.quotes = ['"'] := by
  unfold Param.quotes
  split
  · exact .inr rfl
  · exact .inl rfl

theorem strcasestr_at {a w : Text} (hw : strcaseeq w charsetPat = true) (t : Text) :
    strcasestr (a ++ (w ++ t)) charsetPat = true := by
  obtain ⟨rest, hrest⟩ := lower_of_strncaseeq (charset_at hw t).1
  unfold strcasestr
  rw [strstr_isSome_iff, List.map_append, ← hrest]
  exact ⟨_, rest, List.append_assoc ..⟩

theorem Param.text_charset (p : Param) (t : Text) :
    p.text ++ t = p.lead ++ ((p.name ++ ['=']) ++ (p.raw ++ t)) := by
  unfold Param.text
  simp

/-- A charset parameter has `charset=`. -/
theorem charset_occurs {ps : List Param} {q : Param} (hq : q ∈ ps) (hcharset : q.isCharset = true)
    (a b : Text) : strcasestr (a ++ (paramsText ps ++ b)) charsetPat = true := by
  obtain ⟨u, w, rfl⟩ := List.append_of_mem hq
  have htext : a ++ (paramsText (u ++ q :: w) ++ b) = (a ++ (paramsText u ++ q.lead)) ++
      ((q.name ++ ['=']) ++ (q.raw ++ (paramsText w ++ b))) := by
    rw [paramsText_append, paramsText_cons, List.append_assoc, List.append_assoc, q.text_charset]
    simp
  rw [htext]
  exact strcasestr_at (charset_equal hcharset) _

/-- Before the first `charset=` there is no charset parameter. -/
theorem CType.First.no_charset (h : v.First as p bs) : ∀ q ∈ as, q.isCharset = false := by
  intro q hq
  rw [Bool.eq_false_iff]
  intro hcharset
  have hin := charset_occurs hq hcharset v.media p.lead
  rw [h.before] at hin
  cases hin

theorem countP_charset_zero {ps : List Param} (h : ∀ q ∈ ps, q.isCharset = false) :
    (ps.map Param.pair).countP (fun x => isCharset x.1) = 0 := by
  rw [countP_pairs, List.countP_eq_zero]
  intro q hq
  rw [h q hq]
  exact Bool.false_ne_true

theorem countP_charset_cons {x : Text × Text} (h : isCharset x.1 = true) :
    (x :: l).countP (fun x => isCharset x.1) = l.countP (fun x => isCharset x.1) + 1 :=
  List.countP_cons_of_pos h

/-- The text with the new name in the parameter of the first `charset=` is set if it is read to the same
parameters behind that one, without the charsets. -/
theorem sets_first {E : Text} (hv : v.Wf) (hc : CharsetName c) (h : v.First as p bs) :
    (∃ v', v.Sets c (v.media ++ (paramsText as ++ (p.lead ++ (p.name ++ '=' ::
      (p.quotes ++ (c ++ E)))))) v') ↔
      charset_namelen E = 0 ∧ ∃ X, (Scan.at as p).scan (p.quotes ++ (c ++ E)) =
        some (as.map Param.pair ++ (p.name, X) :: others (bs.map Param.pair)) := by
  obtain ⟨has, hp, -⟩ := hv.split h.split
  have hread : Reads (v.media ++ (paramsText as ++ (p.lead ++ (p.name ++ '=' ::
      (p.quotes ++ (c ++ E)))))) c ↔ charset_namelen E = 0 := by
    rw [← reads_iff hc h.before (charset_equal h.charset) (quoteAt_name hc p.quotes_cases E)]
    simp
  have hself : others (as.map Param.pair) = as.map Param.pair := others_plain h.no_charset
  have hothers : v.others = as.map Param.pair ++ others (bs.map Param.pair) := by
    unfold CType.others
    rw [h.split, List.map_append, others_append, hself, List.map_cons]
    unfold others
    rw [List.filter_cons_of_neg (by simp [show isCharset p.pair.1 = true from h.charset])]
  have hrest : ∀ X m, (others (as.map Param.pair ++ (p.name, X) :: m) = v.others ∧
      (as.map Param.pair ++ (p.name, X) :: m).countP (fun x => isCharset x.1) = 1) ↔
        m = others (bs.map Param.pair) := by
    intro X m
    have hcharset : isCharset ((p.name, X) : Text × Text).1 = true := h.charset
    rw [← others_eq_iff, hothers, others_append, hself, List.append_cancel_left_eq, List.countP_append,
      countP_charset_cons hcharset, countP_charset_zero h.no_charset, Nat.zero_add, Nat.add_eq_right]
    unfold others
    rw [List.filter_cons_of_neg (by simp [hcharset])]
  rw [sets_iff hv, hread, scan_at has hp]
  refine and_congr_right fun _ => ?_
  constructor
  · rintro ⟨l, hscan, hl⟩
    obtain ⟨X, m, rfl⟩ := at_pairs hscan
    rw [(hrest X m).mp hl] at hscan
    exact ⟨X, hscan⟩
  · rintro ⟨X, hscan⟩
    exact ⟨_, hscan, (hrest X _).mpr rfl⟩

end

end delegate.rfc822
