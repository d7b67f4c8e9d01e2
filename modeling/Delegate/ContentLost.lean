-- Where `replace_charset_value` does not set the charset (mimekit/rfc822.cpp): what the text loses is read
-- by the scan, at the place of the text that was erased.
import Delegate.ContentReplace

open ctext segs

namespace delegate.rfc822

section
variable {v : CType} {c t u w b y n : Text} {as bs ds es : List Param} {p q : Param}
  {D D' l l' m : List (Text × Text)} {esc : Bool}

/-! ## Behind a value -/

theorem after_outside : (Scan.after D q).mode.outside := by
  unfold Scan.after
  split <;> exact trivial

/-- What is left of a value without quotes is read only directly behind another one. -/
theorem after_token {z : Text} (hw : ∀ e ∈ w, isSep e = true) (hz : ∀ e ∈ z, isToken e = true) (hne : z ≠ [])
    (ht : ∀ e ∈ t.head?, isSep e = true) (h : (Scan.after D q).scan (w ++ (z ++ t)) = some l) :
    w = [] ∧ q.quote = false := by
  by_cases hnil : w = []
  · refine ⟨hnil, ?_⟩
    by_contra hq
    rw [Bool.not_eq_false] at hq
    obtain ⟨e, z, rfl⟩ := List.exists_cons_of_ne_nil hne
    rw [hnil, List.nil_append, List.cons_append, Scan.scan_cons] at h
    unfold Scan.after Scan.step at h
    rw [hq] at h
    simp only [if_true, isSep_of_token (hz e List.mem_cons_self), Bool.false_eq_true, if_false] at h
    cases h
  · obtain ⟨semi, hrun, -⟩ := run_ready finish_after hw hnil
    rw [Scan.scan_of_run hrun, scan_no_equal hz hne ht] at h
    cases h

/-- What is left of a quoted value is read only where its quote begins an empty value. -/
theorem after_quote (hw : ∀ e ∈ w, isSep e = true) (h : (Scan.after D q).scan (w ++ u) = some l)
    (hin : Scan.scan ⟨D', .quoted n y esc⟩ u = some l') :
    w = [] ∧ q.quote = false ∧ q.value = [] ∧ u.head? = some '"' := by
  by_cases hnil : w = []
  · subst hnil
    rw [List.nil_append] at h
    by_contra hno
    refine not_both after_outside (fun k hk hesc hhead => ?_) h hin
    unfold Scan.after at hk
    split_ifs at hk with hq
    obtain ⟨-, hvalue⟩ := Mode.value.inj hk
    exact hno ⟨rfl, Bool.eq_false_iff.mpr hq, hvalue, hhead⟩
  · obtain ⟨semi, hrun, -⟩ := run_ready finish_after hw hnil
    rw [Scan.scan_of_run hrun] at h
    have hout : (⟨D ++ [q.pair], .sep semi⟩ : Scan).mode.outside := trivial
    exact (not_both hout (fun k hk => by cases hk) h hin).elim

/-- A value without quotes is not read with more behind it. -/
theorem value_longer (hq : q.quote = false) (hu : ∀ e ∈ u.head?, isSep e = false) (hne : u ≠ [])
    (hlen : D'.length = D.length) (h : (Scan.after D q).scan u = some (D' ++ q.pair :: m)) : False := by
  unfold Scan.after at h
  rw [hq, if_neg Bool.false_ne_true] at h
  obtain ⟨x, m', heq, hx⟩ := scan_value h
  obtain ⟨-, hpair⟩ := List.append_inj heq hlen
  have hvalue := (Prod.mk.inj (List.cons.inj hpair).1).2
  rw [raw_bare hq] at hvalue
  exact hx hu hne (by simpa using hvalue)

/-! ## The scan of the new text -/

/-- The parameter with the new name. -/
def Param.named (p : Param) (c : Text) : Param := { p with value := c ++ p.left }

theorem named_text (p : Param) (c t : Text) :
    p.quotes ++ (c ++ (p.left ++ (p.quotes ++ t))) = (p.named c).raw ++ t := by
  unfold Param.named Param.raw Param.quotes
  simp

theorem run_named (hp : p.Wf) (hc : CharsetName c) :
    (Scan.at as p).run (p.named c).raw = some (Scan.after (as.map Param.pair) (p.named c)) :=
  run_after (wf_left hp hc)

/-- The last one of the parameters before the text that was erased. -/
theorem run_last (as : List Param) (hp : p.Wf) (hc : CharsetName c) (hds : ∀ q ∈ ds, q.Wf) :
    ∃ D q, (Scan.at as p).run ((p.named c).raw ++ paramsText ds) = some (Scan.after D q) ∧
      (ds = [] ∧ q = p.named c ∧ D = as.map Param.pair ∨
        ∃ init, ds = init ++ [q] ∧ D.length = as.length + (init.length + 1)) := by
  rcases List.eq_nil_or_concat ds with rfl | ⟨init, q, rfl⟩
  · exact ⟨as.map Param.pair, p.named c, by rw [paramsText_nil, List.append_nil, run_named hp hc],
      .inl ⟨rfl, rfl, rfl⟩⟩
  · rw [List.concat_eq_append] at hds ⊢
    have hq := hds q (by simp)
    have hinit : ∀ x ∈ init, x.Wf := fun x hx => hds x (List.mem_append_left _ hx)
    obtain ⟨s, hrun, hready⟩ := run_params hinit (@finish_after (as.map Param.pair) (p.named c))
    have htext : paramsText (init ++ [q]) = paramsText init ++ ((q.lead ++ (q.name ++ ['='])) ++ q.raw) := by
      rw [paramsText_append]
      simp [paramsText, Param.text]
    refine ⟨as.map Param.pair ++ [(p.named c).pair] ++ init.map Param.pair, q, ?_, .inr ⟨init, rfl, ?_⟩⟩
    · rw [htext, Scan.run_append, run_named hp hc, Option.bind_some, Scan.run_append, hrun, Option.bind_some,
        Scan.run_append, run_head hq hready, Option.bind_some, run_after hq]
    · simp

/-- The text that is written is read, where it is the Content-Type with the charset set. -/
theorem scan_of_set {E : Text} {force : Bool} (h : v.Asks c as p bs)
    (hE : erased (p.left ++ (p.quotes ++ (paramsText bs ++ v.tail))) = E) (hset : v.IsSet c force) :
    charset_namelen E = 0 ∧ ∃ X, (Scan.at as p).scan (p.quotes ++ (c ++ E)) =
      some (as.map Param.pair ++ (p.name, X) :: others (bs.map Param.pair)) := by
  obtain ⟨out, v', hout, hset⟩ := hset
  rw [replace_first force h, hE, Option.some.injEq] at hout
  subst hout
  exact (sets_first h.wf h.name h.first).mp ⟨v', hset⟩

/-- A quoted value is read from the middle of it, too. -/
theorem quoted_rest {d : Param} {x z : Text} (hd : d.Wf) (hquote : d.quote = true) (hsplit : d.value = x ++ z)
    (hes : ∀ q ∈ es, q.Wf) (ht : ∀ e ∈ t, isSep e = true) :
    ∃ D n y esc l, Scan.scan ⟨D, .quoted n y esc⟩ (z ++ '"' :: (paramsText es ++ t)) = some l := by
  have hvalue := hd.quoted hquote
  rw [hsplit] at hvalue
  obtain ⟨esc, hx, -⟩ := @run_quotable [] d.name ['"'] x z hvalue
  have hall : Scan.run ⟨[], .value d.name []⟩ d.raw = some (Scan.after [] d) := run_after hd
  have hraw : d.raw = ['"'] ++ (x ++ (z ++ ['"'])) := by
    unfold Param.raw
    rw [quotes_quoted hquote, hsplit]
    simp
  rw [hraw, Scan.run_append, run_open, Option.bind_some, Scan.run_append, hx, Option.bind_some] at hall
  refine ⟨[], d.name, ['"'] ++ x, esc, [] ++ [d.pair] ++ es.map Param.pair, ?_⟩
  have htext : z ++ '"' :: (paramsText es ++ t) = (z ++ ['"']) ++ (paramsText es ++ t) := by simp
  rw [htext, Scan.scan_of_run hall, scan_params hes finish_after ht]

/-- A quote is not erased with the value before it. -/
theorem before_quote {val : Text} (hval : '"' ∉ val) (h : y ++ '"' :: t = val ++ u) :
    ∃ z, y = val ++ z ∧ u = z ++ '"' :: t := by
  rcases List.append_eq_append_iff.mp h with ⟨k, rfl, hk⟩ | ⟨k, hy, hu⟩
  · cases k with
    | nil => exact ⟨[], by simp, by simpa using hk.symm⟩
    | cons e k =>
      cases hk
      exact absurd (by simp) hval
  · exact ⟨k, hy, hu⟩

/-- Where a second charset parameter is erased, it has no quotes, and nothing of it is left but for the
value of the first one. -/
theorem canSet_duplicate {d : Param} {force : Bool} (h : v.Asks c as p (ds ++ d :: es))
    (hleft : p.quote = true → cutAt p.left = none) (hds : ∀ q ∈ ds, q.Plain) (hd : d.isCharset = true)
    (hset : v.IsSet c force) : CanSet v c := by
  obtain ⟨-, hp, hwf⟩ := h.wfs
  have hdwf := hwf d (by simp)
  have hdswf : ∀ q ∈ ds, q.Wf := fun q hq => hwf q (by simp [hq])
  have heswf : ∀ q ∈ es, q.Wf := fun q hq => hwf q (by simp [hq])
  have hend := params_head heswf (head_seps h.wf.tail)
  have hseps := seps_dropLast hdwf
  obtain ⟨hname, X, hscan⟩ := scan_of_set h (erased_duplicate hp hwf hleft hds hd v.tail) hset
  rw [others_charset (fun q hq => (hds q hq).other) hd] at hscan
  obtain ⟨D, q, hrun, hlast⟩ := run_last as hp h.name hdswf
  have hbehind : (Scan.after D q).scan (d.lead.dropLast ++
      (valuescanX (d.raw ++ (paramsText es ++ v.tail)) 32).2) =
        some (as.map Param.pair ++ (p.name, X) :: (ds.map Param.pair ++ others (es.map Param.pair))) := by
    rw [named_text, ← List.append_assoc, Scan.scan_of_run hrun] at hscan
    exact hscan
  -- The value of another parameter would be longer.
  have hlonger : ∀ {u : Text} {init : List Param}, ds = init ++ [q] → D.length = as.length + (init.length + 1) →
      q.quote = false → (∀ e ∈ u.head?, isSep e = false) → u ≠ [] → (Scan.after D q).scan u =
        some (as.map Param.pair ++ (p.name, X) :: (ds.map Param.pair ++ others (es.map Param.pair))) → False := by
    intro u init hinit hD hq hu hne hscan
    refine @value_longer u q D (as.map Param.pair ++ (p.name, X) :: init.map Param.pair)
      (others (es.map Param.pair)) hq hu hne (by simp [hD]) ?_
    rw [hscan, hinit]
    simp
  by_cases hquote : d.quote = true
  · exfalso
    have hraw : d.raw ++ (paramsText es ++ v.tail) = '"' :: (d.value ++ '"' :: (paramsText es ++ v.tail)) := by
      unfold Param.raw
      rw [quotes_quoted hquote]
      simp
    rw [hraw] at hbehind
    obtain ⟨val, hval, hno, -⟩ := valuescan_quoted (d.value ++ '"' :: (paramsText es ++ v.tail))
    obtain ⟨z, hz, hu⟩ := before_quote hno hval
    obtain ⟨D', n, y, esc, l', hin⟩ := quoted_rest hdwf hquote hz heswf h.wf.tail
    rw [← hu] at hin
    obtain ⟨hnil, hq, hempty, hhead⟩ := after_quote hseps hbehind hin
    rw [hnil, List.nil_append] at hbehind
    rcases hlast with ⟨-, rfl, -⟩ | ⟨init, hinit, hD⟩
    · exact h.name.nonempty (List.append_eq_nil_iff.mp hempty).1
    · refine hlonger hinit hD hq (fun e he => ?_) (fun hnil => by rw [hnil] at hhead; cases hhead) hbehind
      rw [hhead] at he
      cases he
      rfl
  · rw [Bool.not_eq_true] at hquote
    have hvalue := hdwf.bare hquote
    rw [raw_bare hquote, valuescan_token hvalue hend] at hbehind
    by_cases hshort : d.value.length ≤ 31
    · refine .duplicate h.first h.begins hleft hds hd hquote hshort (@no_charset_of_others (es.map Param.pair) es ?_)
      have hall := @scan_at_value v.tail as ds es p _ d.lead.dropLast (wf_left hp h.name) hdswf hseps heswf h.wf.tail
      rw [List.append_assoc, named_text, ← List.append_assoc, Scan.scan_of_run hrun] at hall
      rw [List.drop_eq_nil_of_le hshort, List.nil_append, hall, Option.some.injEq,
        List.append_cancel_left_eq, List.cons.injEq, List.append_cancel_left_eq] at hbehind
      exact hbehind.2
    · have hne : d.value.drop 31 ≠ [] := by
        intro hnil
        have hlen := congrArg List.length hnil
        rw [List.length_drop, List.length_nil] at hlen
        omega
      have htok : ∀ e ∈ d.value.drop 31, isToken e = true := fun e he => hvalue e (List.mem_of_mem_drop he)
      obtain ⟨hnil, hq⟩ := after_token hseps htok hne hend hbehind
      rw [hnil, List.nil_append] at hbehind
      rcases hlast with ⟨rfl, rfl, -⟩ | ⟨init, hinit, hD⟩
      · have hlead : d.lead = [';'] := by
          have hsemi := hdwf.semi
          rcases List.eq_nil_or_concat d.lead with hlead | ⟨k, e, hlead⟩
          · rw [hlead] at hsemi
            cases hsemi
          · rw [hlead, List.concat_eq_append, List.dropLast_concat] at hnil
            rw [hlead, hnil] at hsemi ⊢
            rw [List.mem_singleton.mp hsemi]
            rfl
        have hp' : p.quote = false := hq
        rw [raw_bare hquote, valuescan_token hvalue hend, hnil, quotes_bare hp'] at hname
        have hall := @scan_at_value v.tail as [] es p _ [] (wf_longer hp h.name hp' htok) (by simp) (by simp)
          heswf h.wf.tail
        rw [raw_bare hquote, valuescan_token hvalue hend, hnil, quotes_bare hp'] at hscan
        rw [quotes_bare hp'] at hall
        simp only [List.nil_append, paramsText_nil, List.append_assoc, List.map_nil] at hname hscan hall
        refine .overlong h.first h.begins hp' hd hquote (by omega) hlead ?_ (@no_charset_of_others (es.map Param.pair) es ?_)
        · rwa [← List.append_assoc, charset_namelen_append fun e he => isNameChar_of_sep (hend e he)] at hname
        · rw [hall, Option.some.injEq, List.append_cancel_left_eq, List.cons.injEq] at hscan
          exact hscan.2
      · refine (hlonger hinit hD hq (fun e he => ?_) (by simp [hne]) hbehind).elim
        rw [List.head?_append_of_ne_nil _ hne] at he
        exact isSep_of_token (htok e (List.mem_of_mem_head? he))

/-! ## In a quoted value -/

theorem quoted_pairs (h : Scan.scan ⟨D, .quoted n y esc⟩ t = some l) :
    ∃ x m, l = D ++ (n, y ++ x) :: m ∧ ∃ k, t = x ++ k := by
  obtain ⟨x, k, rfl, -, hclosed⟩ := scan_quoted h
  obtain ⟨m, rfl⟩ := scan_pairs hclosed
  exact ⟨x, m, by simp, k, rfl⟩

theorem run_outside {s s' : Scan} (h : s.run t = some s') (hs : s.mode.outside) (ht : '"' ∉ t) :
    s'.mode.outside := by
  induction t generalizing s with
  | nil =>
    cases h
    exact hs
  | cons e t ih =>
    rw [List.mem_cons, not_or] at ht
    obtain ⟨s1, hstep, hrun⟩ := Option.bind_eq_some_iff.mp h
    exact ih hrun (step_outside hstep hs (Ne.symm ht.1)).1 ht.2

/-- Behind a text that was erased in a quoted value, the rest of the value is read to its quote; or the value
ended with that text, and its quote and what is before the next one are lost. -/
theorem erased_quoted {a : Text} (ha : quotable (a ++ y) = true) (hy : y.head? ≠ some '"')
    (hes : ∀ q ∈ es, q.Wf) (ht : ∀ e ∈ t, isSep e = true)
    (h : Scan.scan ⟨D, .quoted n w esc⟩ (valuescanX (y ++ '"' :: (paramsText es ++ t)) 32).2 = some l) :
    (y ≠ [] ∧ Scan.run ⟨D, .quoted n w esc⟩ (valuescanX y 32).2 =
        some ⟨D, .quoted n (w ++ (valuescanX y 32).2) false⟩) ∨
      (y = [] ∧ esc = true ∧ ∃ val u, paramsText es ++ t = val ++ '"' :: u ∧
        (valuescanX (y ++ '"' :: (paramsText es ++ t)) 32).2 = '"' :: u ∧ '"' ∉ val ∧ val.length ≤ 31) := by
  have hrest : ∀ D'', ∃ l', Scan.scan ⟨D'', .closed⟩ (paramsText es ++ t) = some l' := fun D'' =>
    ⟨_, scan_params hes rfl ht⟩
  by_cases hnil : y = []
  · right
    subst hnil
    obtain ⟨val, hval, hno, hlen⟩ := valuescan_quoted (paramsText es ++ t)
    rw [List.nil_append] at h ⊢
    generalize (valuescanX ('"' :: (paramsText es ++ t)) 32).2 = u at h hval ⊢
    obtain ⟨l', hl'⟩ := hrest []
    rw [hval, Scan.scan_append] at hl'
    obtain ⟨s, hrun, hscan⟩ := Option.bind_eq_some_iff.mp hl'
    have hboth : esc = true ∧ u.head? = some '"' := by
      by_contra hnot
      exact not_both (run_outside hrun trivial hno) (fun k _ hesc hhead => hnot ⟨hesc, hhead⟩) hscan h
    obtain ⟨hesc, hhead⟩ := hboth
    cases u with
    | nil => cases hhead
    | cons e u =>
      cases hhead
      exact ⟨rfl, hesc, val, u, hval, rfl, hno, hlen⟩
  · left
    refine ⟨hnil, ?_⟩
    rw [valuescan_inside hy hnil] at h
    obtain ⟨val, hval⟩ := valuescan_split hy
    generalize (valuescanX y 32).2 = z at h hval ⊢
    rw [hval, ← List.append_assoc] at ha
    obtain ⟨e, hbegin, -⟩ := @run_quotable [] [] [] (a ++ val) z ha
    rw [← List.append_nil (a ++ val ++ z)] at ha
    obtain ⟨e', hall, he'⟩ := @run_quotable [] [] [] (a ++ val ++ z) [] ha
    rw [he' rfl, Scan.run_append, hbegin, Option.bind_some] at hall
    exact quoted_same h hall hrest

/-- No charset is set where a text is erased in a quoted value of another parameter. -/
theorem not_set_quoted {force : Bool} (h : v.Asks c as p (ds ++ q :: es))
    (hleft : p.quote = true → cutAt p.left = none) (hds : ∀ q ∈ ds, q.Plain) (hq : q.isCharset = false)
    (hquote : q.quote = true) (hcut : cutAt q.value = some (b, y))
    (hfound : cutAt (paramsText (ds ++ q :: es) ++ v.tail) =
      some (paramsText ds ++ (q.lead ++ (q.name ++ '=' :: '"' :: b)), y ++ '"' :: (paramsText es ++ v.tail))) :
    ¬v.IsSet c force := by
  intro hset
  obtain ⟨-, hp, hwf⟩ := h.wfs
  have hqwf := hwf q (by simp)
  have hdswf : ∀ x ∈ ds, x.Wf := fun x hx => hwf x (by simp [hx])
  have heswf : ∀ x ∈ es, x.Wf := fun x hx => hwf x (by simp [hx])
  obtain ⟨e, w, hvalue, he, hw⟩ := cutAt_kept hcut
  have hquotable := hqwf.quoted hquote
  rw [hvalue] at hquotable
  have hwhole : cutAt (p.left ++ (p.quotes ++ (paramsText (ds ++ q :: es) ++ v.tail))) =
      some (p.left ++ (p.quotes ++ (paramsText ds ++ (q.lead ++ (q.name ++ '=' :: '"' :: b)))),
        y ++ '"' :: (paramsText es ++ v.tail)) := by
    rw [cutAt_left hp hleft, hfound]
    rfl
  obtain ⟨-, X, hscan⟩ := scan_of_set h (erased_some hwhole) hset
  have hothers : others ((ds ++ q :: es).map Param.pair) =
      ds.map Param.pair ++ q.pair :: others (es.map Param.pair) := by
    rw [List.map_append, others_append, others_plain fun x hx => (hds x hx).other, List.map_cons]
    unfold others
    rw [List.filter_cons_of_pos (by simp [show isCharset q.pair.1 = false from hq])]
  -- The scan is in the value again where the text was erased.
  obtain ⟨s, hrun, hready⟩ := run_params hdswf (@finish_after (as.map Param.pair) (p.named c))
  obtain ⟨esc, hinside, -⟩ := @run_quotable (as.map Param.pair ++ [(p.named c).pair] ++ ds.map Param.pair) q.name
    ['"'] b (e :: (w ++ y)) hquotable
  have hbehind : Scan.scan ⟨as.map Param.pair ++ [(p.named c).pair] ++ ds.map Param.pair,
      .quoted q.name (['"'] ++ b) esc⟩ (valuescanX (y ++ '"' :: (paramsText es ++ v.tail)) 32).2 =
        some (as.map Param.pair ++ (p.name, X) :: others ((ds ++ q :: es).map Param.pair)) := by
    rw [← hscan]
    have htext : p.quotes ++ (c ++ (p.left ++ (p.quotes ++ (paramsText ds ++ (q.lead ++ (q.name ++ '=' :: '"' ::
        b)))) ++ (valuescanX (y ++ '"' :: (paramsText es ++ v.tail)) 32).2)) =
        (p.named c).raw ++ (paramsText ds ++ ((q.lead ++ (q.name ++ ['='])) ++ (['"'] ++ (b ++
          (valuescanX (y ++ '"' :: (paramsText es ++ v.tail)) 32).2)))) := by
      rw [← named_text]
      simp
    rw [htext, Scan.scan_of_run (run_named hp h.name), Scan.scan_of_run hrun, Scan.scan_of_run (run_head hqwf hready),
      Scan.scan_of_run run_open, Scan.scan_of_run hinside]
  rw [hothers] at hbehind
  have hsplit : b ++ e :: (w ++ y) = (b ++ e :: w) ++ y := by simp
  rw [hsplit] at hquotable
  have hhead : y.head? ≠ some '"' := @behind_charset (b ++ [e]) y w hw (by simpa using hquotable)
  -- So the value is another one.
  have hsame : ∀ {Y m}, as.map Param.pair ++ (p.name, X) :: (ds.map Param.pair ++ q.pair ::
      others (es.map Param.pair)) = as.map Param.pair ++ [(p.named c).pair] ++ ds.map Param.pair ++
        (q.name, Y) :: m → '"' :: (b ++ e :: (w ++ (y ++ ['"']))) = Y := by
    intro Y m heq
    have hlists : (as.map Param.pair ++ (p.name, X) :: ds.map Param.pair) ++ q.pair :: others (es.map Param.pair) =
        as.map Param.pair ++ [(p.named c).pair] ++ ds.map Param.pair ++ (q.name, Y) :: m := by
      rw [← heq]
      simp
    obtain ⟨-, hpair⟩ := List.append_inj hlists (by simp)
    rw [← (Prod.mk.inj (List.cons.inj hpair).1).2]
    unfold Param.raw
    rw [quotes_quoted hquote, hvalue]
    simp
  rcases erased_quoted hquotable hhead heswf h.wf.tail hbehind with
    ⟨hne, hz⟩ | ⟨rfl, rfl, val, u, -, hu, -, -⟩
  · obtain ⟨val, hval⟩ := valuescan_split hhead
    rw [valuescan_inside hhead hne, Scan.scan_of_run hz, Scan.scan_cons] at hbehind
    obtain ⟨m, hm⟩ := scan_pairs (show Scan.scan ⟨_ ++ [(q.name, _)], .closed⟩ _ = some _ from hbehind)
    rw [List.append_assoc _ [(q.name, _)] m] at hm
    have hlen := congrArg List.length (hsame hm.symm)
    have hylen := congrArg List.length hval
    simp only [List.length_append, List.length_cons, List.length_nil] at hlen hylen
    omega
  · rw [hu, Scan.scan_cons] at hbehind
    obtain ⟨x, m, hm, -⟩ := quoted_pairs
      (show Scan.scan ⟨_, .quoted q.name (['"'] ++ b ++ ['"']) false⟩ u = some _ from hbehind)
    have heq := hsame hm
    rw [List.append_assoc, List.append_assoc, List.singleton_append, List.cons.injEq,
      List.append_cancel_left_eq, List.singleton_append, List.cons.injEq] at heq
    rcases he with rfl | hspace
    · cases heq.2.1
    · rw [heq.2.1] at hspace
      cases hspace

/-- The first quote is the one of the first quoted value. -/
theorem first_quote {val : Text} (hbs : ∀ q ∈ bs, q.Wf) (ht : ∀ e ∈ t, isSep e = true) (hval : '"' ∉ val)
    (h : paramsText bs ++ t = val ++ '"' :: u) :
    ∃ ds d es, bs = ds ++ d :: es ∧ (∀ q ∈ ds, q.quote = false) ∧ d.quote = true ∧
      val = paramsText ds ++ (d.lead ++ (d.name ++ ['='])) ∧
      u = d.value ++ '"' :: (paramsText es ++ t) := by
  induction bs generalizing val with
  | nil =>
    have hmem : '"' ∈ t := by
      rw [show t = val ++ '"' :: u from h]
      simp
    exact absurd rfl (ne_of_sep rfl (ht _ hmem))
  | cons q bs ih =>
    obtain ⟨hq, hbs⟩ := List.forall_mem_cons.mp hbs
    rw [paramsText_cons, List.append_assoc] at h
    by_cases hquote : q.quote = true
    · have hhead : '"' ∉ q.lead ++ (q.name ++ ['=']) := by
        simp [@Param.Wf.not_head q hq '"' rfl rfl]
      have htext : q.text ++ (paramsText bs ++ t) = (q.lead ++ (q.name ++ ['='])) ++
          '"' :: (q.value ++ '"' :: (paramsText bs ++ t)) := by
        rw [q.text_append, quotes_quoted hquote]
        simp
      rw [htext] at h
      obtain ⟨rfl, rfl⟩ := append_cons_inj hhead hval h
      exact ⟨[], q, bs, rfl, by simp, hquote, rfl, rfl⟩
    · rw [Bool.not_eq_true] at hquote
      have hno := @no_quote_bare [q] (by simpa using ⟨hq, hquote⟩)
      rw [paramsText_cons, paramsText_nil, List.append_nil] at hno
      obtain ⟨val', rfl, hrest⟩ := char_behind hno h
      rw [List.mem_append, not_or] at hval
      obtain ⟨ds, d, es, rfl, hds, hd, rfl, hu⟩ := ih hbs hval.2 hrest
      refine ⟨q :: ds, d, es, rfl, List.forall_mem_cons.mpr ⟨hquote, hds⟩, hd, ?_, hu⟩
      rw [paramsText_cons, List.append_assoc]

theorem charset_of_others {ps : List Param} (h : others (ps.map Param.pair) = []) :
    ∀ q ∈ ps, q.isCharset = true := by
  intro q hq
  unfold others at h
  rw [List.filter_eq_nil_iff] at h
  have hno := h q.pair (List.mem_map_of_mem hq)
  rwa [Bool.not_eq_true', Bool.not_eq_false] at hno

/-- Where a text is erased in the value of the charset, the quotes are around the rest of it, or the value goes
on to the next quotes. -/
theorem canSet_inside {force : Bool} (h : v.Asks c as p bs) (hq : p.quote = true)
    (hcut : cutAt p.left = some (b, y)) (hset : v.IsSet c force) : CanSet v c := by
  obtain ⟨-, hp, hwf⟩ := h.wfs
  obtain ⟨e, w, hleft, -, -⟩ := cutAt_kept hcut
  have hhead := left_head hp hq hcut
  have hquotable := p.left_quotable hp hq
  obtain ⟨hname, X, hscan⟩ := scan_of_set h (erased_some (cutAt_inside hp hq hcut _)) hset
  rw [hleft] at hquotable
  have hnamed : quotable ((c ++ b) ++ e :: (w ++ y)) = true := by
    rw [List.append_assoc, quotable_append h.name.chars]
    exact hquotable
  obtain ⟨esc, hinside, -⟩ := @run_quotable (as.map Param.pair) p.name ['"'] (c ++ b) _ hnamed
  have hopened := (run_opened hinside opened_nil).1
  have hbehind : Scan.scan ⟨as.map Param.pair, .quoted p.name (['"'] ++ (c ++ b)) esc⟩
      (valuescanX (y ++ '"' :: (paramsText bs ++ v.tail)) 32).2 =
        some (as.map Param.pair ++ (p.name, X) :: others (bs.map Param.pair)) := by
    have htext : p.quotes ++ (c ++ (b ++ (valuescanX (y ++ '"' :: (paramsText bs ++ v.tail)) 32).2)) =
        ['"'] ++ ((c ++ b) ++ (valuescanX (y ++ '"' :: (paramsText bs ++ v.tail)) 32).2) := by
      rw [quotes_quoted hq, List.append_assoc c b]
    rw [← hscan, htext, Scan.at, Scan.scan_of_run run_open, Scan.scan_of_run hinside]
  have hsplit : b ++ e :: (w ++ y) = (b ++ e :: w) ++ y := by simp
  rw [hsplit] at hquotable
  -- What is read with the value that is left.
  have hread : ∀ {r es}, quotable r = true → (∀ q ∈ es, q.Wf) →
      (Scan.at as p).scan (p.quotes ++ (c ++ (r ++ '"' :: (paramsText es ++ v.tail)))) =
        some (as.map Param.pair ++ (p.name, X) :: others (bs.map Param.pair)) →
      es.map Param.pair = others (bs.map Param.pair) := by
    intro r es hr hes hsame
    have hX : Param.Wf { p with value := c ++ r } := wf_named hp h.name (by rw [if_pos hq]; exact hr)
    have hall := @scan_at_value v.tail as [] es p _ [] hX (by simp) (by simp) hes h.wf.tail
    rw [quotes_quoted hq] at hall hsame
    simp only [paramsText_nil, List.nil_append, List.append_assoc, List.singleton_append, List.map_nil] at hall hsame
    rw [hall, Option.some.injEq, List.append_cancel_left_eq, List.cons.injEq] at hsame
    exact hsame.2
  rcases erased_quoted hquotable hhead hwf h.wf.tail hbehind with
    ⟨hne, hz⟩ | ⟨rfl, rfl, val, u, hval, hu, hno, hshort⟩
  · rw [valuescan_inside hhead hne] at hscan hname
    have hr : quotable (b ++ (valuescanX y 32).2) = true := by
      have hrun : Scan.run ⟨as.map Param.pair, .quoted p.name ['"'] false⟩ ((c ++ b) ++ (valuescanX y 32).2) =
          some ⟨as.map Param.pair, .quoted p.name (['"'] ++ (c ++ b) ++ (valuescanX y 32).2) false⟩ := by
        rw [Scan.run_append, hinside, Option.bind_some, hz]
      have hall := quotable_of_run hrun
      rwa [List.append_assoc, quotable_append h.name.chars] at hall
    refine .inside h.first h.begins hq hcut hne hr ?_ (no_charset_of_others (hread hr hwf ?_))
    · rwa [← List.append_assoc, charset_namelen_append fun x hx => by cases hx; rfl] at hname
    · rw [← hscan, List.append_assoc]
  · obtain ⟨ds, d, es, rfl, hds, hd, rfl, rfl⟩ := first_quote hwf h.wf.tail hno hval
    have hopen : ∀ t, quotable (b ++ '"' :: t) = quotable t := by
      intro t
      have hgo : quotable (([] ++ (c ++ b)) ++ '"' :: t) = quotable t := hopened '"' t
      rwa [List.nil_append, List.append_assoc, quotable_append h.name.chars] at hgo
    have hdwf := hwf d (by simp)
    have heswf : ∀ q ∈ es, q.Wf := fun q hq => hwf q (by simp [hq])
    have hdvalue := hdwf.quoted hd
    have hpairs : es.map Param.pair = others ((ds ++ d :: es).map Param.pair) := by
      refine @hread (b ++ '"' :: d.value) es (by rw [hopen]; exact hdvalue) heswf ?_
      rw [hu] at hscan
      rw [← hscan]
      simp
    have hes := no_charset_of_others hpairs
    have hjoin : ds ++ d :: es = (ds ++ [d]) ++ es := by simp
    rw [hjoin, List.map_append, others_append, others_plain hes] at hpairs
    have hnil : others ((ds ++ [d]).map Param.pair) = [] := List.append_left_eq_self.mp hpairs.symm
    have hcharset := charset_of_others hnil
    exact .swallowed h.first h.begins hq hcut (by rw [hopen]; rfl)
      (fun q hq => ⟨hcharset q (by simp [hq]), hds q hq⟩) (hcharset d (by simp)) hd hshort hes

/-! ## In another parameter, and without a change -/

theorem begins_self (c t : Text) : strncaseeq (c ++ t) c c.length = true := by
  unfold strncaseeq
  rw [List.take_left, List.take_length]
  exact beq_self_eq_true _

theorem begins_of_prefix {X : Text} (hc : CharsetName c) (ht : ∀ e ∈ t.head?, isNameChar e = false)
    (h : u ++ t = c ++ X) : strncaseeq u c c.length = true := by
  have hall := begins_self c X
  rwa [← h, strncaseeq_stop fun e he => hc.stop (ht e he)] at hall

/-- The scan of the text, where another parameter has the first `charset=`. -/
theorem value_of_set {k : Text} (hv : v.Wf) (hsplit : v.params = as ++ p :: bs) (hp : p.isCharset = false)
    (hset : ∃ v', v.Sets c (v.media ++ (paramsText as ++ (p.lead ++ (p.name ++ '=' :: k)))) v') :
    ∃ m, (Scan.at as p).scan k = some m ∧ ∀ {X l'}, m = as.map Param.pair ++ (p.name, X) :: l' → X = p.raw := by
  obtain ⟨has, hpwf, -⟩ := hv.split hsplit
  obtain ⟨-, m, hscan, hothers, -⟩ := (sets_iff hv).mp hset
  rw [scan_at has hpwf] at hscan
  refine ⟨m, hscan, ?_⟩
  rintro X l' rfl
  have hcons : ∀ {Y l'}, others ((p.name, Y) :: l') = (p.name, Y) :: others l' := by
    intro Y l'
    unfold others
    rw [List.filter_cons_of_pos (by simp [show isCharset p.name = false from hp])]
  unfold CType.others at hothers
  rw [hsplit, List.map_append, others_append, others_append, List.append_cancel_left_eq, List.map_cons, hcons,
    show p.pair = (p.name, p.raw) from rfl, hcons] at hothers
  exact (Prod.mk.inj (List.cons.inj hothers).1).2

/-- No charset is set in a name that `charset` is the end of. -/
theorem not_set_name {k : Text} {force : Bool} (hv : v.Wf) (hc : CharsetName c)
    (hlen : v.text.length < MAX_MIMEHEAD) (hsplit : v.params = as ++ p :: bs) (hname : p.name = n ++ k)
    (hk : isCharset k = true) (hn : n ≠ [])
    (hx : strcasestr (v.media ++ (paramsText as ++ (p.lead ++ n))) charsetPat = false)
    (hbegins : p.begins c = false) : ¬v.IsSet c force := by
  rintro ⟨out, v', hout, hset⟩
  obtain ⟨-, hpwf, -⟩ := hv.split hsplit
  have hp : p.isCharset = false := by
    rw [Bool.eq_false_iff]
    intro hcharset
    have hlong := length_of_strcaseeq hcharset
    have hshort := length_of_strcaseeq hk
    rw [hname, List.length_append, hshort] at hlong
    exact hn (List.eq_nil_of_length_eq_zero (by omega))
  rw [replace_value force hv hc hlen hsplit hname hk hx, hbegins, if_neg Bool.false_ne_true,
    Option.some.injEq] at hout
  subst hout
  obtain ⟨m, hscan, hraw⟩ := value_of_set hv hsplit hp ⟨v', hset⟩
  have hvalue : ∃ X, p.raw = p.quotes ++ (c ++ X) := by
    have hnames : ∀ d ∈ c, isToken d = true := fun d hd => (isToken_of_nameChar (hc.chars d hd)).1
    rcases p.quotes_cases with hq | hq
    · rw [hq, List.nil_append] at hscan
      have hrun : (Scan.at as p).run c = some ⟨as.map Param.pair, .value p.name ([] ++ c)⟩ := run_value hnames
      rw [Scan.scan_of_run hrun] at hscan
      obtain ⟨X, l', rfl, -⟩ := scan_value hscan
      exact ⟨X, by rw [← hraw rfl, hq]; rfl⟩
    · rw [hq, List.singleton_append, Scan.scan_cons] at hscan
      have hquotable : quotable (c ++ []) = true := by
        rw [quotable_append hc.chars]
        rfl
      obtain ⟨esc, hrun, -⟩ := @run_quotable (as.map Param.pair) p.name ['"'] c [] hquotable
      have hinside : Scan.scan ⟨as.map Param.pair, .quoted p.name ['"'] false⟩ _ = some m := hscan
      rw [Scan.scan_of_run hrun] at hinside
      obtain ⟨X, l', rfl, -⟩ := quoted_pairs hinside
      exact ⟨X, by rw [← hraw rfl, hq]; rfl⟩
  obtain ⟨X, hX⟩ := hvalue
  unfold Param.raw at hX
  rw [List.append_assoc, List.append_cancel_left_eq] at hX
  have hstop : ∀ e ∈ p.quotes.head?, isNameChar e = false := by
    have hhead := @quotes_head [] p (fun e he => by cases he)
    rwa [List.append_nil] at hhead
  have hbegin := begins_of_prefix hc hstop hX
  unfold Param.begins at hbegins
  rw [hbegin] at hbegins
  cases hbegins

theorem quoteAt_split (r : Text) : ∃ csp, r = quoteAt r ++ csp := by
  unfold quoteAt
  split
  · rename_i hhead
    cases r with
    | nil => cases hhead
    | cons d r =>
      cases hhead
      exact ⟨r, rfl⟩
  · exact ⟨r, rfl⟩

/-- No charset is set in a quoted value of another parameter, or behind its quote. -/
theorem not_set_value {k z x : Text} {force : Bool} (hv : v.Wf) (hc : CharsetName c)
    (hsplit : v.params = as ++ p :: bs) (hp : p.isCharset = false) (hq : p.quote = true)
    (hvalue : p.value = b ++ (k ++ z)) (hk : strcaseeq k charsetPat = true)
    (hx : x = v.media ++ (paramsText as ++ (p.lead ++ (p.name ++ '=' :: '"' :: b))))
    (hno : strcasestr x charsetPat = false) (hsame : replace_charset_value v.text c force ≠ some v.text) :
    ¬v.IsSet c force := by
  rintro ⟨out, v', hout, hset⟩
  obtain ⟨-, hpwf, -⟩ := hv.split hsplit
  have htext : v.text = x ++ (k ++ (z ++ '"' :: (paramsText bs ++ v.tail))) := by
    rw [CType.text_at hsplit, hx, quotes_quoted hq, hvalue]
    simp
  have hquotable := hpwf.quoted hq
  obtain ⟨csp, hcsp⟩ := quoteAt_split (z ++ '"' :: (paramsText bs ++ v.tail))
  have hreplace := @replace_at x k (quoteAt (z ++ '"' :: (paramsText bs ++ v.tail))) csp c force hc hno hk
    (by rw [← hcsp])
  rw [← hcsp, ← htext] at hreplace
  by_cases hbegins : strncaseeq csp c c.length = true
  · rw [if_pos hbegins] at hreplace
    exact hsame hreplace
  rw [if_neg hbegins] at hreplace
  split_ifs at hreplace
  · rw [hreplace] at hout
    cases hout
  rw [hreplace, Option.some.injEq] at hout
  subst hout
  generalize (erase_charset_param (csp.drop (charset_namelen csp))).getD (csp.drop (charset_namelen csp)) = E at hset
  have hplace : ∀ r, x ++ (k ++ r) =
      v.media ++ (paramsText as ++ (p.lead ++ (p.name ++ '=' :: ('"' :: (b ++ (k ++ r)))))) := by
    intro r
    rw [hx]
    simp
  rw [hplace] at hset
  obtain ⟨m, hscan, hraw⟩ := value_of_set hv hsplit hp ⟨v', hset⟩
  by_cases hz : z = []
  · -- The name is behind the quote at the end of the value.
    subst hz
    have hend : '"' :: (b ++ (k ++ (quoteAt ([] ++ '"' :: (paramsText bs ++ v.tail)) ++ (c ++ E)))) =
        p.raw ++ (c ++ E) := by
      unfold Param.raw
      rw [quotes_quoted hq, hvalue, show quoteAt ([] ++ '"' :: (paramsText bs ++ v.tail)) = ['"'] from rfl]
      simp
    rw [hend, Scan.scan_of_run (show (Scan.at as p).run p.raw = _ from run_after hpwf)] at hscan
    obtain ⟨d, c', rfl⟩ := List.exists_cons_of_ne_nil hc.nonempty
    have hsep := isSep_of_token (isToken_of_nameChar (hc.chars d List.mem_cons_self)).1
    unfold Scan.after at hscan
    rw [if_pos hq, List.cons_append, Scan.scan_cons] at hscan
    unfold Scan.step at hscan
    simp only [hsep, Bool.false_eq_true, if_false] at hscan
    cases hscan
  · -- The value that is read begins with the name where the other one did.
    rw [hvalue] at hquotable
    have hhead := behind_charset hk hquotable
    have hone : quoteAt (z ++ '"' :: (paramsText bs ++ v.tail)) = [] := by
      unfold quoteAt
      rw [if_neg]
      rwa [List.head?_append_of_ne_nil _ hz]
    rw [hone, List.nil_append] at hcsp hscan
    rw [← List.append_assoc] at hquotable
    obtain ⟨esc, hrun, -⟩ := @run_quotable (as.map Param.pair) p.name ['"'] (b ++ k) z hquotable
    rw [Scan.scan_cons, ← List.append_assoc] at hscan
    have hinside : Scan.scan ⟨as.map Param.pair, .quoted p.name ['"'] false⟩ (b ++ k ++ (c ++ E)) = some m := hscan
    rw [Scan.scan_of_run hrun] at hinside
    obtain ⟨X, l', rfl, r, hr⟩ := quoted_pairs hinside
    have hX := hraw rfl
    unfold Param.raw at hX
    rw [quotes_quoted hq, hvalue] at hX
    have hXz : X = z ++ ['"'] := by simpa using hX
    rw [hXz, List.append_assoc, List.singleton_append] at hr
    have hquote : '"' ∉ c := fun hmem => (isToken_of_nameChar (hc.chars _ hmem)).2.1 rfl
    obtain ⟨z', rfl, -⟩ := before_quote hquote hr.symm
    refine hbegins ?_
    rw [← hcsp, List.append_assoc]
    exact begins_self c _

/-- A text that is not changed has the charset already. -/
theorem canSet_same (hv : v.Wf) (h : ∃ v', v.Sets c v.text v') : CanSet v c := by
  obtain ⟨hreads, l, hscan, -, hone⟩ := (@sets_iff v c (paramsText v.params ++ v.tail) hv).mp h
  rw [scan_start_params hv.params hv.tail, Option.some.injEq] at hscan
  subst hscan
  rw [countP_pairs] at hone
  exact .same hreads hone

/-- The charset is set where it can be, and nowhere else. -/
theorem set_iff (hv : v.Wf) (hc : CharsetName c) (hlen : v.text.length < MAX_MIMEHEAD) :
    v.IsSet c true ↔ CanSet v c := by
  refine ⟨fun hset => ?_, set_of_canSet hv hc hlen⟩
  by_cases hsame : replace_charset_value v.text c true = some v.text
  · obtain ⟨out, v', hout, h⟩ := hset
    rw [hsame, Option.some.injEq] at hout
    subst hout
    exact canSet_same hv ⟨v', h⟩
  cases hfind : strcasefind v.text charsetPat with
  | none => exact .missing (strcasefind_eq_none.mp hfind)
  | some found =>
    obtain ⟨x, y⟩ := found
    obtain ⟨hno, w, r, htext, -, hw⟩ := strcasefind_some hfind
    obtain ⟨as, p, bs, hsplit, hplace⟩ := charset_place hv htext hw
    obtain ⟨-, hp, hbs⟩ := hv.split hsplit
    rcases hplace with ⟨n, k, hname, hk, -, rfl, -⟩ | ⟨hq, b, z, hvalue, hx, -⟩
    · have hbegins : p.begins c = false := by
        rw [Bool.eq_false_iff]
        intro hbegins
        rw [replace_value true hv hc hlen hsplit hname hk hno, if_pos hbegins] at hsame
        exact hsame rfl
      by_cases hn : n = []
      · subst hn
        rw [List.append_nil] at hno
        have hfirst : v.First as p bs := ⟨hsplit, by unfold Param.isCharset; rw [hname]; exact hk, hno⟩
        have hasks : v.Asks c as p bs := ⟨hv, hc, hlen, hfirst, hbegins⟩
        cases hvalue : (if p.quote = true then cutAt p.left else none) with
        | some cut =>
          obtain ⟨hq, hvalue⟩ := Option.ite_none_right_eq_some.mp hvalue
          exact canSet_inside hasks hq hvalue hset
        | none =>
          have hleft : p.quote = true → cutAt p.left = none := fun hq => by rwa [if_pos hq] at hvalue
          have hfound := cutAt_params hbs hv.tail
          generalize hcut : cutAt (paramsText bs ++ v.tail) = cut at hfound
          cases hfound with
          | nothing hplain => exact .replaced hfirst hbegins hleft hplain
          | charset hparams hds hd =>
            subst hparams
            exact canSet_duplicate hasks hleft hds hd hset
          | quoted hparams hds hqcharset hquote hinside =>
            subst hparams
            exact absurd hset (not_set_quoted hasks hleft hds hqcharset hquote hinside hcut)
      · exact absurd hset (not_set_name hv hc hlen hsplit hname hk hn hno hbegins)
    · have hother : p.isCharset = false := by
        rw [Bool.eq_false_iff]
        intro hcharset
        have hin := @strcasestr_at (v.media ++ (paramsText as ++ p.lead)) _ (charset_equal hcharset) ('"' :: b)
        rw [hx] at hno
        have hjoin : v.media ++ (paramsText as ++ (p.lead ++ (p.name ++ '=' :: '"' :: b))) =
            v.media ++ (paramsText as ++ p.lead) ++ (p.name ++ ['='] ++ '"' :: b) := by simp
        rw [hjoin, hin] at hno
        cases hno
      exact absurd hset (not_set_value hv hc hsplit hother hq hvalue hw hx hno hsame)

end

end delegate.rfc822
