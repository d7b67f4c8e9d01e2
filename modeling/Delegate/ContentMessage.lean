-- The charset of a message (mimekit/rfc822.cpp): `replace_charset` looks for `charset=` from the value of the
-- field to the end of the message, and for a second one behind it.
import Delegate.ContentLost

open ctext segs

namespace delegate.rfc822

/-! ## The field -/

/-- The text of a field from its value on. -/
def HeadField.rest (f : HeadField) : Text := flat '\n' (f.value :: f.conts)

/-- Only the field is changed. -/
def OnlyField (m : Mail) (a : List HeadField) (f : HeadField) (b : List HeadField) (out : Text) : Prop :=
  ∃ f' : HeadField, f'.Wf ∧ f'.name = f.name ∧ out = Mail.text { m with fields := a ++ f' :: b }

/-- The text behind `charset=` and a quote. -/
def nameAt (y : Text) : Text :=
  (y.drop charsetPat.length).drop (quoteAt (y.drop charsetPat.length)).length

/-- The text behind the name of the charset. -/
def behindName (y : Text) : Text := (nameAt y).drop (charset_namelen (nameAt y))

/-- The texts are lines of a field, one behind the other: where the first one ends a line, the other one is
empty or begins with a blank, and else it has the end of the line. -/
def Joins (b u : Text) : Prop :=
  if b.getLast? = some '\n' then ∀ d ∈ u.head?, d = ' ' ∨ d = '\t' else u ≠ []

/-- From the value of the field on there is no `charset=`; or the first one has a name that begins with the
new one; or it is in the field, and behind its name there is no second charset behind a `;`, or the one that
is erased ends in the field too, and joins lines of it. -/
inductive KeepsRest (f : HeadField) (behind c : Text) : Prop
  | missing : strcasestr (f.rest ++ behind) charsetPat = false → KeepsRest f behind c
  | begins {x y : Text} : strcasefind (f.rest ++ behind) charsetPat = some (x, y) →
      strncaseeq (nameAt y) c c.length = true → KeepsRest f behind c
  | single {x y : Text} : strcasefind (f.rest ++ behind) charsetPat = some (x, y) →
      x.length < f.rest.length → cutAt (behindName y) = none → KeepsRest f behind c
  | double {x y b z u : Text} : strcasefind (f.rest ++ behind) charsetPat = some (x, y) →
      x.length < f.rest.length → cutAt (behindName y) = some (b, z) →
      (valuescanX z 32).2 = u ++ behind → Joins b u → KeepsRest f behind c

/-! ## Lines of a field -/

/-- Behind the end of a line stands a blank. -/
def Fold (c d : Char) : Prop := c = '\n' → d = ' ' ∨ d = '\t'

/-- Lines of a field: the last one ends, and each further one begins with a blank. -/
structure Folded (t : Text) : Prop where
  chain : t.IsChain Fold
  last : t.getLast? = some '\n'

section
variable {t u x y k n c : Text} {ls : List Text} {l : Text}

theorem chain_no_end (h : '\n' ∉ t) : t.IsChain Fold := by
  induction t with
  | nil => exact .nil
  | cons d t ih =>
    rw [List.mem_cons, not_or] at h
    refine List.isChain_cons.mpr ⟨fun e _ hd => absurd hd.symm h.1, ih h.2⟩

theorem no_end_last (h : '\n' ∉ t) : t.getLast? ≠ some '\n' := fun hlast =>
  h (List.mem_of_getLast? hlast)

theorem Folded.ne_nil (h : Folded t) : t ≠ [] := by
  rintro rfl
  cases h.last

theorem isCont_iff : isCont l = true ↔ ∃ d ∈ l.head?, d = ' ' ∨ d = '\t' := by
  unfold isCont
  cases l with
  | nil => simp
  | cons d l => simp

theorem Folded.append (ht : t.IsChain Fold) (hu : Folded u)
    (h : ∀ d ∈ t.getLast?, ∀ e ∈ u.head?, Fold d e) : Folded (t ++ u) :=
  ⟨List.isChain_append.mpr ⟨ht, hu.chain, h⟩, by rw [List.getLast?_append_of_ne_nil _ hu.ne_nil, hu.last]⟩

theorem folded_flat (hl : '\n' ∉ l) (hls : ∀ x ∈ ls, isCont x = true ∧ '\n' ∉ x) :
    Folded (flat '\n' (l :: ls)) := by
  have hend : ∀ {x : Text}, '\n' ∉ x → ∀ d ∈ x.getLast?, ∀ e, Fold d e := by
    rintro x hx d hd e rfl
    exact absurd hd (no_end_last hx)
  induction ls generalizing l with
  | nil =>
    rw [flat_cons]
    exact Folded.append (chain_no_end hl) ⟨.singleton _, rfl⟩ fun d hd e _ => hend hl d hd e
  | cons x ls ih =>
    obtain ⟨⟨hcont, hx⟩, hls⟩ := List.forall_mem_cons.mp hls
    have hrest := ih hx hls
    obtain ⟨d, hd, hblank⟩ := isCont_iff.mp hcont
    rw [flat_cons]
    refine Folded.append (chain_no_end hl) ?_ fun d hd e _ => hend hl d hd e
    refine @Folded.append ['\n'] _ (.singleton _) hrest fun e _ e' he' _ => ?_
    have hhead : e' ∈ (flat '\n' (x :: ls)).head? := he'
    rw [flat_cons, List.head?_append_of_ne_nil _ (by rintro rfl; cases hd)] at hhead
    rwa [Option.mem_unique hhead hd]

theorem Folded.lines (h : Folded t) :
    ∃ l ls, t = flat '\n' (l :: ls) ∧ '\n' ∉ l ∧ ∀ x ∈ ls, isCont x = true ∧ '\n' ∉ x := by
  obtain ⟨hchain, hlast⟩ := h
  induction t with
  | nil => cases hlast
  | cons d t ih =>
    obtain ⟨hhead, hchain⟩ := List.isChain_cons.mp hchain
    by_cases hnil : t = []
    · subst hnil
      cases hlast
      exact ⟨[], [], rfl, by simp, by simp⟩
    · obtain ⟨e, t', rfl⟩ := List.exists_cons_of_ne_nil hnil
      rw [List.getLast?_cons_cons] at hlast
      obtain ⟨l, ls, htext, hl, hls⟩ := ih hchain hlast
      by_cases hd : d = '\n'
      · refine ⟨[], l :: ls, by rw [htext, hd]; rfl, by simp, List.forall_mem_cons.mpr ⟨⟨?_, hl⟩, hls⟩⟩
        have hblank := hhead e rfl hd
        rw [isCont_iff]
        cases l with
        | nil =>
          rw [flat_cons, List.nil_append, List.cons.injEq] at htext
          rw [htext.1] at hblank
          simp at hblank
        | cons e' l =>
          rw [flat_cons, List.cons_append, List.cons.injEq] at htext
          exact ⟨e', rfl, htext.1 ▸ hblank⟩
      · exact ⟨d :: l, ls, by rw [htext]; simp, by simp [Ne.symm hd, hl], hls⟩

/-- Lines of a field are told from what is behind them, if no blank is there. -/
theorem Folded.unique (ht : Folded t) (hu : Folded u) (hx : ∃ d ∈ x.head?, ¬(d = ' ' ∨ d = '\t'))
    (hy : ∃ d ∈ y.head?, ¬(d = ' ' ∨ d = '\t')) (h : t ++ x = u ++ y) : t = u ∧ x = y := by
  have hone : ∀ {t u x y : Text}, Folded t → Folded u → (∃ d ∈ x.head?, ¬(d = ' ' ∨ d = '\t')) →
      ∀ k, u = t ++ k → x = k ++ y → k = [] := by
    rintro t u x y ht hu ⟨d, hd, hno⟩ k rfl rfl
    cases k with
    | nil => rfl
    | cons e k =>
      cases hd
      exact absurd ((List.isChain_append.mp hu.chain).2.2 _ ht.last _ rfl rfl) hno
  rcases List.append_eq_append_iff.mp h with ⟨k, hk, hxy⟩ | ⟨k, hk, hxy⟩
  · have hnil := hone ht hu hx k hk hxy
    subst hnil
    exact ⟨by simpa using hk.symm, by simpa using hxy⟩
  · have hnil := hone hu ht hy k hk hxy
    subst hnil
    exact ⟨by simpa using hk, by simpa using hxy.symm⟩

/-- A part of one line is replaced. -/
theorem Folded.replace (h : Folded (x ++ (k ++ t))) (hx : x.getLast? ≠ some '\n') (hn : '\n' ∉ n)
    (ht : t ≠ []) : Folded (x ++ (n ++ t)) := by
  obtain ⟨hchain, hlast⟩ := h
  obtain ⟨hxchain, hrest, -⟩ := List.isChain_append.mp hchain
  obtain ⟨-, htchain, -⟩ := List.isChain_append.mp hrest
  rw [← List.append_assoc, List.getLast?_append_of_ne_nil _ ht] at hlast
  refine Folded.append hxchain (Folded.append (chain_no_end hn) ⟨htchain, hlast⟩ ?_) ?_
  · rintro d hd e - rfl
    exact absurd hd (no_end_last hn)
  · rintro d hd e - rfl
    exact absurd hd hx

theorem folded_rest {f : HeadField} (hf : f.Wf) : Folded f.rest := folded_flat hf.value_end hf.conts

theorem rest_no_blank {f : HeadField} (hf : f.Wf) : f.rest.head? ≠ some ' ' := by
  unfold HeadField.rest
  rw [flat_cons]
  cases hv : f.value with
  | nil => simp
  | cons d v =>
    have hhead := hf.value_head
    rw [hv] at hhead
    exact hhead

/-- Behind a field stands no blank. -/
theorem behind_head {m : Mail} (hm : m.Wf) {b : List HeadField} (hb : ∀ x ∈ b, x.Wf) :
    ∃ d ∈ (m.behind b).head?, ¬(d = ' ' ∨ d = '\t') := by
  unfold Mail.behind
  cases b with
  | nil =>
    rcases hm.empty with h | h
    · exact ⟨'\n', by rw [h]; rfl, by simp⟩
    · exact ⟨'\r', by rw [h]; rfl, by simp⟩
  | cons g b =>
    have hg := (hb g List.mem_cons_self).name
    obtain ⟨d, name, hname⟩ := List.exists_cons_of_ne_nil hg.nonempty
    obtain ⟨-, hsp, htab, -⟩ := hg.chars d (by rw [hname]; exact List.mem_cons_self)
    refine ⟨d, ?_, by simp [hsp, htab]⟩
    rw [List.flatMap_cons, HeadField.lines, List.cons_append, flat_cons, HeadField.line, hname]
    rfl

theorem replicate_unique {d : Char} {i j : Nat} (hx : x.head? ≠ some d) (hy : y.head? ≠ some d)
    (h : List.replicate i d ++ x = List.replicate j d ++ y) : x = y := by
  induction i generalizing j with
  | zero =>
    cases j with
    | zero => exact h
    | succ j =>
      rw [List.replicate_zero, List.nil_append, List.replicate_succ] at h
      rw [h] at hx
      exact absurd rfl hx
  | succ i ih =>
    cases j with
    | zero =>
      rw [List.replicate_zero, List.nil_append, List.replicate_succ] at h
      rw [← h] at hy
      exact absurd rfl hy
    | succ j =>
      rw [List.replicate_succ, List.replicate_succ, List.cons_append, List.cons_append, List.cons.injEq] at h
      exact ih h.2

/-- The text of a message before the value of a field. -/
def beforeValue (a : List HeadField) (f : HeadField) : Text :=
  flat '\n' (a.flatMap HeadField.lines) ++ (f.name ++ (List.replicate f.before ' ' ++
    ':' :: List.replicate f.after ' '))

theorem text_value {m : Mail} {a b : List HeadField} {f : HeadField} (h : m.fields = a ++ f :: b) :
    m.text = beforeValue a f ++ (f.rest ++ m.behind b) := by
  rw [Mail.text_first h]
  unfold beforeValue HeadField.line HeadField.rest Mail.behind
  simp

/-- The field is the only one that is changed, if lines of it are before the text behind it. -/
theorem onlyField_iff {m : Mail} {a b : List HeadField} {f : HeadField} {V : Text} (hf : f.Wf)
    (hV : V.head? ≠ some ' ') :
    OnlyField m a f b (beforeValue a f ++ V) ↔ ∃ R, V = R ++ m.behind b ∧ Folded R := by
  constructor
  · rintro ⟨f', hf', hname, hout⟩
    refine ⟨f'.rest, ?_, folded_rest hf'⟩
    have hbehind : Mail.behind { m with fields := a ++ f' :: b } b = m.behind b := rfl
    rw [@text_value { m with fields := a ++ f' :: b } a b f' rfl, hbehind] at hout
    unfold beforeValue at hout
    rw [hname] at hout
    simp only [List.append_assoc, List.append_cancel_left_eq, List.cons_append] at hout
    have hcolon : ∀ i, ':' ∉ List.replicate i ' ' := fun i => by simp
    obtain ⟨-, hout⟩ := append_cons_inj (hcolon _) (hcolon _) hout
    refine replicate_unique hV ?_ hout
    rw [List.head?_append_of_ne_nil _ (folded_rest hf').ne_nil]
    exact rest_no_blank hf'
  · rintro ⟨R, rfl, hR⟩
    obtain ⟨l, ls, rfl, hl, hls⟩ := hR.lines
    have hhead : l.head? ≠ some ' ' := by
      rw [flat_cons] at hV
      cases l with
      | nil => simp
      | cons d l => exact hV
    refine ⟨{ f with value := l, conts := ls }, ⟨hf.name, hf.name_cr, hhead, hl, hls⟩, rfl, ?_⟩
    rw [@text_value { m with fields := a ++ { f with value := l, conts := ls } :: b } a b
      { f with value := l, conts := ls } rfl]
    rfl

/-! ## Setting the charset in a message -/

theorem contentType_name : FieldName contentType := ⟨by simp [contentType], by simp [contentType]⟩

/-- The text from the value of the field on is the one in which the charset is set. -/
theorem replace_charset_value_of {m : Mail} {a b : List HeadField} {f : HeadField} (ver c : Text) (hm : m.Wf)
    (hfields : m.fields = a ++ f :: b) (hno : ∀ x ∈ a, x.is contentType = false)
    (his : f.is contentType = true) :
    replace_charset ver m.text c =
      (replace_charset_value (f.rest ++ m.behind b) c false).map (beforeValue a f ++ ·) := by
  have hf := hm.fields f (by rw [hfields]; simp)
  have hrest : f.value ++ '\n' :: (flat '\n' f.conts ++ m.behind b) = f.rest ++ m.behind b := by
    unfold HeadField.rest
    rw [flat_cons, List.append_assoc, List.cons_append]
  have hfind : findFieldValue m.text contentType = some (f.rest ++ m.behind b) := by
    rw [Mail.text_first hfields,
      findFieldValue_first _ contentType_name (fun x hx => hm.fields x (by rw [hfields]; simp [hx])) hno hf his,
      ← hrest]
    rfl
  unfold replace_charset
  rw [hfind]
  dsimp only
  rw [text_value hfields, upto_append]

/-- The parts of a text around its first `charset=`. -/
theorem found_parts (h : strcasefind t charsetPat = some (x, y)) :
    ∃ w q, strcasestr x charsetPat = false ∧ strcaseeq w charsetPat = true ∧ (q = [] ∨ q = ['"']) ∧
      quoteAt (q ++ nameAt y) = q ∧ y = w ++ (q ++ nameAt y) ∧ t = x ++ y := by
  obtain ⟨hno, w, r, rfl, rfl, hw⟩ := strcasefind_some h
  obtain ⟨csp, hr⟩ := quoteAt_split r
  have hdrop : r.drop (quoteAt r).length = csp := by
    generalize quoteAt r = q at hr ⊢
    rw [hr, List.drop_left]
  have hname : nameAt (w ++ r) = csp := by
    unfold nameAt
    rw [(charset_at hw r).2, hdrop]
  refine ⟨w, quoteAt r, hno, hw, ?_, ?_, ?_, rfl⟩
  · unfold quoteAt
    split
    · exact .inr rfl
    · exact .inl rfl
  · rw [hname, ← hr]
  · rw [hname, ← hr]

/-- A part of a line that begins before the end of the field ends before it, too. -/
theorem in_field {F B : Text} (hF : Folded F) (hk : '\n' ∉ k) (h : F ++ B = x ++ (k ++ y))
    (hx : x.length < F.length) : ∃ T, T ≠ [] ∧ F = x ++ (k ++ T) ∧ y = T ++ B := by
  rcases List.append_eq_append_iff.mp h with ⟨j, rfl, -⟩ | ⟨j, rfl, hj⟩
  · rw [List.length_append] at hx
    omega
  · have hne : j ≠ [] := by
      rintro rfl
      rw [List.append_nil] at hx
      exact lt_irrefl _ hx
    have hlast := hF.last
    rw [List.getLast?_append_of_ne_nil _ hne] at hlast
    have hmem : '\n' ∈ j := List.mem_of_getLast? hlast
    rcases List.append_eq_append_iff.mp hj with ⟨T, rfl, hT⟩ | ⟨i, rfl, -⟩
    · refine ⟨T, ?_, rfl, hT⟩
      rintro rfl
      rw [List.append_nil] at hmem
      exact hk hmem
    · exact absurd (List.mem_append_left _ hmem) hk

/-- A text is erased in lines of a field: they are such lines where those before it and behind it join. -/
theorem erased_folded {P T S b B u0 : Text} (hF : Folded (P ++ (c ++ T))) (hc : c ≠ [] ∧ '\n' ∉ c)
    (hS : S ≠ []) (hB : ∃ d ∈ B.head?, ¬(d = ' ' ∨ d = '\t')) (h : T ++ B = b ++ (S ++ u0)) :
    (∃ R, P ++ (c ++ (b ++ u0)) = R ++ B ∧ Folded R) ↔ ∃ u, u0 = u ++ B ∧ Joins b u := by
  -- The last line before the text that was erased ends with `b`, or does not end.
  have hend : (P ++ (c ++ b)).getLast? = some '\n' ↔ b.getLast? = some '\n' := by
    by_cases hne : b = []
    · rw [hne, List.append_nil, List.getLast?_append_of_ne_nil _ hc.1]
      exact ⟨fun hlast => absurd hlast (no_end_last hc.2), fun hlast => by cases hlast⟩
    · rw [← List.append_assoc, List.getLast?_append_of_ne_nil _ hne]
  constructor
  · rintro ⟨R, hR, hfold⟩
    have hjoins : ∀ u, R = P ++ (c ++ b) ++ u → u0 = u ++ B → ∃ u, u0 = u ++ B ∧ Joins b u := by
      rintro u rfl hu
      refine ⟨u, hu, ?_⟩
      unfold Joins
      split_ifs with hlast
      · intro d hd
        exact (List.isChain_append.mp hfold.chain).2.2 '\n' (hend.mpr hlast) d hd rfl
      · rintro rfl
        have hRlast := hfold.last
        rw [List.append_nil] at hRlast
        exact hlast (hend.mp hRlast)
    have hR' : P ++ (c ++ b) ++ u0 = R ++ B := by
      rw [← hR]
      simp
    rcases List.append_eq_append_iff.mp hR' with ⟨u, hu, hu0⟩ | ⟨k, hk, rfl⟩
    · exact hjoins u hu hu0
    cases k with
    | nil => exact hjoins [] (by simpa using hk.symm) rfl
    | cons e k =>
      -- The text behind the field would begin with what is behind a line of it.
      exfalso
      obtain ⟨d, hd, hno⟩ := hB
      cases hd
      rw [← List.append_assoc, ← List.append_assoc b, List.append_cancel_right_eq] at h
      have hwhole : P ++ (c ++ T) ++ e :: k = R ++ (e :: k ++ S) := by
        rw [← List.append_assoc R, ← hk, List.append_assoc, List.append_assoc c, h]
        simp
      rcases List.append_eq_append_iff.mp hwhole with ⟨j, -, hj⟩ | ⟨j, hj, hjk⟩
      · have hlen := congrArg List.length hj
        rw [List.length_append, List.length_append] at hlen
        exact hS (List.eq_nil_of_length_eq_zero (by omega))
      · cases j with
        | nil =>
          have hlen := congrArg List.length hjk
          rw [List.nil_append, List.length_append] at hlen
          exact hS (List.eq_nil_of_length_eq_zero (by omega))
        | cons e' j =>
          rw [List.cons_append, List.cons_append, List.cons.injEq] at hjk
          rw [hj, ← hjk.1] at hF
          exact hno ((List.isChain_append.mp hF.chain).2.2 _ hfold.last _ rfl rfl)
  · rintro ⟨u, rfl, hjoins⟩
    refine ⟨P ++ (c ++ b) ++ u, by simp, ?_⟩
    rw [← List.append_assoc S, ← List.append_assoc b, List.append_cancel_right_eq] at h
    have hsplit : P ++ (c ++ T) = P ++ (c ++ b) ++ (S ++ u) := by
      rw [h]
      simp
    rw [hsplit] at hF
    obtain ⟨hbegin, hrest, -⟩ := List.isChain_append.mp hF.chain
    unfold Joins at hjoins
    by_cases hu : u = []
    · subst hu
      rw [List.append_nil]
      split_ifs at hjoins with hlast
      · exact ⟨hbegin, hend.mpr hlast⟩
      · exact absurd rfl hjoins
    · have hlast := hF.last
      rw [← List.append_assoc, List.getLast?_append_of_ne_nil _ hu] at hlast
      refine Folded.append hbegin ⟨(List.isChain_append.mp hrest).2.1, hlast⟩ ?_
      rintro d hd e he rfl
      rw [if_pos (hend.mp hd)] at hjoins
      exact hjoins e he

/-- Where there is no `charset=`, one is put in the first line of the field. -/
theorem missing_folded {F B : Text} (hF : Folded F) (hhead : F.head? ≠ some ' ') (hc : CharsetName c)
    (h : strcasestr (F ++ B) charsetPat = false) (hlen : (F ++ B).length < MAX_MIMEHEAD) :
    ∃ V, replace_charset_value (F ++ B) c false = some V ∧ V.head? ≠ some ' ' ∧
      ∃ R, V = R ++ B ∧ Folded R := by
  have hne : F.dropWhile beforePlace ≠ [] := by
    rw [ne_eq, List.dropWhile_eq_nil_iff]
    intro hall
    have hlast := hall '\n' (List.mem_of_getLast? hF.last)
    cases hlast
  have hcst : (F ++ B).dropWhile beforePlace = F.dropWhile beforePlace ++ B := by
    rw [List.dropWhile_append, if_neg (by simpa using hne)]
  have htake : (F ++ B).takeWhile beforePlace = F.takeWhile beforePlace := by
    have hall := @List.takeWhile_append_dropWhile _ beforePlace (F ++ B)
    rw [hcst, ← List.append_assoc, List.append_cancel_right_eq] at hall
    conv_rhs at hall => rw [← @List.takeWhile_append_dropWhile _ beforePlace F]
    exact List.append_cancel_right hall
  have hnew : '\n' ∉ newCharset c := by
    have hname : '\n' ∉ c := fun hmem => by cases hc.chars _ hmem
    simp [newCharset, charsetPat, hname]
  refine ⟨F.takeWhile beforePlace ++ (newCharset c ++ F.dropWhile beforePlace) ++ B, ?_, ?_, _, rfl, ?_⟩
  · rw [charset_missing hc hlen h (by simp [hcst, hne]), hcst, htake]
    simp
  · cases htake : F.takeWhile beforePlace with
    | nil => simp [newCharset]
    | cons d w =>
      have hF' : F = d :: (w ++ F.dropWhile beforePlace) := by
        rw [← List.cons_append, ← htake, List.takeWhile_append_dropWhile]
      rw [hF'] at hhead
      exact hhead
  · refine @Folded.replace (F.dropWhile beforePlace) (F.takeWhile beforePlace) [] (newCharset c) ?_ ?_ hnew hne
    · rw [List.nil_append, List.takeWhile_append_dropWhile]
      exact hF
    · intro hlast
      have hgo := List.mem_takeWhile_imp (List.mem_of_getLast? hlast)
      cases hgo

/-- What is written where `charset=` is found. -/
theorem replace_found {w q : Text} (force : Bool) (hc : CharsetName c) (hno : strcasestr x charsetPat = false)
    (hw : strcaseeq w charsetPat = true) (hq : quoteAt (q ++ nameAt y) = q) (hy : y = w ++ (q ++ nameAt y))
    (hlen : (x ++ y).length < MAX_MIMEHEAD) :
    replace_charset_value (x ++ y) c force =
      if strncaseeq (nameAt y) c c.length = true then some (x ++ y)
      else some (x ++ (w ++ (q ++ (c ++ erased (behindName y))))) := by
  have hreplace := @replace_at x w q (nameAt y) c force hc hno hw hq
  have hfits : ¬MAX_MIMEHEAD ≤ ((nameAt y).drop (charset_namelen (nameAt y))).length := by
    have hylen := congrArg List.length hy
    simp only [List.length_append] at hlen hylen
    rw [List.length_drop]
    omega
  rw [← hy] at hreplace
  rw [hreplace, if_neg hfits]
  rfl

/-- Where `charset=` is found and the name is another one, the field keeps its lines if that one is in it, and
the second one too. -/
theorem found_folded {F B w q : Text} (hF : Folded F) (hB : ∃ d ∈ B.head?, ¬(d = ' ' ∨ d = '\t'))
    (hc : CharsetName c) (hw : strcaseeq w charsetPat = true) (hq : q = [] ∨ q = ['"'])
    (hy : y = w ++ (q ++ nameAt y)) (h : F ++ B = x ++ y) (hbegins : ¬strncaseeq (nameAt y) c c.length = true) :
    (∃ R, x ++ (w ++ (q ++ (c ++ erased (behindName y)))) = R ++ B ∧ Folded R) ↔
      x.length < F.length ∧ ∀ b z, cutAt (behindName y) = some (b, z) →
        ∃ u, (valuescanX z 32).2 = u ++ B ∧ Joins b u := by
  have hname : '\n' ∉ c := fun hmem => by cases hc.chars _ hmem
  have hold : '\n' ∉ (nameAt y).take (charset_namelen (nameAt y)) := fun hmem => by
    cases take_namelen _ _ hmem
  obtain ⟨k, rfl, -, hletters⟩ := charset_letters hw
  have hquote : '\n' ∉ k ++ ['='] ++ q := by
    rcases hq with rfl | rfl <;> simp [hletters '\n' rfl]
  have hlast : (x ++ (k ++ ['='] ++ q)).getLast? ≠ some '\n' := by
    rw [List.getLast?_append_of_ne_nil _ (by simp)]
    exact no_end_last hquote
  have htext : x ++ y = x ++ ((k ++ ['='] ++ q) ++ (nameAt y).take (charset_namelen (nameAt y)) ++ behindName y) := by
    conv_lhs => rw [hy]
    unfold behindName
    simp
  by_cases hx : x.length < F.length
  · rw [htext] at h
    have hpart : '\n' ∉ (k ++ ['='] ++ q) ++ (nameAt y).take (charset_namelen (nameAt y)) := by
      rw [List.mem_append, not_or]
      exact ⟨hquote, hold⟩
    obtain ⟨T, hT, hFT, hbehind⟩ := in_field hF hpart h hx
    have hnew : Folded (x ++ (k ++ ['='] ++ q) ++ (c ++ T)) := by
      refine @Folded.replace T (x ++ (k ++ ['='] ++ q)) ((nameAt y).take (charset_namelen (nameAt y))) c ?_
        hlast hname hT
      rw [hFT] at hF
      simpa using hF
    rw [and_iff_right hx]
    cases hcut : cutAt (behindName y) with
    | none =>
      rw [erased_none hcut]
      refine ⟨fun _ b z hcut => (by cases hcut), fun _ => ⟨_, ?_, hnew⟩⟩
      rw [hbehind]
      simp
    | some cut =>
      obtain ⟨b, z⟩ := cut
      obtain ⟨e, w', hkept, -, hw'⟩ := cutAt_kept hcut
      obtain ⟨val, hval⟩ : ∃ val, z = val ++ (valuescanX z 32).2 := by
        by_cases hhead : z.head? = some '"'
        · cases z with
          | nil => cases hhead
          | cons d z =>
            cases hhead
            obtain ⟨val, hval, -, -⟩ := valuescan_quoted z
            exact ⟨'"' :: val, by rw [List.cons_append, ← hval]⟩
        · exact valuescan_split hhead
      have hsplit : T ++ B = b ++ ((e :: (w' ++ val)) ++ (valuescanX z 32).2) := by
        rw [← hbehind, hkept]
        conv_lhs => rw [hval]
        simp
      have hiff := erased_folded hnew ⟨hc.nonempty, hname⟩ (List.cons_ne_nil _ _) hB hsplit
      rw [erased_some hcut]
      have hassoc : x ++ (k ++ ['='] ++ (q ++ (c ++ (b ++ (valuescanX z 32).2)))) =
          x ++ (k ++ ['='] ++ q) ++ (c ++ (b ++ (valuescanX z 32).2)) := by simp
      rw [show (b, z).1 ++ (valuescanX (b, z).2 32).2 = b ++ (valuescanX z 32).2 from rfl, hassoc, hiff]
      refine ⟨fun hgo b' z' heq => ?_, fun hgo => hgo b z rfl⟩
      cases heq
      exact hgo
  · rw [iff_false_right (by rintro ⟨hgo, -⟩; exact hx hgo)]
    rintro ⟨R, hR, hfold⟩
    -- The name is behind the field.
    obtain ⟨j, rfl⟩ : ∃ j, x = F ++ j := by
      rcases List.append_eq_append_iff.mp h with ⟨j, hj, -⟩ | ⟨j, hj, -⟩
      · exact ⟨j, hj⟩
      · have hlen := congrArg List.length hj
        rw [List.length_append] at hlen
        exact ⟨[], by rw [hj, List.eq_nil_of_length_eq_zero (show j.length = 0 by omega)]; simp⟩
    rw [List.append_assoc, List.append_cancel_left_eq] at h
    have hhead : ∃ d ∈ (j ++ (k ++ ['='] ++ (q ++ (c ++ erased (behindName y))))).head?,
        ¬(d = ' ' ∨ d = '\t') := by
      obtain ⟨d, hd, hno⟩ := hB
      refine ⟨d, ?_, hno⟩
      have hbegin : B.head? = (j ++ (k ++ ['='])).head? := by
        rw [h]
        conv_lhs => rw [hy]
        rw [← List.append_assoc j, List.head?_append_of_ne_nil _ (by simp)]
      rw [← List.append_assoc j, List.head?_append_of_ne_nil _ (by simp), ← hbegin]
      exact hd
    rw [List.append_assoc] at hR
    obtain ⟨-, hsame⟩ := hF.unique hfold hhead hB hR
    have hy' := hsame.trans (h.trans (congrArg (j ++ ·) hy))
    simp only [List.append_cancel_left_eq] at hy'
    rw [← hy'] at hbegins
    exact hbegins (begins_self c _)

/-- Only the field of a message is changed where it keeps its lines, and nowhere else. -/
theorem only_iff {m : Mail} {a b : List HeadField} {f : HeadField} (ver : Text) (hm : m.Wf)
    (hfields : m.fields = a ++ f :: b) (hno : ∀ x ∈ a, x.is contentType = false)
    (his : f.is contentType = true) (hc : CharsetName c)
    (hlen : (f.rest ++ m.behind b).length < MAX_MIMEHEAD) :
    (∃ out, replace_charset ver m.text c = some out ∧ OnlyField m a f b out) ↔
      KeepsRest f (m.behind b) c := by
  have hf := hm.fields f (by rw [hfields]; simp)
  have hF := folded_rest hf
  have hb : ∀ x ∈ b, x.Wf := fun x hx => hm.fields x (by rw [hfields]; simp [hx])
  have hB := behind_head hm hb
  have hhead := rest_no_blank hf
  have hset : ∀ {V : Text}, replace_charset_value (f.rest ++ m.behind b) c false = some V → V.head? ≠ some ' ' →
      ((∃ out, replace_charset ver m.text c = some out ∧ OnlyField m a f b out) ↔
        ∃ R, V = R ++ m.behind b ∧ Folded R) := by
    intro V hV hVhead
    rw [replace_charset_value_of ver c hm hfields hno his, hV, ← @onlyField_iff m a b f V hf hVhead]
    simp
  cases hfind : strcasefind (f.rest ++ m.behind b) charsetPat with
  | none =>
    have hmissing := strcasefind_eq_none.mp hfind
    obtain ⟨V, hV, hVhead, hR⟩ := missing_folded hF hhead hc hmissing hlen
    exact iff_of_true ((hset hV hVhead).mpr hR) (.missing hmissing)
  | some found =>
    obtain ⟨x, y⟩ := found
    obtain ⟨w, q, hx, hw, hq, hquote, hy, htext⟩ := found_parts hfind
    have hreplace := replace_found false hc hx hw hquote hy (by rw [← htext]; exact hlen)
    rw [← htext] at hreplace
    by_cases hbegins : strncaseeq (nameAt y) c c.length = true
    · rw [if_pos hbegins] at hreplace
      refine iff_of_true ((hset hreplace ?_).mpr ⟨f.rest, rfl, hF⟩) (.begins hfind hbegins)
      rwa [List.head?_append_of_ne_nil _ hF.ne_nil]
    · rw [if_neg hbegins] at hreplace
      have hne : x ++ w ≠ [] := by
        obtain ⟨k, rfl, -, -⟩ := charset_letters hw
        simp
      have hVhead : (x ++ (w ++ (q ++ (c ++ erased (behindName y))))).head? ≠ some ' ' := by
        have hsame : (f.rest ++ m.behind b).head? = (x ++ w).head? := by
          rw [htext]
          conv_lhs => rw [hy]
          rw [← List.append_assoc, List.head?_append_of_ne_nil _ hne]
        rw [← List.append_assoc, List.head?_append_of_ne_nil _ hne, ← hsame,
          List.head?_append_of_ne_nil _ hF.ne_nil]
        exact hhead
      rw [hset hreplace hVhead, found_folded hF hB hc hw hq hy htext hbegins]
      constructor
      · rintro ⟨hin, hjoin⟩
        cases hcut : cutAt (behindName y) with
        | none => exact .single hfind hin hcut
        | some cut =>
          obtain ⟨b', z⟩ := cut
          obtain ⟨u, hu, hjoins⟩ := hjoin b' z hcut
          exact .double hfind hin hcut hu hjoins
      · intro hkeeps
        cases hkeeps with
        | missing h =>
          rw [strcasefind_eq_none.mpr h] at hfind
          cases hfind
        | begins hfound h =>
          rw [hfind] at hfound
          cases hfound
          exact absurd h hbegins
        | single hfound hin hcut =>
          rw [hfind] at hfound
          cases hfound
          exact ⟨hin, fun b' z hsome => by rw [hcut] at hsome; cases hsome⟩
        | double hfound hin hcut hu hjoins =>
          rw [hfind] at hfound
          cases hfound
          refine ⟨hin, fun b' z hsome => ?_⟩
          rw [hcut] at hsome
          cases hsome
          exact ⟨_, hu, hjoins⟩

end

/-- The charset of a value is set where it can be, and nowhere else; of a message, only the field is changed
where its lines are kept, and nowhere else. -/
theorem replace_charset_sets_iff (ver c : Text) (hc : CharsetName c) :
    (∀ v : CType, v.Wf → v.text.length < MAX_MIMEHEAD →
      ((∃ out v', replace_charset_value v.text c true = some out ∧ v.Sets c out v') ↔ CanSet v c)) ∧
    ∀ (m : Mail) (a b : List HeadField) (f : HeadField), m.Wf → m.fields = a ++ f :: b →
      (∀ x ∈ a, x.is contentType = false) → f.is contentType = true →
      (f.rest ++ m.behind b).length < MAX_MIMEHEAD →
      ((∃ out, replace_charset ver m.text c = some out ∧ OnlyField m a f b out) ↔
        KeepsRest f (m.behind b) c) :=
  ⟨fun _ hv hlen => set_iff hv hc hlen, fun _ _ _ _ hm hfields hno his hlen =>
    only_iff ver hm hfields hno his hc hlen⟩

/-- `text/plain; charset=big5-hkscs` -/
def hkscs : CType :=
  ⟨['t', 'e', 'x', 't', '/', 'p', 'l', 'a', 'i', 'n'],
    [⟨[';', ' '], charsetPat.dropLast, false, ['b', 'i', 'g', '5', '-', 'h', 'k', 's', 'c', 's']⟩], []⟩

theorem hkscs_wf : hkscs.Wf := by
  refine ⟨by simp [hkscs], ?_, by simp [hkscs]⟩
  intro p hp
  unfold hkscs at hp
  rw [List.mem_singleton.mp hp]
  exact ⟨by simp [isSep], by simp, ⟨by simp [charsetPat], by simp [charsetPat, isToken, isspace]⟩,
    by simp [isToken, isspace]⟩

theorem utf8_name : CharsetName ['u', 't', 'f', '-', '8'] := ⟨by simp, by simp [isNameChar]⟩

/-- `Content-Type: text/plain; charset=a;charset=b` -/
def twoCharsets : HeadField :=
  ⟨contentType, 0, 1, ['t', 'e', 'x', 't', '/', 'p', 'l', 'a', 'i', 'n', ';', ' '] ++
    (charsetPat ++ ('a' :: ';' :: (charsetPat ++ ['b']))), []⟩

/-- A message with that field between other ones. -/
def twoMail : Mail := ⟨[⟨['T', 'o'], 0, 1, ['m', 'e'], []⟩, twoCharsets, ⟨['T', 'o'], 0, 1, ['y'], []⟩], [], ['o', 'k']⟩

theorem twoMail_wf : twoMail.Wf := by
  refine ⟨?_, .inl rfl⟩
  have hto : ∀ v : Text, v.head? ≠ some ' ' → '\n' ∉ v → HeadField.Wf ⟨['T', 'o'], 0, 1, v, []⟩ :=
    fun v hhead hend => ⟨⟨by simp, by simp⟩, by simp, hhead, hend, by simp⟩
  intro f hf
  simp only [twoMail, List.mem_cons, List.not_mem_nil, or_false] at hf
  rcases hf with rfl | rfl | rfl
  · exact hto _ (by simp) (by simp)
  · exact ⟨contentType_name, by simp [twoCharsets, contentType], by simp [twoCharsets],
      by simp [twoCharsets, charsetPat], by simp [twoCharsets]⟩
  · exact hto _ (by simp) (by simp)

/-- The charset is set to `utf-8`, and the second one of the message is erased. -/
theorem replace_charset_utf8 :
    (∃ out v', replace_charset_value hkscs.text ['u', 't', 'f', '-', '8'] true = some out ∧
      hkscs.Sets ['u', 't', 'f', '-', '8'] out v') ∧
    ∃ out, replace_charset [] twoMail.text ['u', 't', 'f', '-', '8'] = some out ∧
      OnlyField twoMail [⟨['T', 'o'], 0, 1, ['m', 'e'], []⟩] twoCharsets
        [⟨['T', 'o'], 0, 1, ['y'], []⟩] out := by
  obtain ⟨hvalue, hmessage⟩ := replace_charset_sets_iff [] ['u', 't', 'f', '-', '8'] utf8_name
  constructor
  · refine (hvalue hkscs hkscs_wf (by decide)).mpr ?_
    exact @CanSet.replaced hkscs _ [] [] _ ⟨rfl, rfl, rfl⟩ rfl (fun h => by cases h) (by simp)
  · refine (hmessage twoMail _ _ twoCharsets twoMail_wf rfl (fun x hx => by rw [List.mem_singleton.mp hx]; rfl) rfl
      (by decide)).mpr ?_
    exact @KeepsRest.double twoCharsets _ _ _ _ [] _ ['\n'] rfl (by decide) rfl rfl (by simp [Joins])

/-- The charset `big5-hkscs` is left where `big5` is to be set. -/
theorem longer_name_stays :
    replace_charset_value hkscs.text ['b', 'i', 'g', '5'] true = some hkscs.text ∧
      get_charset hkscs.text 64 = some ['b', 'i', 'g', '5', '-', 'h', 'k', 's', 'c', 's'] ∧
      ¬∃ out v', replace_charset_value hkscs.text ['b', 'i', 'g', '5'] true = some out ∧
        hkscs.Sets ['b', 'i', 'g', '5'] out v' := by
  refine ⟨rfl, rfl, ?_⟩
  rintro ⟨out, v', hout, h⟩
  obtain ⟨name, hget, heq⟩ := h.charset 64 (by decide)
  have hsame : out = hkscs.text := (Option.some.inj hout).symm
  rw [hsame] at hget
  cases hget
  cases heq

end delegate.rfc822
