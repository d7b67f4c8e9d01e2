-- The parameters of a Content-Type. A scan from left to right finds their names and values, so that
-- a text has one list of parameters, and no text can be read both in a quoted value and outside of
-- one.
import Delegate.Rfc822

open ctext

namespace delegate.rfc822

/-! ## Characters -/

/-- `charset=` -/
def charsetPat : Text := ['c', 'h', 'a', 'r', 's', 'e', 't', '=']

/-- A character of a name, or of a value without quotes. -/
def isToken (c : Char) : Bool := !(isspace c || c == ';' || c == '"' || c == '=' || c == '>')

/-- A blank or a character of a line end, or a `;`. -/
def isSep (c : Char) : Bool := c == ' ' || c == '\t' || c == '\r' || c == '\n' || c == ';'

/-- What may be between quotes: a quote only behind a backslash. -/
def quotable : Text → Bool
  | [] => true
  | '\\' :: _ :: t => quotable t
  | c :: t => c != '\\' && c != '"' && quotable t

theorem isSep_cases {c : Char} (h : isSep c = true) :
    c = ' ' ∨ c = '\t' ∨ c = '\r' ∨ c = '\n' ∨ c = ';' := by
  unfold isSep at h
  simp only [Bool.or_eq_true, beq_iff_eq, or_assoc] at h
  exact h

theorem isToken_of_sep {c : Char} (h : isSep c = true) : isToken c = false := by
  rcases isSep_cases h with rfl | rfl | rfl | rfl | rfl <;> rfl

theorem ne_of_sep {c d : Char} (hd : isSep d = false) (h : isSep c = true) : c ≠ d := by
  rintro rfl
  rw [hd] at h
  cases h

theorem ne_of_token {c d : Char} (hd : isToken d = false) (h : isToken c = true) : c ≠ d := by
  rintro rfl
  rw [hd] at h
  cases h

theorem isSep_of_token {c : Char} (h : isToken c = true) : isSep c = false := by
  cases hs : isSep c with
  | false => rfl
  | true =>
    rw [isToken_of_sep hs] at h
    cases h

theorem quotable_cons {c : Char} {t : Text} (hc : c ≠ '\\' ∧ c ≠ '"') :
    quotable (c :: t) = quotable t := by
  rw [quotable.eq_3]
  · simp [hc]
  · rintro - - rfl
    exact absurd rfl hc.1

/-! ## Content types -/

/-- A parameter: the blanks and `;` before it, the name, and the value, which may be quoted. -/
structure Param where
  lead : Text
  name : Text
  quote : Bool
  value : Text

def Param.quotes (p : Param) : Text := if p.quote then ['"'] else []

/-- The value with its quotes. -/
def Param.raw (p : Param) : Text := p.quotes ++ p.value ++ p.quotes

def Param.pair (p : Param) : Text × Text := (p.name, p.raw)

def Param.text (p : Param) : Text := p.lead ++ (p.name ++ '=' :: p.raw)

structure Param.Wf (p : Param) : Prop where
  lead : ∀ c ∈ p.lead, isSep c = true
  semi : ';' ∈ p.lead
  name : p.name ≠ [] ∧ ∀ c ∈ p.name, isToken c = true
  value : if p.quote then quotable p.value = true else ∀ c ∈ p.value, isToken c = true

theorem Param.Wf.bare {p : Param} (hp : p.Wf) (hq : p.quote = false) : ∀ c ∈ p.value, isToken c = true := by
  have hvalue := hp.value
  rwa [hq, if_neg Bool.false_ne_true] at hvalue

theorem Param.Wf.quoted {p : Param} (hp : p.Wf) (hq : p.quote = true) : quotable p.value = true := by
  have hvalue := hp.value
  rwa [hq, if_pos rfl] at hvalue

theorem Param.Wf.not_head {p : Param} (hp : p.Wf) {e : Char} (hsep : isSep e = false)
    (htok : isToken e = false) : e ∉ p.lead ∧ e ∉ p.name :=
  ⟨fun hmem => ne_of_sep hsep (hp.lead _ hmem) rfl, fun hmem => ne_of_token htok (hp.name.2 _ hmem) rfl⟩

theorem quotes_bare {p : Param} (hq : p.quote = false) : p.quotes = [] := by
  unfold Param.quotes
  rw [hq]
  rfl

theorem quotes_quoted {p : Param} (hq : p.quote = true) : p.quotes = ['"'] := by
  unfold Param.quotes
  rw [hq]
  rfl

theorem raw_bare {p : Param} (hq : p.quote = false) : p.raw = p.value := by
  unfold Param.raw
  rw [quotes_bare hq, List.nil_append, List.append_nil]

def isCharset (name : Text) : Bool := strcaseeq name charsetPat.dropLast

def Param.isCharset (p : Param) : Bool := rfc822.isCharset p.name

/-- A Content-Type: the media type, the parameters, and the blanks and `;` behind them. -/
structure CType where
  media : Text
  params : List Param
  tail : Text

def paramsText (ps : List Param) : Text := ps.flatMap Param.text

def CType.text (v : CType) : Text := v.media ++ (paramsText v.params ++ v.tail)

structure CType.Wf (v : CType) : Prop where
  media : ∀ c ∈ v.media, c ≠ ';' ∧ c ≠ '"' ∧ c ≠ '=' ∧ c ≠ '\r' ∧ c ≠ '\n'
  params : ∀ p ∈ v.params, p.Wf
  tail : ∀ c ∈ v.tail, isSep c = true

/-- The names and the values other than those of the charset. -/
def others (pairs : List (Text × Text)) : List (Text × Text) := pairs.filter fun x => !isCharset x.1

/-- The names and the values of the parameters other than the charset. -/
def CType.others (v : CType) : List (Text × Text) := rfc822.others (v.params.map Param.pair)

/-! ## The scan -/

/-- Where the scan is: between parameters, behind a `;` or not yet; in a name; in a value without
quotes; in a quoted value, behind a backslash or not; or behind a quoted value. -/
inductive Mode
  | sep (semi : Bool)
  | name (n : Text)
  | value (n v : Text)
  | quoted (n v : Text) (esc : Bool)
  | closed

/-- The parameters that were read, and where the scan is. -/
structure Scan where
  pairs : List (Text × Text)
  mode : Mode

def Scan.step (s : Scan) (c : Char) : Option Scan :=
  match s.mode with
  | .sep semi =>
    if isSep c then some ⟨s.pairs, .sep (semi || c == ';')⟩
    else if semi && isToken c then some ⟨s.pairs, .name [c]⟩
    else none
  | .name n =>
    if isToken c then some ⟨s.pairs, .name (n ++ [c])⟩
    else if c = '=' then some ⟨s.pairs, .value n []⟩
    else none
  | .value n v =>
    if isSep c then some ⟨s.pairs ++ [(n, v)], .sep (c == ';')⟩
    else if isToken c then some ⟨s.pairs, .value n (v ++ [c])⟩
    else if c = '"' ∧ v = [] then some ⟨s.pairs, .quoted n ['"'] false⟩
    else none
  | .quoted n v esc =>
    if esc then some ⟨s.pairs, .quoted n (v ++ [c]) false⟩
    else if c = '\\' then some ⟨s.pairs, .quoted n (v ++ [c]) true⟩
    else if c = '"' then some ⟨s.pairs ++ [(n, v ++ [c])], .closed⟩
    else some ⟨s.pairs, .quoted n (v ++ [c]) false⟩
  | .closed => if isSep c then some ⟨s.pairs, .sep (c == ';')⟩ else none

def Scan.run (s : Scan) : Text → Option Scan
  | [] => some s
  | c :: t => (s.step c).bind fun s' => s'.run t

/-- The parameters, where the text may end. -/
def Scan.finish (s : Scan) : Option (List (Text × Text)) :=
  match s.mode with
  | .sep _ => some s.pairs
  | .name _ => none
  | .value n v => some (s.pairs ++ [(n, v)])
  | .quoted .. => none
  | .closed => some s.pairs

def Scan.scan (s : Scan) (t : Text) : Option (List (Text × Text)) := (s.run t).bind Scan.finish

/-- Before the first parameter. -/
def Scan.start : Scan := ⟨[], .sep false⟩

section
variable {s s' : Scan} {D l l' : List (Text × Text)} {n v t u w : Text} {c : Char} {esc semi : Bool}

theorem Scan.run_append (s : Scan) (t u : Text) : s.run (t ++ u) = (s.run t).bind (·.run u) := by
  induction t generalizing s with
  | nil => rfl
  | cons c t ih =>
    rw [List.cons_append, Scan.run, Scan.run, Option.bind_assoc]
    congr 1
    funext s'
    exact ih s'

theorem Scan.scan_append (s : Scan) (t u : Text) : s.scan (t ++ u) = (s.run t).bind (·.scan u) := by
  unfold Scan.scan
  rw [Scan.run_append, Option.bind_assoc]

theorem Scan.scan_cons (s : Scan) (c : Char) (t : Text) :
    s.scan (c :: t) = (s.step c).bind (·.scan t) := by
  rw [← List.singleton_append, Scan.scan_append, Scan.run]
  unfold Scan.run
  rw [Option.bind_fun_some]

theorem Scan.scan_of_run (h : s.run t = some s') (u : Text) : s.scan (t ++ u) = s'.scan u := by
  rw [Scan.scan_append, h, Option.bind_some]

/-! ### Well-formed texts are read -/

theorem step_ready (h : s.finish = some D) (hc : isSep c = true) :
    ∃ semi, s.step c = some ⟨D, .sep semi⟩ ∧ (c = ';' → semi = true) := by
  obtain ⟨pairs, mode⟩ := s
  unfold Scan.step
  cases mode with
  | sep semi =>
    cases h
    exact ⟨_, if_pos hc, by rintro rfl; simp⟩
  | name => cases h
  | value n v =>
    cases h
    exact ⟨_, if_pos hc, by rintro rfl; rfl⟩
  | quoted => cases h
  | closed =>
    cases h
    exact ⟨_, if_pos hc, by rintro rfl; rfl⟩

theorem step_sep (hc : isSep c = true) :
    Scan.step ⟨D, .sep semi⟩ c = some ⟨D, .sep (semi || c == ';')⟩ := if_pos hc

theorem run_sep (ht : ∀ c ∈ t, isSep c = true) :
    Scan.run ⟨D, .sep semi⟩ t = some ⟨D, .sep (semi || t.contains ';')⟩ := by
  induction t generalizing semi with
  | nil => rw [Scan.run, List.contains_nil, Bool.or_false]
  | cons c t ih =>
    rw [Scan.run, step_sep (ht c List.mem_cons_self), Option.bind_some,
      ih fun d hd => ht d (List.mem_cons_of_mem _ hd), Bool.or_assoc, List.contains_cons,
      show (c == ';') = (';' == c) from BEq.comm]

/-- Blanks and `;` end what was read before them. -/
theorem run_ready (h : s.finish = some D) (ht : ∀ c ∈ t, isSep c = true) (hne : t ≠ []) :
    ∃ semi, s.run t = some ⟨D, .sep semi⟩ ∧ (';' ∈ t → semi = true) := by
  obtain ⟨c, t, rfl⟩ := List.exists_cons_of_ne_nil hne
  obtain ⟨semi, hstep, hsemi⟩ := step_ready h (ht c List.mem_cons_self)
  rw [Scan.run, hstep, Option.bind_some, run_sep fun d hd => ht d (List.mem_cons_of_mem _ hd)]
  refine ⟨_, rfl, fun hmem => ?_⟩
  rcases List.mem_cons.mp hmem with rfl | hmem
  · rw [hsemi rfl, Bool.true_or]
  · rw [List.contains_iff_mem.mpr hmem, Bool.or_true]

theorem scan_tail (h : s.finish = some D) (ht : ∀ c ∈ t, isSep c = true) : s.scan t = some D := by
  by_cases hne : t = []
  · rw [hne]
    exact h
  · obtain ⟨semi, hrun, -⟩ := run_ready h ht hne
    unfold Scan.scan
    rw [hrun]
    rfl

theorem run_tokens (hu : ∀ c ∈ u, isToken c = true) :
    Scan.run ⟨D, .name n⟩ u = some ⟨D, .name (n ++ u)⟩ := by
  induction u generalizing n with
  | nil => rw [List.append_nil, Scan.run]
  | cons c u ih =>
    have hstep : Scan.step ⟨D, .name n⟩ c = some ⟨D, .name (n ++ [c])⟩ :=
      if_pos (hu c List.mem_cons_self)
    rw [Scan.run, hstep, Option.bind_some, ih fun d hd => hu d (List.mem_cons_of_mem _ hd),
      List.append_assoc, List.singleton_append]

theorem run_name (hu : ∀ c ∈ u, isToken c = true) (hne : u ≠ []) :
    Scan.run ⟨D, .sep true⟩ (u ++ ['=']) = some ⟨D, .value u []⟩ := by
  obtain ⟨c, u, rfl⟩ := List.exists_cons_of_ne_nil hne
  have hc := hu c List.mem_cons_self
  have hstep : Scan.step ⟨D, .sep true⟩ c = some ⟨D, .name [c]⟩ := by
    unfold Scan.step
    dsimp only
    rw [isSep_of_token hc, hc]
    rfl
  rw [List.cons_append, Scan.run, hstep, Option.bind_some, Scan.run_append,
    run_tokens fun d hd => hu d (List.mem_cons_of_mem _ hd)]
  rfl

theorem run_value (hu : ∀ c ∈ u, isToken c = true) :
    Scan.run ⟨D, .value n v⟩ u = some ⟨D, .value n (v ++ u)⟩ := by
  induction u generalizing v with
  | nil => rw [List.append_nil, Scan.run]
  | cons c u ih =>
    have hc := hu c List.mem_cons_self
    have hstep : Scan.step ⟨D, .value n v⟩ c = some ⟨D, .value n (v ++ [c])⟩ := by
      unfold Scan.step
      dsimp only
      rw [isSep_of_token hc, hc]
      rfl
    rw [Scan.run, hstep, Option.bind_some, ih fun d hd => hu d (List.mem_cons_of_mem _ hd),
      List.append_assoc, List.singleton_append]

/-- A quoted value ends at a quote that is not behind a backslash. -/
theorem step_quoted (c : Char) : Scan.step ⟨D, .quoted n v esc⟩ c =
    if esc = true ∨ c ≠ '"' then some ⟨D, .quoted n (v ++ [c]) (!esc && c == '\\')⟩
    else some ⟨D ++ [(n, v ++ [c])], .closed⟩ := by
  cases esc with
  | true => rfl
  | false =>
    unfold Scan.step
    by_cases hback : c = '\\'
    · simp [hback]
    · by_cases hquote : c = '"' <;> simp [hback, hquote]

/-- The begin of what may be between quotes is read between them. -/
theorem run_quotable (h : quotable (u ++ w) = true) :
    ∃ esc, Scan.run ⟨D, .quoted n v false⟩ u = some ⟨D, .quoted n (v ++ u) esc⟩ ∧
      (w = [] → esc = false) := by
  induction u using quotable.induct generalizing v with
  | case1 => exact ⟨false, by rw [List.append_nil, Scan.run], fun _ => rfl⟩
  | case2 c u ih =>
    obtain ⟨esc, hrun, hesc⟩ := ih h
    refine ⟨esc, ?_, hesc⟩
    have hstep : Scan.run ⟨D, .quoted n v false⟩ ('\\' :: c :: u) =
        Scan.run ⟨D, .quoted n (v ++ ['\\'] ++ [c]) false⟩ u := rfl
    rw [hstep, hrun]
    simp
  | case3 c u hno ih =>
    by_cases hback : c = '\\'
    · subst hback
      cases u with
      | nil =>
        refine ⟨true, rfl, ?_⟩
        rintro rfl
        cases h
      | cons d u => exact absurd rfl (hno d u rfl)
    · rw [List.cons_append] at h
      have hquote : c ≠ '"' := by
        rintro rfl
        rw [quotable.eq_3 _ _ (by simp)] at h
        cases h
      rw [quotable_cons ⟨hback, hquote⟩] at h
      obtain ⟨esc, hrun, hesc⟩ := ih h
      refine ⟨esc, ?_, hesc⟩
      have hstep : Scan.step ⟨D, .quoted n v false⟩ c = some ⟨D, .quoted n (v ++ [c]) false⟩ := by
        rw [step_quoted, if_pos (.inr hquote)]
        simp [hback]
      rw [Scan.run, hstep, Option.bind_some, hrun]
      simp

theorem run_open : Scan.run ⟨D, .value n []⟩ ['"'] = some ⟨D, .quoted n ['"'] false⟩ := rfl

/-- The scan behind the value of a parameter. -/
def Scan.after (D : List (Text × Text)) (q : Param) : Scan :=
  if q.quote then ⟨D ++ [q.pair], .closed⟩ else ⟨D, .value q.name q.value⟩

theorem run_after {q : Param} (hq : q.Wf) :
    Scan.run ⟨D, .value q.name []⟩ q.raw = some (Scan.after D q) := by
  unfold Scan.after
  cases hquote : q.quote with
  | false =>
    rw [raw_bare hquote]
    exact run_value (hq.bare hquote)
  | true =>
    obtain ⟨e, hrun, hesc⟩ := @run_quotable D q.name ['"'] q.value [] (by
      rw [List.append_nil]
      exact hq.quoted hquote)
    rw [hesc rfl] at hrun
    unfold Param.pair Param.raw
    rw [quotes_quoted hquote, Scan.run_append, Scan.run_append, run_open, Option.bind_some, hrun]
    rfl

theorem finish_after {q : Param} : (Scan.after D q).finish = some (D ++ [q.pair]) := by
  unfold Scan.after Param.pair
  cases hquote : q.quote with
  | false =>
    rw [raw_bare hquote]
    rfl
  | true => rfl

theorem run_head {p : Param} (hp : p.Wf) (h : s.finish = some D) :
    s.run (p.lead ++ (p.name ++ ['='])) = some ⟨D, .value p.name []⟩ := by
  obtain ⟨semi, hlead, hsemi⟩ := run_ready h hp.lead (List.ne_nil_of_mem hp.semi)
  rw [Scan.run_append, hlead, Option.bind_some, hsemi hp.semi, run_name hp.name.2 hp.name.1]

theorem run_params {ps : List Param} (hps : ∀ p ∈ ps, p.Wf) (h : s.finish = some D) :
    ∃ s', s.run (paramsText ps) = some s' ∧ s'.finish = some (D ++ ps.map Param.pair) := by
  induction ps generalizing s D with
  | nil => exact ⟨s, rfl, by rw [h, List.map_nil, List.append_nil]⟩
  | cons p ps ih =>
    have hp := hps p List.mem_cons_self
    obtain ⟨s2, hrest, hfinish⟩ :=
      ih (fun q hq => hps q (List.mem_cons_of_mem _ hq)) (@finish_after D p)
    have htext : paramsText (p :: ps) = (p.lead ++ (p.name ++ ['='])) ++ (p.raw ++ paramsText ps) := by
      unfold paramsText Param.text
      simp
    refine ⟨s2, ?_, by rw [hfinish]; simp⟩
    rw [htext, Scan.run_append, run_head hp h, Option.bind_some, Scan.run_append,
      run_after hp, Option.bind_some, hrest]

/-- A well-formed text has its parameters. -/
theorem scan_params {ps : List Param} (hps : ∀ p ∈ ps, p.Wf) (h : s.finish = some D)
    (ht : ∀ c ∈ t, isSep c = true) :
    s.scan (paramsText ps ++ t) = some (D ++ ps.map Param.pair) := by
  obtain ⟨s', hrun, hfinish⟩ := run_params hps h
  rw [Scan.scan_of_run hrun, scan_tail hfinish ht]

/-! ### What a text that is read has -/

theorem step_pairs (h : s.step c = some s') : s.pairs <+: s'.pairs := by
  obtain ⟨pairs, mode⟩ := s
  unfold Scan.step at h
  cases mode with
  | sep semi =>
    dsimp only at h
    split_ifs at h <;> cases h <;> exact List.prefix_refl _
  | name n =>
    dsimp only at h
    split_ifs at h <;> cases h <;> exact List.prefix_refl _
  | value n v =>
    dsimp only at h
    split_ifs at h <;> cases h
    · exact List.prefix_append _ _
    · exact List.prefix_refl _
    · exact List.prefix_refl _
  | quoted n v esc =>
    dsimp only at h
    split_ifs at h <;> cases h
    · exact List.prefix_refl _
    · exact List.prefix_refl _
    · exact List.prefix_append _ _
    · exact List.prefix_refl _
  | closed =>
    dsimp only at h
    split_ifs at h
    cases h
    exact List.prefix_refl _

theorem scan_pairs (h : s.scan t = some l) : s.pairs <+: l := by
  induction t generalizing s with
  | nil =>
    obtain ⟨pairs, mode⟩ := s
    change Scan.finish _ = some l at h
    cases mode with
    | sep => cases h; exact List.prefix_refl _
    | name => cases h
    | value => cases h; exact List.prefix_append _ _
    | quoted => cases h
    | closed => cases h; exact List.prefix_refl _
  | cons c t ih =>
    rw [Scan.scan_cons] at h
    obtain ⟨s', hstep, hscan⟩ := Option.bind_eq_some_iff.mp h
    exact (step_pairs hstep).trans (ih hscan)

/-- A quoted value is closed. -/
theorem scan_quoted (h : Scan.scan ⟨D, .quoted n v esc⟩ t = some l) :
    ∃ x y, t = x ++ y ∧ Scan.run ⟨D, .quoted n v esc⟩ x = some ⟨D ++ [(n, v ++ x)], .closed⟩ ∧
      Scan.scan ⟨D ++ [(n, v ++ x)], .closed⟩ y = some l := by
  induction t generalizing v esc with
  | nil => cases h
  | cons c t ih =>
    rw [Scan.scan_cons, step_quoted] at h
    by_cases hstays : esc = true ∨ c ≠ '"'
    · rw [if_pos hstays, Option.bind_some] at h
      obtain ⟨x, y, rfl, hrun, hscan⟩ := ih h
      rw [List.append_assoc, List.singleton_append] at hrun hscan
      refine ⟨c :: x, y, rfl, ?_, hscan⟩
      rw [Scan.run, step_quoted, if_pos hstays, Option.bind_some, hrun]
    · rw [if_neg hstays, Option.bind_some] at h
      refine ⟨[c], t, rfl, ?_, h⟩
      rw [Scan.run, step_quoted, if_neg hstays]
      rfl

/-- The value that is read stays the begin of its value. -/
theorem scan_value (h : Scan.scan ⟨D, .value n v⟩ t = some l) : ∃ x l', l = D ++ (n, v ++ x) :: l' ∧
    ((∀ c ∈ t.head?, isSep c = false) → t ≠ [] → x ≠ []) := by
  induction t generalizing v with
  | nil =>
    cases h
    exact ⟨[], [], by rw [List.append_nil], fun _ hne => absurd rfl hne⟩
  | cons c t ih =>
    rw [Scan.scan_cons] at h
    obtain ⟨s', hstep, hscan⟩ := Option.bind_eq_some_iff.mp h
    unfold Scan.step at hstep
    dsimp only at hstep
    split_ifs at hstep with hsep htok hquote
    · cases hstep
      obtain ⟨l', rfl⟩ := scan_pairs hscan
      refine ⟨[], l', by simp, fun hhead => ?_⟩
      rw [hhead c rfl] at hsep
      cases hsep
    · cases hstep
      obtain ⟨x, l', rfl, -⟩ := ih hscan
      exact ⟨c :: x, l', by simp, fun _ _ => List.cons_ne_nil _ _⟩
    · cases hstep
      obtain ⟨rfl, rfl⟩ := hquote
      obtain ⟨x, y, -, -, hclosed⟩ := scan_quoted hscan
      obtain ⟨l', rfl⟩ := scan_pairs hclosed
      exact ⟨'"' :: x, l', by simp, fun _ _ => List.cons_ne_nil _ _⟩

/-- A name without `=` behind it is not read. -/
theorem scan_no_equal (hu : ∀ c ∈ u, isToken c = true) (hne : u ≠ [])
    (ht : ∀ c ∈ t.head?, isSep c = true) : Scan.scan ⟨D, .sep semi⟩ (u ++ t) = none := by
  obtain ⟨c, u, rfl⟩ := List.exists_cons_of_ne_nil hne
  have hc := hu c List.mem_cons_self
  rw [List.cons_append, Scan.scan_cons]
  unfold Scan.step
  dsimp only
  rw [isSep_of_token hc, hc, Bool.and_true, if_neg Bool.false_ne_true]
  split_ifs
  · rw [Option.bind_some, Scan.scan_of_run (run_tokens fun d hd => hu d (List.mem_cons_of_mem _ hd))]
    cases t with
    | nil => rfl
    | cons d t =>
      have hd := ht d rfl
      rw [Scan.scan_cons]
      unfold Scan.step
      dsimp only
      rw [isToken_of_sep hd, if_neg Bool.false_ne_true, if_neg (ne_of_sep rfl hd)]
      rfl
  · rfl

/-- Outside of a quoted value. -/
def Mode.outside : Mode → Prop
  | .quoted .. => False
  | _ => True

theorem step_outside (h : s.step c = some s') (hs : s.mode.outside) (hc : c ≠ '"') :
    s'.mode.outside ∧ (∀ m, s'.mode = .value m [] → c = '=') := by
  obtain ⟨pairs, mode⟩ := s
  unfold Scan.step at h
  cases mode with
  | sep semi =>
    dsimp only at h
    split_ifs at h <;> cases h <;> exact ⟨trivial, fun m hm => by cases hm⟩
  | name n =>
    dsimp only at h
    split_ifs at h with _ heq
    · cases h
      exact ⟨trivial, fun m hm => by cases hm⟩
    · cases h
      exact ⟨trivial, fun _ _ => heq⟩
  | value n v =>
    dsimp only at h
    split_ifs at h with _ _ hquote
    · cases h
      exact ⟨trivial, fun m hm => by cases hm⟩
    · cases h
      exact ⟨trivial, fun m hm => by simp at hm⟩
    · exact absurd hquote.1 hc
  | quoted => exact hs.elim
  | closed =>
    dsimp only at h
    split_ifs at h
    cases h
    exact ⟨trivial, fun m hm => by cases hm⟩

/-- A quote outside of a quoted value is the first character of a value. -/
theorem step_open (h : s.step '"' = some s') (hs : s.mode.outside) :
    ∃ n, s.mode = .value n [] ∧ s' = ⟨s.pairs, .quoted n ['"'] false⟩ := by
  obtain ⟨pairs, mode⟩ := s
  unfold Scan.step at h
  cases mode with
  | sep semi =>
    dsimp only at h
    rw [if_neg (by decide), if_neg (by simp [show isToken '"' = false from rfl])] at h
    cases h
  | name n => cases h
  | value n v =>
    dsimp only at h
    rw [if_neg (by decide), if_neg (by decide)] at h
    split_ifs at h with hquote
    cases h
    exact ⟨n, by rw [hquote.2], rfl⟩
  | quoted => exact hs.elim
  | closed => cases h

/-- No text is read both in a quoted value and outside of one: a quote that begins a value in one
of the scans ends one in the other, and in the end one of them is in a value that is not closed. -/
theorem not_both (hs : s.mode.outside)
    (hcut : ∀ m, s.mode = .value m [] → esc = true → t.head? ≠ some '"')
    (hout : s.scan t = some l) (hin : Scan.scan ⟨D, .quoted n v esc⟩ t = some l') : False := by
  induction t generalizing s D n v esc l l' with
  | nil => cases hin
  | cons c t ih =>
    rw [Scan.scan_cons] at hout hin
    obtain ⟨s1, hstep, hout⟩ := Option.bind_eq_some_iff.mp hout
    by_cases hquote : c = '"'
    · subst hquote
      obtain ⟨m, hm, rfl⟩ := step_open hstep hs
      have hesc : esc = false := by
        cases esc with
        | false => rfl
        | true => exact absurd rfl (hcut m hm rfl)
      subst hesc
      have hclose : Scan.step ⟨D, .quoted n v false⟩ '"' = some ⟨D ++ [(n, v ++ ['"'])], .closed⟩ := rfl
      rw [hclose, Option.bind_some] at hin
      have hclosed : (⟨D ++ [(n, v ++ ['"'])], .closed⟩ : Scan).mode.outside := trivial
      exact ih hclosed (fun m' hm' => by cases hm') hin hout
    · obtain ⟨hs1, hvalue⟩ := step_outside hstep hs hquote
      rw [step_quoted, if_pos (.inr hquote), Option.bind_some] at hin
      refine ih hs1 (fun m hm hesc => ?_) hout hin
      rw [hvalue m hm] at hesc
      simp at hesc

/-! ### Texts that are read are well formed -/

theorem quotable_quote (t : Text) : quotable ('"' :: t) = false := by
  rw [quotable.eq_3 _ _ (by simp)]
  rfl

/-- Behind the text, which ends with a backslash or not, quotes may stand as at the begin. -/
def opened (u : Text) (esc : Bool) : Prop :=
  if esc then ∀ c t, quotable (u ++ c :: t) = quotable t else ∀ t, quotable (u ++ t) = quotable t

theorem opened_nil : opened [] false := fun _ => rfl

/-- A character in quotes that does not close them. -/
theorem opened_step (hu : opened u esc) (hc : esc = true ∨ c ≠ '"') :
    opened (u ++ [c]) (!esc && c == '\\') := by
  unfold opened at hu ⊢
  cases esc with
  | true =>
    intro t
    rw [List.append_assoc]
    exact hu c t
  | false =>
    replace hu : ∀ t, quotable (u ++ t) = quotable t := hu
    by_cases hback : c = '\\'
    · subst hback
      intro d t
      rw [List.append_assoc, List.singleton_append, hu]
      rfl
    · rw [show (!false && c == '\\') = false by simp [hback], if_neg Bool.false_ne_true]
      intro t
      rw [List.append_assoc, List.singleton_append, hu,
        quotable_cons ⟨hback, hc.resolve_left Bool.false_ne_true⟩]

/-- A name with the blanks and `;` before it. -/
structure Heads (lead n : Text) : Prop where
  seps : ∀ c ∈ lead, isSep c = true
  semi : ';' ∈ lead
  name : n ≠ [] ∧ ∀ c ∈ n, isToken c = true

/-- What the scan has read behind the last parameter. -/
def Mode.holds : Mode → Text → Prop
  | .sep semi, w => (∀ c ∈ w, isSep c = true) ∧ (semi = true → ';' ∈ w)
  | .name n, w => ∃ lead, w = lead ++ n ∧ Heads lead n
  | .value n v, w => ∃ lead, w = lead ++ (n ++ '=' :: v) ∧ Heads lead n ∧ ∀ c ∈ v, isToken c = true
  | .quoted n v esc, w =>
    ∃ lead u, v = '"' :: u ∧ w = lead ++ (n ++ '=' :: v) ∧ Heads lead n ∧ opened u esc
  | .closed, w => w = []

/-- The text that was read has the parameters of the scan. -/
def Scan.holds (s : Scan) (t : Text) : Prop :=
  ∃ ps w, (∀ p ∈ ps, Param.Wf p) ∧ s.pairs = ps.map Param.pair ∧ t = paramsText ps ++ w ∧ s.mode.holds w

@[simp]
theorem paramsText_nil : paramsText [] = [] := rfl

theorem paramsText_append (ps qs : List Param) : paramsText (ps ++ qs) = paramsText ps ++ paramsText qs :=
  List.flatMap_append

theorem paramsText_cons (p : Param) (ps : List Param) : paramsText (p :: ps) = p.text ++ paramsText ps :=
  List.flatMap_cons

theorem bare_text (lead n v : Text) : Param.text ⟨lead, n, false, v⟩ = lead ++ (n ++ '=' :: v) := by
  unfold Param.text Param.raw Param.quotes
  simp

theorem bare_pair (lead n v : Text) : Param.pair ⟨lead, n, false, v⟩ = (n, v) := by
  unfold Param.pair Param.raw Param.quotes
  simp

theorem quoted_text (lead n v : Text) :
    Param.text ⟨lead, n, true, v⟩ = lead ++ (n ++ '=' :: '"' :: (v ++ ['"'])) := by
  unfold Param.text Param.raw Param.quotes
  simp

theorem quoted_pair (lead n v : Text) : Param.pair ⟨lead, n, true, v⟩ = (n, '"' :: (v ++ ['"'])) := by
  unfold Param.pair Param.raw Param.quotes
  simp

/-- A parameter that is complete. -/
theorem holds_param {ps : List Param} {p : Param} (hps : ∀ p ∈ ps, Param.Wf p) (hp : p.Wf)
    {m : Mode} (hm : m.holds w) :
    Scan.holds ⟨ps.map Param.pair ++ [p.pair], m⟩ (paramsText ps ++ (p.text ++ w)) := by
  refine ⟨ps ++ [p], w, ?_, by simp, by simp [paramsText], hm⟩
  intro q hq
  rcases List.mem_append.mp hq with hq | hq
  · exact hps q hq
  · rw [List.mem_singleton.mp hq]
    exact hp

theorem mem_snoc {p : Char → Prop} (h : ∀ d ∈ u, p d) (hc : p c) : ∀ d ∈ u ++ [c], p d := by
  intro d hd
  rcases List.mem_append.mp hd with hd | hd
  · exact h d hd
  · rw [List.mem_singleton.mp hd]
    exact hc

theorem holds_step (h : s.holds t) (hstep : s.step c = some s') : s'.holds (t ++ [c]) := by
  obtain ⟨pairs, mode⟩ := s
  obtain ⟨ps, w, hps, rfl, rfl, hw⟩ := h
  unfold Scan.step at hstep
  rw [List.append_assoc]
  cases mode with
  | sep semi =>
    dsimp only at hstep
    split_ifs at hstep with hsep hname
    · cases hstep
      refine ⟨ps, w ++ [c], hps, rfl, rfl, mem_snoc hw.1 hsep, fun hsemi => ?_⟩
      rw [Bool.or_eq_true, beq_iff_eq] at hsemi
      rcases hsemi with hsemi | rfl
      · exact List.mem_append_left _ (hw.2 hsemi)
      · exact List.mem_append_right _ (List.mem_singleton_self _)
    · cases hstep
      rw [Bool.and_eq_true] at hname
      refine ⟨ps, w ++ [c], hps, rfl, rfl, w, rfl, hw.1, hw.2 hname.1, List.cons_ne_nil _ _, ?_⟩
      intro d hd
      rw [List.mem_singleton.mp hd]
      exact hname.2
  | name n =>
    obtain ⟨lead, rfl, hheads⟩ := hw
    dsimp only at hstep
    split_ifs at hstep with htok heq
    · cases hstep
      refine ⟨ps, lead ++ n ++ [c], hps, rfl, rfl, lead, List.append_assoc .., hheads.seps, hheads.semi,
        by simp, mem_snoc hheads.name.2 htok⟩
    · cases hstep
      subst heq
      exact ⟨ps, lead ++ n ++ ['='], hps, rfl, rfl, lead, List.append_assoc .., hheads, by simp⟩
  | value n v =>
    obtain ⟨lead, rfl, hheads, hv⟩ := hw
    dsimp only at hstep
    split_ifs at hstep with hsep htok hquote
    · cases hstep
      have hp : Param.Wf ⟨lead, n, false, v⟩ := ⟨hheads.seps, hheads.semi, hheads.name, hv⟩
      have hmode : Mode.holds (.sep (c == ';')) [c] := by
        refine ⟨fun d hd => ?_, fun hsemi => ?_⟩
        · rw [List.mem_singleton.mp hd]
          exact hsep
        · rw [eq_of_beq hsemi]
          exact List.mem_singleton_self _
      have hdone := holds_param hps hp hmode
      rwa [bare_text, bare_pair] at hdone
    · cases hstep
      exact ⟨ps, lead ++ (n ++ '=' :: v) ++ [c], hps, rfl, rfl, lead, by simp, hheads, mem_snoc hv htok⟩
    · cases hstep
      obtain ⟨rfl, rfl⟩ := hquote
      exact ⟨ps, lead ++ (n ++ ['=']) ++ ['"'], hps, rfl, rfl, lead, [], rfl, by simp, hheads, opened_nil⟩
  | quoted n v esc =>
    obtain ⟨lead, u, rfl, rfl, hheads, hu⟩ := hw
    change Scan.step ⟨ps.map Param.pair, .quoted n ('"' :: u) esc⟩ c = some s' at hstep
    rw [step_quoted] at hstep
    split_ifs at hstep with hstays
    · cases hstep
      exact ⟨ps, _, hps, rfl, rfl, lead, u ++ [c], rfl, by simp, hheads, opened_step hu hstays⟩
    · cases hstep
      rw [not_or, Bool.not_eq_true, not_not] at hstays
      obtain ⟨rfl, rfl⟩ := hstays
      have hall := hu []
      rw [List.append_nil] at hall
      have hp : Param.Wf ⟨lead, n, true, u⟩ := ⟨hheads.seps, hheads.semi, hheads.name, hall⟩
      have hdone := @holds_param [] ps ⟨lead, n, true, u⟩ hps hp .closed rfl
      rw [quoted_text, quoted_pair] at hdone
      simpa using hdone
  | closed =>
    cases hw
    dsimp only at hstep
    split_ifs at hstep with hsep
    cases hstep
    refine ⟨ps, [c], hps, rfl, rfl, fun d hd => ?_, fun hsemi => ?_⟩
    · rw [List.mem_singleton.mp hd]
      exact hsep
    · rw [eq_of_beq hsemi]
      exact List.mem_singleton_self _

theorem holds_scan (h : s.holds t) (hscan : s.scan u = some l) :
    ∃ ps w, (∀ p ∈ ps, Param.Wf p) ∧ l = ps.map Param.pair ∧ t ++ u = paramsText ps ++ w ∧
      ∀ c ∈ w, isSep c = true := by
  induction u generalizing s t with
  | nil =>
    obtain ⟨pairs, mode⟩ := s
    obtain ⟨ps, w, hps, rfl, rfl, hw⟩ := h
    rw [List.append_nil]
    change Scan.finish _ = some l at hscan
    cases mode with
    | sep =>
      cases hscan
      exact ⟨ps, w, hps, rfl, rfl, hw.1⟩
    | name => cases hscan
    | value n v =>
      cases hscan
      obtain ⟨lead, rfl, hheads, hv⟩ := hw
      have hp : Param.Wf ⟨lead, n, false, v⟩ := ⟨hheads.seps, hheads.semi, hheads.name, hv⟩
      obtain ⟨ps', w, hps', hl, ht, hw⟩ := @holds_param [] ps _ hps hp .closed rfl
      cases hw
      refine ⟨ps', [], hps', ?_, ?_, by simp⟩
      · rw [← hl, bare_pair]
      · rw [← ht, bare_text, List.append_nil]
    | quoted => cases hscan
    | closed =>
      cases hscan
      cases hw
      exact ⟨ps, [], hps, rfl, rfl, by simp⟩
  | cons c u ih =>
    rw [Scan.scan_cons] at hscan
    obtain ⟨s', hstep, hscan⟩ := Option.bind_eq_some_iff.mp hscan
    have hrest := ih (holds_step h hstep) hscan
    rwa [List.append_assoc, List.singleton_append] at hrest

/-- A text that is read is well formed. -/
theorem scan_sound (h : Scan.start.scan t = some l) :
    ∃ ps w, (∀ p ∈ ps, Param.Wf p) ∧ l = ps.map Param.pair ∧ t = paramsText ps ++ w ∧
      ∀ c ∈ w, isSep c = true :=
  @holds_scan Scan.start l [] t ⟨[], [], by simp, rfl, rfl, by simp, by simp⟩ h

/-! ### The end of a quoted value -/

theorem run_pairs (h : s.run t = some s') : s.pairs <+: s'.pairs := by
  induction t generalizing s with
  | nil =>
    cases h
    exact List.prefix_refl _
  | cons c t ih =>
    obtain ⟨s1, hstep, hrun⟩ := Option.bind_eq_some_iff.mp h
    exact (step_pairs hstep).trans (ih hrun)

/-- A quoted value that is not closed is not closed at its first character. -/
theorem run_stays {e : Bool}
    (h : Scan.run ⟨D, .quoted n v esc⟩ (c :: u) = some ⟨D, .quoted n w e⟩) :
    (esc = true ∨ c ≠ '"') ∧
      Scan.run ⟨D, .quoted n (v ++ [c]) (!esc && c == '\\')⟩ u = some ⟨D, .quoted n w e⟩ := by
  rw [Scan.run, step_quoted] at h
  by_cases hstays : esc = true ∨ c ≠ '"'
  · rw [if_pos hstays, Option.bind_some] at h
    exact ⟨hstays, h⟩
  · rw [if_neg hstays, Option.bind_some] at h
    have hlen := (run_pairs h).length_le
    rw [List.length_append] at hlen
    exact absurd hlen (Nat.not_succ_le_self _)

theorem run_opened {e : Bool} (h : Scan.run ⟨D, .quoted n v esc⟩ u = some ⟨D, .quoted n w e⟩)
    (ht : opened t esc) : opened (t ++ u) e ∧ w = v ++ u := by
  induction u generalizing v esc t with
  | nil =>
    cases h
    simp [ht]
  | cons c u ih =>
    obtain ⟨hstays, hrun⟩ := run_stays h
    have hrest := ih hrun (opened_step ht hstays)
    rwa [List.append_assoc, List.append_assoc, List.singleton_append] at hrest

/-- What is read in quotes up to the end of the value may be between them. -/
theorem quotable_of_run (h : Scan.run ⟨D, .quoted n v false⟩ u = some ⟨D, .quoted n w false⟩) :
    quotable u = true := by
  have hall := (run_opened h opened_nil).1 []
  rwa [List.nil_append, List.append_nil] at hall

/-- Two scans that are in a quoted value read it to the same end. -/
theorem quoted_same {D' : List (Text × Text)} {n' v' w' : Text} {esc' : Bool}
    (hout : Scan.scan ⟨D, .quoted n v esc⟩ (t ++ '"' :: u) = some l)
    (hin : Scan.run ⟨D', .quoted n' v' esc'⟩ t = some ⟨D', .quoted n' w' false⟩)
    (hrest : ∀ D'', ∃ l', Scan.scan ⟨D'', .closed⟩ u = some l') :
    Scan.run ⟨D, .quoted n v esc⟩ t = some ⟨D, .quoted n (v ++ t) false⟩ := by
  induction t generalizing v esc v' esc' with
  | nil =>
    obtain ⟨l', hl'⟩ := hrest []
    cases esc with
    | false => rw [List.append_nil, Scan.run]
    | true =>
      have hstep : Scan.step ⟨D, .quoted n v true⟩ '"' = some ⟨D, .quoted n (v ++ ['"']) false⟩ := rfl
      rw [List.nil_append, Scan.scan_cons, hstep, Option.bind_some] at hout
      have hclosed : (⟨[], .closed⟩ : Scan).mode.outside := trivial
      exact (not_both hclosed (fun m hm => by cases hm) hl' hout).elim
  | cons c t ih =>
    obtain ⟨-, hin'⟩ := run_stays hin
    rw [List.cons_append, Scan.scan_cons, step_quoted] at hout
    rw [Scan.run, step_quoted]
    by_cases hstays : esc = true ∨ c ≠ '"'
    · rw [if_pos hstays, Option.bind_some] at hout
      rw [if_pos hstays, Option.bind_some, ih hout hin', List.append_assoc, List.singleton_append]
    · rw [if_neg hstays, Option.bind_some] at hout
      have hclosed : (⟨D ++ [(n, v ++ [c])], .closed⟩ : Scan).mode.outside := trivial
      obtain ⟨l', hl'⟩ := hrest (D' ++ [(n', w' ++ ['"'])])
      have hgoes : Scan.scan ⟨D', .quoted n' (v' ++ [c]) (!esc' && c == '\\')⟩ (t ++ '"' :: u) =
          some l' := by
        rw [Scan.scan_of_run hin', Scan.scan_cons]
        exact hl'
      exact (not_both hclosed (fun m hm => by cases hm) hout hgoes).elim

end

end delegate.rfc822
