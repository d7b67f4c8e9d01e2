-- Filtering the fields of a header (mimekit/rfc822.cpp): `filterFields` goes over
-- the header once for each line of a specification, and looks for the text of the
-- line in all that is behind the name of a field.
import Delegate.HeaderRemove
import Delegate.HeaderReplace
import Delegate.Selections

open ctext segs selections

namespace delegate.rfc822

/-! ## The pure model -/

/-- `paramscanX`: the text copied into a buffer of `size` bytes, and the text after it. -/
def paramscanX (src brk : Text) (size : Nat) : Text × Text :=
  let dst := (src.take (size - 1)).takeWhile fun sc => !(sc == '\r' || sc == '\n' || brk.contains sc)
  (dst, src.drop dst.length)

def isBlank (c : Char) : Bool := c == ' ' || c == '\t'

/-- `scan_field1`: the name and the value, in buffers of `nsiz` and `bsiz` bytes. -/
def scan_field1 (field : Text) (nsiz bsiz : Nat) : Text × Text :=
  let p := paramscanX field [':'] nsiz
  (p.1, if p.2.head? = some ':' then url.linescanX (p.2.tail.dropWhile isBlank) bsiz else [])

/-- A field of the name is at `hp`, and the value is somewhere behind it. -/
def matchField (hp field aval : Text) : Bool :=
  strncaseeq hp field field.length && (hp.drop field.length).head? == some ':' &&
    (strstr aval (hp.drop (field.length + 1))).isSome

/-- The header ends at `hp`. -/
def endsHeader (hp : Text) : Bool :=
  hp.head? == some '\r' || hp.head? == some '\n' ||
    hp.head? == some '.' && (hp.tail.head? == some '\r' || hp.tail.head? == some '\n')

theorem nextField_loop_length (ignEOH top : Bool) (np : Text) :
    (nextField.loop ignEOH top np).length ≤ np.length := by
  fun_induction nextField.loop ignEOH top np with
  | case1 => exact Nat.le_refl _
  | case2 nc np hblank ih => exact Nat.le_succ_of_le ih
  | case3 => exact Nat.le_refl _
  | case4 nc np hblank hend ih => exact Nat.le_succ_of_le ih
  | case5 nc np ih => exact Nat.le_succ_of_le ih

theorem nextField_length {field : Text} (ignEOH : Bool) (h : field ≠ []) :
    (nextField field ignEOH).length < field.length := by
  obtain ⟨c, t, rfl⟩ := List.exists_cons_of_ne_nil h
  unfold nextField
  rw [nextField.loop]
  exact Nat.lt_succ_of_le (nextField_loop_length ..)

/-- The places where the lines of a specification begin. -/
def specPlaces (sp : Text) : List Text :=
  if _h : sp = [] then [] else sp :: specPlaces (nextField sp true)
termination_by sp.length
decreasing_by exact nextField_length true _h

/-- The inner loop of `filterFields` for `Pass`: the fields that are put. -/
def filterFields.pass (field aval hp : Text) : Text :=
  if _h : hp = [] then []
  else
    let tp := nextField hp false
    let out := if matchField hp field aval then upto hp tp else []
    if endsHeader tp then out else out ++ filterFields.pass field aval tp
termination_by hp.length
decreasing_by exact nextField_length false _h

/-- The inner loop of `filterFields` for `Remove`: the text from `hp` on, afterwards. -/
def filterFields.remove (field aval hp : Text) : Text :=
  if _h : hp = [] then []
  else
    let tp := nextField hp false
    let out := if matchField hp field aval then [] else upto hp tp
    if endsHeader tp then out ++ tp else out ++ filterFields.remove field aval tp
termination_by hp.length
decreasing_by exact nextField_length false _h

def passWord : Text := ['P', 'a', 's', 's', '/']

def removeWord : Text := ['R', 'e', 'm', 'o', 'v', 'e', '/']

/-- `filterFields`: the text afterwards. It is `none` where the fields that are put do not fit the
buffer, which is as long as the text. -/
def filterFields (spec head : Text) : Option Text :=
  let places := specPlaces spec
  if places.any fun sp => strncaseeq sp passWord 5 then
    let headbuf := places.flatMap fun sp =>
      if strncaseeq sp passWord 5 then
        let fv := scan_field1 (sp.drop 5) 1024 1024
        filterFields.pass fv.1 fv.2 head
      else []
    let out := headbuf ++ strSeekEOH true head
    if out.length ≤ head.length then some out else none
  else
    some (places.foldl
      (fun head sp =>
        if strncaseeq sp removeWord 7 then
          let fv := scan_field1 (sp.drop 7) 1024 1024
          filterFields.remove fv.1 fv.2 head
        else head)
      head)

/-! ## Specifications -/

/-- A line of a specification: the name, the blanks before the text, the text, and the line end. -/
structure FilterLine where
  name : Text
  blanks : Text
  text : Text
  eol : Text

def FilterLine.spec (word : Text) (l : FilterLine) : Text :=
  word ++ (l.name ++ ':' :: (l.blanks ++ (l.text ++ l.eol)))

structure FilterLine.Wf (l : FilterLine) : Prop where
  name : FieldName l.name
  name_cr : '\r' ∉ l.name
  blanks : ∀ c ∈ l.blanks, isBlank c = true
  text_head : ∀ c ∈ l.text.head?, isBlank c = false
  text_line : ∀ c ∈ l.text, c ≠ '\r' ∧ c ≠ '\n'
  eol : l.eol = [] ∨ l.eol = ['\n'] ∨ l.eol = ['\r', '\n']

def specText (word : Text) (ls : List FilterLine) : Text := ls.flatMap (FilterLine.spec word)

/-- Only the last line may have no line end. -/
structure SpecWf (ls : List FilterLine) : Prop where
  lines : ∀ l ∈ ls, l.Wf
  ends : ls.IsChain fun l _ => l.eol ≠ []

/-! ## What a line is for, and what it tests -/

/-- The lines of a value, the first one from behind the colon on. -/
def HeadField.valueLines (f : HeadField) : List Text :=
  (List.replicate f.after ' ' ++ f.value) :: f.conts

/-- The field has the name of the line, and its own value contains the text. -/
def FilterLine.selects (l : FilterLine) (f : HeadField) : Bool :=
  f.is l.name && f.valueLines.any fun v => (strstr l.text v).isSome

/-- The name of the line in the buffer. -/
def FilterLine.field (l : FilterLine) : Text := l.name.take 1023

/-- The text of the line in the buffer, which is empty where the name does not fit its own. -/
def FilterLine.aval (l : FilterLine) : Text :=
  if l.name.length < 1024 then l.text.take 1023 else []

/-- The text behind the last of the fields, from the empty line on. -/
def Mail.behind (m : Mail) (fs : List HeadField) : Text :=
  flat '\n' (fs.flatMap HeadField.lines) ++ (m.empty ++ '\n' :: m.body)

/-- Each field with the text behind it. -/
def Mail.places (m : Mail) : List HeadField → List (HeadField × Text)
  | [] => []
  | f :: fs => (f, m.behind fs) :: m.places fs

/-- The test of the line: the name is compared with the colon directly behind it, and the text is looked
for in the value and in all that is behind the field. -/
def FilterLine.sees (l : FilterLine) (p : HeadField × Text) : Bool :=
  p.1.before == 0 && p.1.is l.field &&
    ((p.1.valueLines.any fun v => (strstr l.aval v).isSome) || (strstr l.aval p.2).isSome)

/-- The message with some of its fields. -/
def Mail.restricted (m : Mail) (keep : HeadField → Bool) : Mail :=
  { m with fields := m.fields.filter keep }

/-- The lines select the field. -/
def selected (ls : List FilterLine) (f : HeadField) : Bool := ls.any fun l => l.selects f

/-! ## Lines of a specification -/

theorem copyLine_text {t e : Text} (n : Nat) (ht : ∀ c ∈ t, c ≠ '\r' ∧ c ≠ '\n')
    (he : e = [] ∨ e.head? = some '\n' ∨ (e.head? = some '\r' ∧ e.tail.head? = some '\n')) :
    url.copyLine n (t ++ e) = t.take n := by
  induction t generalizing n with
  | nil =>
    rw [List.nil_append, List.take_nil]
    cases n with
    | zero => rfl
    | succ n =>
      cases e with
      | nil => rfl
      | cons c e =>
        rw [url.copyLine, if_pos]
        rcases he with h | h | h
        · cases h
        · rw [Option.some.inj h]
          rfl
        · rw [Option.some.inj h.1]
          have htail : e.head? = some '\n' := h.2
          simp [htail]
  | cons c t ih =>
    cases n with
    | zero => rfl
    | succ n =>
      obtain ⟨hcr, hnl⟩ := ht c List.mem_cons_self
      rw [List.cons_append, url.copyLine, if_neg (by simp [hcr, hnl]),
        ih n fun c hc => ht c (List.mem_cons_of_mem _ hc), List.take_succ_cons]

theorem paramscanX_name {name rest : Text} (h : FieldName name) (hcr : '\r' ∉ name) :
    paramscanX (name ++ ':' :: rest) [':'] 1024 = (name.take 1023, (name ++ ':' :: rest).drop
      (name.take 1023).length) := by
  have hgo : ∀ c ∈ name, (!(c == '\r' || c == '\n' || [':'].contains c)) = true := by
    intro c hc
    obtain ⟨hcolon, -, -, hnl⟩ := h.chars c hc
    have hne : c ≠ '\r' := fun heq => hcr (heq ▸ hc)
    simp [hcolon, hnl, hne]
  unfold paramscanX
  rw [List.take_append]
  have hstop : ∀ c ∈ ((':' :: rest).take (1024 - 1 - name.length)).head?,
      (!(c == '\r' || c == '\n' || [':'].contains c)) = false := by
    intro c hc
    cases hn : 1024 - 1 - name.length with
    | zero =>
      rw [hn] at hc
      cases hc
    | succ k =>
      rw [hn] at hc
      cases hc
      rfl
  rw [(while_append (fun c hc => hgo c (List.mem_of_mem_take hc)) hstop).1]

variable {l : FilterLine} {ls : List FilterLine} {m : Mail} {f : HeadField} {fs : List HeadField}

/-- A line is taken apart into its name and its text, as far as they fit. -/
theorem scan_field1_line {more : Text} (h : l.Wf) (hmore : l.eol = [] → more = []) :
    scan_field1 (l.name ++ ':' :: (l.blanks ++ (l.text ++ (l.eol ++ more)))) 1024 1024 =
      (l.field, l.aval) := by
  have hend : l.eol ++ more = [] ∨ (l.eol ++ more).head? = some '\n' ∨
      ((l.eol ++ more).head? = some '\r' ∧ (l.eol ++ more).tail.head? = some '\n') := by
    rcases h.eol with he | he | he
    · exact .inl (by rw [he, hmore he]; rfl)
    · exact .inr (.inl (by rw [he]; rfl))
    · exact .inr (.inr (by rw [he]; exact ⟨rfl, rfl⟩))
  have hstop : ∀ c ∈ (l.text ++ (l.eol ++ more)).head?, isBlank c = false := by
    intro c hc
    cases ht : l.text with
    | cons d t =>
      rw [ht] at hc
      exact h.text_head c (by rw [ht]; exact hc)
    | nil =>
      rw [ht, List.nil_append] at hc
      rcases hend with he | he | he
      · rw [he] at hc
        cases hc
      · rw [he] at hc
        cases hc
        rfl
      · rw [he.1] at hc
        cases hc
        rfl
  have hvalue : url.linescanX ((l.blanks ++ (l.text ++ (l.eol ++ more))).dropWhile isBlank) 1024 =
      l.text.take 1023 := by
    have hskip : (l.text ++ (l.eol ++ more)).dropWhile isBlank = l.text ++ (l.eol ++ more) :=
      (@while_append _ [] _ (fun c hc => by cases hc) hstop).2
    unfold url.linescanX
    rw [(while_append h.blanks hstop).2]
    exact (congrArg (url.copyLine 1023) hskip).trans (copyLine_text 1023 h.text_line hend)
  unfold scan_field1 FilterLine.field FilterLine.aval
  rw [paramscanX_name h.name h.name_cr]
  dsimp only
  rw [Prod.mk.injEq]
  refine ⟨rfl, ?_⟩
  by_cases hlen : l.name.length < 1024
  · rw [List.take_of_length_le (by omega), List.drop_left, List.head?_cons, List.tail_cons, if_pos rfl,
      if_pos hlen, hvalue]
  · have hget : (l.name.drop 1023).head? ≠ some ':' := by
      intro hcolon
      exact (h.name.chars ':' (List.mem_of_mem_drop (List.mem_of_head? hcolon))).1 rfl
    have hne : l.name.drop 1023 ≠ [] := by
      rw [← List.length_pos_iff, List.length_drop]
      omega
    rw [List.length_take, Nat.min_eq_left (by omega), List.drop_append_of_le_length (by omega),
      List.head?_append_of_ne_nil _ hne, if_neg hget, if_neg hlen]

/-- A word that a line of a specification begins with. -/
structure Word (word : Text) : Prop where
  nonempty : word ≠ []
  line : '\n' ∉ word
  begins : ∀ c ∈ word.head?, isBlank c = false ∧ c ≠ '\r'

theorem passWord_word : Word passWord := ⟨by simp [passWord], by simp [passWord], by simp [passWord, isBlank]⟩

theorem removeWord_word : Word removeWord :=
  ⟨by simp [removeWord], by simp [removeWord], by simp [removeWord, isBlank]⟩

theorem nextField_top {word : Text} (h : Word word) (ls : List FilterLine) :
    nextField.loop true true (specText word ls) = specText word ls := by
  cases ls with
  | nil => rfl
  | cons l ls =>
    obtain ⟨c, w, rfl⟩ := List.exists_cons_of_ne_nil h.nonempty
    obtain ⟨hblank, hcr⟩ := h.begins c rfl
    have hnl : c ≠ '\n' := fun heq => h.line (by rw [heq]; exact List.mem_cons_self)
    have hno : ¬(c = ' ' ∨ c = '\t') := by simpa [isBlank] using hblank
    unfold specText FilterLine.spec
    rw [List.flatMap_cons, List.cons_append, List.cons_append, nextField.loop, if_neg hno,
      if_pos (.inr ⟨hnl, hcr⟩)]

theorem nextField_end {l : Text} (hl : '\n' ∉ l) : nextField.loop true false l = [] := by
  induction l with
  | nil => rfl
  | cons c l ih =>
    obtain ⟨hc, hl⟩ := List.ne_and_not_mem_of_not_mem_cons hl
    have hnl : (c == '\n') = false := by simpa using Ne.symm hc
    rw [nextField.loop, hnl, ih hl]

theorem FilterLine.Wf.spec_line (h : l.Wf) {word : Text} (hw : Word word) :
    '\n' ∉ word ++ (l.name ++ ':' :: (l.blanks ++ l.text)) := by
  have hblanks : '\n' ∉ l.blanks := fun hmem => by cases h.blanks _ hmem
  have htext : '\n' ∉ l.text := fun hmem => (h.text_line _ hmem).2 rfl
  simp [hw.line, h.name.no_end, hblanks, htext]

/-- The next line begins behind a line. -/
theorem nextField_spec {word : Text} (hw : Word word) (h : l.Wf) (hlast : l.eol = [] → ls = []) :
    nextField (l.spec word ++ specText word ls) true = specText word ls := by
  have hline := h.spec_line hw
  have hspec : ∀ e : Text, word ++ (l.name ++ ':' :: (l.blanks ++ (l.text ++ e))) =
      word ++ (l.name ++ ':' :: (l.blanks ++ l.text)) ++ e := by
    intro e
    simp
  unfold nextField FilterLine.spec
  rcases h.eol with he | he | he
  · rw [hlast he, he, List.append_nil]
    exact (congrArg _ (List.append_nil _)).trans (nextField_end hline)
  · rw [he, hspec, List.append_assoc, List.singleton_append, nextField_line _ hline, nextField_top hw]
  · have hcr : '\n' ∉ word ++ (l.name ++ ':' :: (l.blanks ++ l.text)) ++ ['\r'] := by
      rw [List.mem_append, not_or]
      exact ⟨hline, by simp⟩
    have hsplit : word ++ (l.name ++ ':' :: (l.blanks ++ l.text)) ++ ['\r', '\n'] ++ specText word ls =
        word ++ (l.name ++ ':' :: (l.blanks ++ l.text)) ++ ['\r'] ++ '\n' :: specText word ls := by
      simp
    rw [he, hspec, hsplit, nextField_line _ hcr, nextField_top hw]

/-- Each line is visited once, with its name and its text. -/
theorem specPlaces_lines {word : Text} (hw : Word word) (h : SpecWf ls) :
    List.Forall₂ (fun sp l => (∃ rest, sp = word ++ rest) ∧
      scan_field1 (sp.drop word.length) 1024 1024 = (l.field, l.aval))
      (specPlaces (specText word ls)) ls := by
  induction ls with
  | nil =>
    rw [specText, List.flatMap_nil, specPlaces]
    exact .nil
  | cons l ls ih =>
    have hl := h.lines l List.mem_cons_self
    have hrest : SpecWf ls := ⟨fun x hx => h.lines x (List.mem_cons_of_mem _ hx), h.ends.tail⟩
    have hlast : l.eol = [] → ls = [] := by
      intro he
      cases ls with
      | nil => rfl
      | cons l' ls => exact absurd he (List.isChain_cons_cons.mp h.ends).1
    have htext : specText word (l :: ls) = l.spec word ++ specText word ls := List.flatMap_cons
    have hne : specText word (l :: ls) ≠ [] := by
      rw [htext]
      unfold FilterLine.spec
      simp
    rw [specPlaces, dif_neg hne, htext, nextField_spec hw hl hlast]
    refine .cons ⟨⟨_, by unfold FilterLine.spec; rw [List.append_assoc]⟩, ?_⟩ (ih hrest)
    unfold FilterLine.spec
    rw [List.append_assoc, List.drop_left]
    have hassoc : l.name ++ ':' :: (l.blanks ++ (l.text ++ l.eol)) ++ specText word ls =
        l.name ++ ':' :: (l.blanks ++ (l.text ++ (l.eol ++ specText word ls))) := by
      simp
    rw [hassoc]
    exact scan_field1_line hl fun he => by rw [hlast he]; rfl

/-! ## Fields of a message -/

theorem Mail.behind_cons (m : Mail) (f : HeadField) (fs : List HeadField) :
    m.behind (f :: fs) = flat '\n' f.lines ++ m.behind fs := by
  unfold Mail.behind
  rw [List.flatMap_cons, flat_append, List.append_assoc]

theorem Mail.places_cons (m : Mail) (f : HeadField) (fs : List HeadField) :
    m.places (f :: fs) = (f, m.behind fs) :: m.places fs := rfl

theorem Mail.text_eq_behind (m : Mail) : m.text = m.behind m.fields := rfl

/-- The next field begins behind a field. -/
theorem nextField_field (hm : m.Wf) (hf : f.Wf) (hfs : ∀ x ∈ fs, x.Wf) :
    nextField (m.behind (f :: fs)) false = m.behind fs := by
  obtain ⟨c, t, hrest, hc⟩ := rest_head hm hfs
  have hbehind : m.behind fs = c :: t := hrest
  rw [m.behind_cons, HeadField.lines, flat_cons, List.append_assoc, List.cons_append, hbehind]
  unfold nextField
  rw [nextField_line _ hf.line_no_end, nextField_conts hf.conts hc]

/-- The header does not end at a field. -/
theorem endsHeader_field (hf : f.Wf) : endsHeader (m.behind (f :: fs)) = false := by
  obtain ⟨d, t, hd, hline⟩ := f.line_eq
  obtain ⟨c, name, hname⟩ := List.exists_cons_of_ne_nil hf.name.nonempty
  have hmem : ∀ e ∈ c :: name, e ≠ '\n' ∧ e ≠ '\r' := by
    intro e he
    rw [← hname] at he
    exact ⟨(hf.name.chars e he).2.2.2, fun heq => hf.name_cr (heq ▸ he)⟩
  have hc := hmem c List.mem_cons_self
  have hnext : ∀ e ∈ (name ++ d :: t).head?, e ≠ '\n' ∧ e ≠ '\r' := by
    intro e he
    cases name with
    | nil =>
      cases he
      rcases hd with rfl | rfl <;> simp
    | cons e' name =>
      cases he
      exact hmem e (by simp)
  rw [m.behind_cons, HeadField.lines, flat_cons, hline, hname]
  unfold endsHeader
  rw [List.append_assoc, List.append_assoc, List.cons_append, List.cons_append, List.head?_cons,
    List.tail_cons, ← List.cons_append, ← List.append_assoc]
  have hhead : (name ++ d :: t ++ '\n' :: flat '\n' f.conts ++ m.behind fs).head? =
      (name ++ d :: t).head? := by
    rw [List.append_assoc, List.head?_append_of_ne_nil _ (by simp)]
  simp only [List.append_assoc, List.cons_append] at hhead ⊢
  rw [hhead]
  cases hh : (name ++ d :: t).head? with
  | none => simp [hc]
  | some e =>
    have he := hnext e hh
    simp [hc, he]

theorem endsHeader_rest (hm : m.Wf) : endsHeader (m.behind []) = true := by
  unfold Mail.behind
  rcases hm.empty with he | he <;> rw [he] <;> rfl

/-- A text of one line that is found in two parts is in one of them. -/
theorem strstr_line {pat a b : Text} (h : '\n' ∉ pat) :
    (strstr pat (a ++ '\n' :: b)).isSome = ((strstr pat a).isSome || (strstr pat b).isSome) := by
  rw [Bool.eq_iff_iff, Bool.or_eq_true, strstr_isSome_iff, strstr_isSome_iff, strstr_isSome_iff]
  constructor
  · rintro ⟨u, v, huv⟩
    rw [List.append_assoc] at huv
    rcases List.append_eq_append_iff.mp huv with ⟨w, ha, hw⟩ | ⟨w, hu, hw⟩
    · rcases List.append_eq_append_iff.mp hw with ⟨x, hx, hv⟩ | ⟨x, hpat, hx⟩
      · exact .inl ⟨u, x, by rw [ha, hx, List.append_assoc]⟩
      · cases x with
        | nil =>
          rw [List.append_nil] at hpat
          exact .inl ⟨u, [], by rw [ha, hpat, List.append_nil]⟩
        | cons c x =>
          rw [List.cons_append, List.cons.injEq] at hx
          exact absurd (by rw [hpat, ← hx.1]; simp) h
    · cases w with
      | nil =>
        cases pat with
        | nil => exact .inr (List.nil_infix)
        | cons c pat =>
          rw [List.nil_append, List.cons_append, List.cons.injEq] at hw
          exact absurd (by rw [hw.1]; exact List.mem_cons_self) h
      | cons c w =>
        rw [List.cons_append, List.cons.injEq] at hw
        exact .inr ⟨w, v, by rw [hw.2, List.append_assoc]⟩
  · rintro (hi | hi)
    · exact hi.trans (List.prefix_append a _).isInfix
    · exact hi.trans ⟨a ++ ['\n'], [], by simp⟩

theorem strstr_lines {pat : Text} (ls : List Text) (rest : Text) (h : '\n' ∉ pat) :
    (strstr pat (flat '\n' ls ++ rest)).isSome =
      ((ls.any fun v => (strstr pat v).isSome) || (strstr pat rest).isSome) := by
  induction ls with
  | nil => rfl
  | cons l ls ih =>
    rw [flat_cons, List.append_assoc, List.cons_append, strstr_line h, ih, List.any_cons, Bool.or_assoc]

theorem FilterLine.Wf.aval (h : l.Wf) : '\n' ∉ l.aval := by
  unfold FilterLine.aval
  split
  · exact fun hmem => (h.text_line _ (List.mem_of_mem_take hmem)).2 rfl
  · exact List.not_mem_nil

theorem FilterLine.Wf.field (h : l.Wf) : FieldName l.field := by
  refine ⟨?_, fun c hc => h.name.chars c (List.mem_of_mem_take hc)⟩
  obtain ⟨c, name, hname⟩ := List.exists_cons_of_ne_nil h.name.nonempty
  unfold FilterLine.field
  rw [hname]
  simp

/-- The name and a colon are at a field. -/
theorem named_field {field rest : Text} (hf : f.Wf) (h : FieldName field) :
    (strncaseeq (f.line ++ '\n' :: rest) field field.length &&
        ((f.line ++ '\n' :: rest).drop field.length).head? == some ':') =
      (f.before == 0 && f.is field) := by
  have hat : atField (f.line ++ '\n' :: rest) field = f.is field := by
    rw [atField_line h, atField_lineOf hf h]
  cases his : f.is field with
  | false =>
    rw [his] at hat
    unfold atField at hat
    rw [Bool.and_false, Bool.eq_false_iff]
    intro hboth
    rw [Bool.and_eq_true] at hboth
    rw [hboth.1, hboth.2] at hat
    cases hat
  | true =>
    rw [his] at hat
    unfold atField at hat
    rw [Bool.and_eq_true] at hat
    have hlen : field.length = f.name.length := (length_of_strcaseeq his).symm
    rw [hat.1, Bool.true_and, Bool.and_true]
    unfold HeadField.line
    rw [hlen, List.append_assoc, List.drop_left]
    cases hb : f.before with
    | zero => rfl
    | succ k => rfl

/-- The test of a line at a field. -/
theorem matchField_field (hl : l.Wf) (hf : f.Wf) :
    matchField (m.behind (f :: fs)) l.field l.aval = l.sees (f, m.behind fs) := by
  unfold matchField FilterLine.sees
  have hsplit : m.behind (f :: fs) = f.line ++ '\n' :: (flat '\n' f.conts ++ m.behind fs) := by
    rw [m.behind_cons, HeadField.lines, flat_cons, List.append_assoc, List.cons_append]
  rw [hsplit, named_field hf hl.field]
  dsimp only
  by_cases hnamed : (f.before == 0 && f.is l.field) = true
  · rw [hnamed, Bool.true_and, Bool.true_and]
    rw [Bool.and_eq_true, beq_iff_eq] at hnamed
    have hlen : l.field.length + 1 = (f.name ++ [':']).length := by
      rw [List.length_append, List.length_singleton, length_of_strcaseeq hnamed.2]
    have hline : f.line = f.name ++ [':'] ++ (List.replicate f.after ' ' ++ f.value) := by
      unfold HeadField.line
      rw [hnamed.1]
      simp
    have hvalue : ((f.line ++ '\n' :: (flat '\n' f.conts ++ m.behind fs)).drop (l.field.length + 1)) =
        flat '\n' f.valueLines ++ m.behind fs := by
      rw [hline, hlen, List.append_assoc, List.drop_left, HeadField.valueLines, flat_cons]
      simp only [List.append_assoc, List.cons_append]
    rw [hvalue, strstr_lines _ _ hl.aval]
  · rw [Bool.not_eq_true] at hnamed
    rw [hnamed, Bool.false_and, Bool.false_and]

theorem upto_field (m : Mail) (f : HeadField) (fs : List HeadField) :
    upto (m.behind (f :: fs)) (m.behind fs) = flat '\n' f.lines := by
  rw [m.behind_cons, upto_append]

theorem behind_ne_nil (m : Mail) (fs : List HeadField) : m.behind fs ≠ [] := by
  unfold Mail.behind
  simp

/-! ## One line of a specification -/

/-- The fields that a line puts. -/
theorem pass_behind (hm : m.Wf) (hl : l.Wf) (hfs : ∀ f ∈ fs, f.Wf) (hne : fs ≠ []) :
    filterFields.pass l.field l.aval (m.behind fs) =
      flat '\n' ((((m.places fs).filter l.sees).map Prod.fst).flatMap HeadField.lines) := by
  induction fs with
  | nil => exact absurd rfl hne
  | cons f fs ih =>
    have hf := hfs f List.mem_cons_self
    have hrest : ∀ x ∈ fs, x.Wf := fun x hx => hfs x (List.mem_cons_of_mem _ hx)
    have hhere : (if l.sees (f, m.behind fs) then flat '\n' f.lines else []) =
        flat '\n' (((([(f, m.behind fs)] : List (HeadField × Text)).filter l.sees).map
          Prod.fst).flatMap HeadField.lines) := by
      cases hs : l.sees (f, m.behind fs) <;> simp [hs]
    have hsplit : m.places (f :: fs) = [(f, m.behind fs)] ++ m.places fs := m.places_cons f fs
    rw [filterFields.pass, dif_neg (behind_ne_nil m _)]
    dsimp only
    rw [nextField_field hm hf hrest, matchField_field hl hf, upto_field, hhere, hsplit, List.filter_append, List.map_append,
      List.flatMap_append, flat_append]
    cases hfs' : fs with
    | nil =>
      rw [endsHeader_rest hm, if_pos rfl]
      exact (List.append_nil _).symm
    | cons g gs =>
      rw [endsHeader_field (hrest g (by rw [hfs']; exact List.mem_cons_self)), if_neg (by simp), ← hfs',
        ih hrest (by rw [hfs']; simp)]

/-- The fields that a line leaves. -/
def FilterLine.leaves (m : Mail) (l : FilterLine) (fs : List HeadField) : List HeadField :=
  ((m.places fs).filter fun p => !l.sees p).map Prod.fst

theorem remove_behind (hm : m.Wf) (hl : l.Wf) (hfs : ∀ f ∈ fs, f.Wf) (hne : fs ≠ []) :
    filterFields.remove l.field l.aval (m.behind fs) = m.behind (l.leaves m fs) := by
  induction fs with
  | nil => exact absurd rfl hne
  | cons f fs ih =>
    have hf := hfs f List.mem_cons_self
    have hrest : ∀ x ∈ fs, x.Wf := fun x hx => hfs x (List.mem_cons_of_mem _ hx)
    have hleaves : m.behind (l.leaves m (f :: fs)) =
        (if l.sees (f, m.behind fs) then [] else flat '\n' f.lines) ++ m.behind (l.leaves m fs) := by
      unfold FilterLine.leaves
      rw [m.places_cons]
      cases hs : l.sees (f, m.behind fs) with
      | true => rw [List.filter_cons_of_neg (by simp [hs])]; rfl
      | false =>
        rw [List.filter_cons_of_pos (by simp [hs]), List.map_cons, m.behind_cons]
        rfl
    rw [filterFields.remove, dif_neg (behind_ne_nil m _)]
    dsimp only
    rw [nextField_field hm hf hrest, matchField_field hl hf, upto_field, hleaves]
    cases hfs' : fs with
    | nil =>
      rw [endsHeader_rest hm, if_pos rfl]
      rfl
    | cons g gs =>
      rw [endsHeader_field (hrest g (by rw [hfs']; exact List.mem_cons_self)), if_neg (by simp), ← hfs',
        ih hrest (by rw [hfs']; simp)]

/-! ## The fields that make up a text -/

theorem replicate_blank_inj {n k : Nat} {s t : Text} (hs : s.head? ≠ some ' ')
    (ht : t.head? ≠ some ' ') (h : List.replicate n ' ' ++ s = List.replicate k ' ' ++ t) :
    n = k ∧ s = t := by
  have hst : s = t := by
    rw [← dropWhile_blanks n hs, h, dropWhile_blanks k ht]
  have hlen := congrArg List.length h
  rw [List.length_append, List.length_append, List.length_replicate, List.length_replicate, hst] at hlen
  exact ⟨by omega, hst⟩

theorem HeadField.line_inj {g : HeadField} (hf : f.Wf) (hg : g.Wf) (h : f.line = g.line) :
    f.name = g.name ∧ f.before = g.before ∧ f.after = g.after ∧ f.value = g.value := by
  have hname : ∀ {f : HeadField}, f.Wf →
      f.line.takeWhile (fun c => !(c == ':' || c == ' ')) = f.name := by
    intro f hf
    obtain ⟨c, t, hc, hline⟩ := f.line_eq
    have hgo : ∀ d ∈ f.name, (!(d == ':' || d == ' ')) = true := by
      intro d hd
      obtain ⟨hcolon, hblank, -, -⟩ := hf.name.chars d hd
      simp [hcolon, hblank]
    rw [hline]
    refine (@while_append _ _ (c :: t) hgo fun d hd => ?_).1
    cases hd
    rcases hc with rfl | rfl <;> rfl
  have hnames : f.name = g.name := by rw [← hname hf, h, hname hg]
  unfold HeadField.line at h
  rw [hnames] at h
  obtain ⟨hbefore, htail⟩ := replicate_blank_inj (by simp) (by simp) (List.append_cancel_left h)
  obtain ⟨hafter, hvalue⟩ := replicate_blank_inj hf.value_head hg.value_head (List.cons.inj htail).2
  exact ⟨hnames, hbefore, hafter, hvalue⟩

/-- The first line of a field does not continue another. -/
theorem HeadField.Wf.first (hf : f.Wf) : isCont f.line = false := by
  obtain ⟨d, t, -, hline⟩ := f.line_eq
  obtain ⟨c, name, hname⟩ := List.exists_cons_of_ne_nil hf.name.nonempty
  obtain ⟨-, hsp, htab, -⟩ := hf.name.chars c (by rw [hname]; exact List.mem_cons_self)
  rw [hline, hname]
  unfold isCont
  simp [hsp, htab]

theorem fields_inj {gs : List HeadField} (hfs : ∀ f ∈ fs, f.Wf) (hgs : ∀ g ∈ gs, g.Wf)
    (h : fs.flatMap HeadField.lines = gs.flatMap HeadField.lines) : fs = gs := by
  have hcont : ∀ {f : HeadField} {fs : List HeadField}, f.Wf → (∀ x ∈ fs, x.Wf) →
      (f.conts ++ fs.flatMap HeadField.lines).takeWhile isCont = f.conts ∧
        (f.conts ++ fs.flatMap HeadField.lines).dropWhile isCont = fs.flatMap HeadField.lines := by
    intro f fs hf hfs
    rw [List.takeWhile_append_of_pos fun l hl => (hf.conts l hl).1,
      List.dropWhile_append_of_pos fun l hl => (hf.conts l hl).1]
    cases fs with
    | nil => simp
    | cons g fs =>
      rw [List.flatMap_cons, HeadField.lines, List.cons_append,
        List.takeWhile_cons_of_neg (by simp [(hfs g List.mem_cons_self).first]),
        List.dropWhile_cons_of_neg (by simp [(hfs g List.mem_cons_self).first]), List.append_nil]
      exact ⟨rfl, rfl⟩
  induction fs generalizing gs with
  | nil =>
    cases gs with
    | nil => rfl
    | cons g gs => cases h
  | cons f fs ih =>
    cases gs with
    | nil => cases h
    | cons g gs =>
      have hf := hfs f List.mem_cons_self
      have hg := hgs g List.mem_cons_self
      have hfrest : ∀ x ∈ fs, x.Wf := fun x hx => hfs x (List.mem_cons_of_mem _ hx)
      have hgrest : ∀ x ∈ gs, x.Wf := fun x hx => hgs x (List.mem_cons_of_mem _ hx)
      rw [List.flatMap_cons, List.flatMap_cons, HeadField.lines, HeadField.lines, List.cons_append,
        List.cons_append, List.cons.injEq] at h
      obtain ⟨hft, hfd⟩ := hcont hf hfrest
      obtain ⟨hgt, hgd⟩ := hcont hg hgrest
      rw [h.2] at hft hfd
      have hconts : f.conts = g.conts := hft.symm.trans hgt
      have hrest : fs = gs := ih hfrest hgrest (hfd.symm.trans hgd)
      obtain ⟨hname, hbefore, hafter, hvalue⟩ := HeadField.line_inj hf hg h.1
      obtain ⟨n, b, a, v, c⟩ := f
      obtain ⟨n', b', a', v', c'⟩ := g
      dsimp only at hname hbefore hafter hvalue hconts
      rw [hname, hbefore, hafter, hvalue, hconts, hrest]

theorem behind_inj {gs : List HeadField} (hfs : ∀ f ∈ fs, f.Wf) (hgs : ∀ g ∈ gs, g.Wf)
    (h : m.behind fs = m.behind gs) : fs = gs := by
  have hline : ∀ {fs : List HeadField}, (∀ f ∈ fs, f.Wf) →
      ∀ l ∈ fs.flatMap HeadField.lines, '\n' ∉ l := by
    intro fs hfs l hl
    obtain ⟨f, hf, hmem⟩ := List.mem_flatMap.mp hl
    exact (hfs f hf).no_end l hmem
  exact fields_inj hfs hgs (flat_inj (hline hfs) (hline hgs) (List.append_cancel_right h))

theorem behind_filter_length (m : Mail) (keep : HeadField → Bool) (fs : List HeadField) :
    (m.behind (fs.filter keep)).length ≤ (m.behind fs).length := by
  induction fs with
  | nil => exact Nat.le_refl _
  | cons f fs ih =>
    rw [List.filter_cons]
    split
    · rw [m.behind_cons, m.behind_cons, List.length_append, List.length_append]
      omega
    · rw [m.behind_cons, List.length_append]
      omega

theorem places_fst (m : Mail) (fs : List HeadField) : (m.places fs).map Prod.fst = fs := by
  induction fs with
  | nil => rfl
  | cons f fs ih => rw [m.places_cons, List.map_cons, ih]

theorem mem_of_places {p : HeadField × Text} (h : p ∈ m.places fs) : p.1 ∈ fs := by
  have hmem := List.mem_map_of_mem (f := Prod.fst) h
  rwa [places_fst] at hmem

/-- The fields at the places that a test of the field picks. -/
theorem places_filter (m : Mail) (keep : HeadField → Bool) (fs : List HeadField) :
    ((m.places fs).filter fun p => keep p.1).map Prod.fst = fs.filter keep := by
  have hmap := @List.filter_map _ _ Prod.fst keep (m.places fs)
  rw [places_fst] at hmap
  exact hmap.symm

/-! ## What a line leaves -/

/-- A line leaves the fields that it does not select exactly if its test is about the own value of each
field. -/
theorem leaves_eq_iff :
    (l.leaves m fs = fs.filter fun f => !l.selects f) ↔
      ∀ p ∈ m.places fs, l.sees p = l.selects p.1 := by
  have hplaces := places_filter m (fun f => !l.selects f) fs
  unfold FilterLine.leaves
  constructor
  · intro h
    have himp : ∀ p ∈ m.places fs, (!l.sees p) = true → (!l.selects p.1) = true := by
      intro p hp hsees
      have hmem : p.1 ∈ ((m.places fs).filter fun p => !l.sees p).map Prod.fst :=
        List.mem_map_of_mem (List.mem_filter.mpr ⟨hp, hsees⟩)
      rw [h] at hmem
      exact (List.mem_filter.mp hmem).2
    have hcount : (m.places fs).countP (fun p => !l.sees p) =
        (m.places fs).countP fun p => !l.selects p.1 := by
      rw [← hplaces] at h
      have hlen := congrArg List.length h
      rwa [List.length_map, List.length_map, ← List.countP_eq_length_filter,
        ← List.countP_eq_length_filter] at hlen
    intro p hp
    exact (Bool.not_inj (countP_eq_imp himp hcount p hp)).symm
  · intro h
    rw [← hplaces]
    exact congrArg _ (List.filter_congr fun p hp => by rw [h p hp])

theorem nextField_loop_suffix (ignEOH top : Bool) (np : Text) : nextField.loop ignEOH top np <:+ np := by
  fun_induction nextField.loop ignEOH top np with
  | case1 => exact List.suffix_rfl
  | case2 nc np hblank ih => exact ih.trans (List.suffix_cons ..)
  | case3 => exact List.suffix_rfl
  | case4 nc np hblank hend ih => exact ih.trans (List.suffix_cons ..)
  | case5 nc np ih => exact ih.trans (List.suffix_cons ..)

theorem upto_nextField (hp : Text) : upto hp (nextField hp false) ++ nextField hp false = hp := by
  have hsplit : ∀ {s np : Text}, np <:+ s → upto s np ++ np = s := by
    rintro s np ⟨u, rfl⟩
    rw [upto_append]
  exact hsplit (nextField_loop_suffix false false hp)

/-- The places where a field is looked for. -/
inductive Visits : Text → Text → Prop
  | here {hp : Text} : hp ≠ [] → Visits hp hp
  | next {hp x : Text} : hp ≠ [] → endsHeader (nextField hp false) = false →
      Visits (nextField hp false) x → Visits hp x

/-- What is left of a field, with the text behind it, is not longer than the text. -/
theorem kept_length (b : Bool) (hp : Text) :
    (if b then [] else upto hp (nextField hp false)).length + (nextField hp false).length ≤
      hp.length := by
  have hsplit := congrArg List.length (upto_nextField hp)
  rw [List.length_append] at hsplit
  cases b
  · exact hsplit.le
  · exact hsplit ▸ Nat.add_le_add_right (Nat.zero_le _) _

theorem remove_length (field aval hp : Text) :
    (filterFields.remove field aval hp).length ≤ hp.length := by
  fun_induction filterFields.remove field aval hp with
  | case1 => exact Nat.le_refl _
  | case2 hp hne tp out hend =>
    rw [List.length_append]
    exact kept_length (matchField hp field aval) hp
  | case3 hp hne tp out hend ih =>
    rw [List.length_append]
    exact (Nat.add_le_add_left ih _).trans (kept_length (matchField hp field aval) hp)

/-- A text is left as it is exactly if no place that is visited is taken for a field. -/
theorem remove_eq_self_iff (field aval hp : Text) :
    filterFields.remove field aval hp = hp ↔ ∀ x, Visits hp x → matchField x field aval = false := by
  induction hlen : hp.length using Nat.strong_induction_on generalizing hp with
  | _ n ih =>
    by_cases hnil : hp = []
    · rw [hnil, filterFields.remove, dif_pos rfl]
      refine iff_of_true rfl fun x hx => ?_
      cases hx with
      | here h => exact absurd rfl h
      | next h => exact absurd rfl h
    · have hlt := nextField_length false hnil
      have hsplit := upto_nextField hp
      rw [filterFields.remove, dif_neg hnil]
      dsimp only
      cases hmatch : matchField hp field aval with
      | true =>
        refine iff_of_false ?_ fun h => ?_
        · rw [if_pos rfl]
          intro heq
          have hle : (if endsHeader (nextField hp false) = true then [] ++ nextField hp false
              else [] ++ filterFields.remove field aval (nextField hp false)).length < hp.length := by
            split
            · exact hlt
            · exact Nat.lt_of_le_of_lt (remove_length ..) hlt
          rw [heq] at hle
          exact Nat.lt_irrefl _ hle
        · rw [h hp (.here hnil)] at hmatch
          cases hmatch
      | false =>
        rw [if_neg Bool.false_ne_true]
        cases hend : endsHeader (nextField hp false) with
        | true =>
          rw [if_pos rfl, hsplit]
          refine iff_of_true rfl fun x hx => ?_
          cases hx with
          | here => exact hmatch
          | next _ hno => rw [hend] at hno; cases hno
        | false =>
          rw [if_neg Bool.false_ne_true]
          have hrest := ih _ (hlen ▸ hlt) (nextField hp false) rfl
          have hself : upto hp (nextField hp false) ++
              filterFields.remove field aval (nextField hp false) = hp ↔
              filterFields.remove field aval (nextField hp false) = nextField hp false := by
            constructor
            · intro heq
              exact List.append_cancel_left (heq.trans hsplit.symm)
            · intro heq
              rw [heq, hsplit]
          rw [hself, hrest]
          constructor
          · intro h x hx
            cases hx with
            | here => exact hmatch
            | next _ _ hx => exact h x hx
          · exact fun h x hx => h x (.next hnil hend hx)

/-! ## Specifications with lines of one kind -/

theorem passWord_at (rest : Text) : strncaseeq (passWord ++ rest) passWord 5 = true := rfl

theorem removeWord_at (rest : Text) : strncaseeq (removeWord ++ rest) removeWord 7 = true := rfl

theorem removeWord_not_pass (rest : Text) : strncaseeq (removeWord ++ rest) passWord 5 = false := rfl

/-- With lines for `Pass`, each puts its fields. -/
theorem filterFields_pass (h : SpecWf ls) (hne : ls ≠ []) (head : Text) :
    filterFields (specText passWord ls) head =
      let out := (ls.flatMap fun l => filterFields.pass l.field l.aval head) ++ strSeekEOH true head
      if out.length ≤ head.length then some out else none := by
  have hplaces := specPlaces_lines passWord_word h
  unfold filterFields
  generalize specPlaces (specText passWord ls) = sps at hplaces
  have hany : (sps.any fun sp => strncaseeq sp passWord 5) = true := by
    cases hplaces with
    | nil => exact absurd rfl hne
    | cons hsp _ =>
      obtain ⟨⟨rest, rfl⟩, -⟩ := hsp
      rw [List.any_cons, passWord_at, Bool.true_or]
  have hput : (sps.flatMap fun sp =>
      if strncaseeq sp passWord 5 then
        filterFields.pass (scan_field1 (sp.drop 5) 1024 1024).1 (scan_field1 (sp.drop 5) 1024 1024).2 head
      else []) = ls.flatMap fun l => filterFields.pass l.field l.aval head := by
    clear hany h hne
    induction hplaces with
    | nil => rfl
    | cons hsp _ ih =>
      obtain ⟨⟨rest, rfl⟩, hscan⟩ := hsp
      rw [List.flatMap_cons, List.flatMap_cons, passWord_at, if_pos rfl, ih]
      have hscan' : scan_field1 ((passWord ++ rest).drop 5) 1024 1024 = _ := hscan
      rw [hscan']
  dsimp only
  rw [if_pos hany, hput]

/-- With lines for `Remove`, each removes its fields from what the lines before it have left. -/
theorem filterFields_remove (h : SpecWf ls) (head : Text) :
    filterFields (specText removeWord ls) head =
      some (ls.foldl (fun head l => filterFields.remove l.field l.aval head) head) := by
  have hplaces := specPlaces_lines removeWord_word h
  unfold filterFields
  generalize specPlaces (specText removeWord ls) = sps at hplaces
  have hany : (sps.any fun sp => strncaseeq sp passWord 5) = false := by
    clear h
    induction hplaces with
    | nil => rfl
    | cons hsp _ ih =>
      obtain ⟨⟨rest, rfl⟩, -⟩ := hsp
      rw [List.any_cons, removeWord_not_pass, ih]
      rfl
  dsimp only
  rw [hany, if_neg Bool.false_ne_true, Option.some.injEq]
  clear hany h
  induction hplaces generalizing head with
  | nil => rfl
  | cons hsp _ ih =>
    obtain ⟨⟨rest, rfl⟩, hscan⟩ := hsp
    have hscan' : scan_field1 ((removeWord ++ rest).drop 7) 1024 1024 = _ := hscan
    rw [List.foldl_cons, List.foldl_cons, removeWord_at, if_pos rfl, hscan', ih]

/-! ## Messages that are filtered -/

/-- The specification makes one message of the other, which is not longer. -/
structure Filters (spec : Text) (m m' : Mail) : Prop where
  text : filterFields spec m.text = some m'.text
  length : m'.text.length ≤ m.text.length

/-- Each line is about the own value of a field, and no field that a later line selects is at or before one
that an earlier line selects. -/
structure PassesOwn (ls : List FilterLine) (m : Mail) : Prop where
  own : ∀ l ∈ ls, ∀ p ∈ m.places m.fields, l.sees p = l.selects p.1
  ordered : Ordered FilterLine.selects ls m.fields

/-- Each line is about the own values of the fields that the lines before it do not select; where there is
none left, nothing in the body is taken for one. -/
def RemovesOwn (ls : List FilterLine) (m : Mail) : Prop :=
  ∀ as l bs, ls = as ++ l :: bs →
    (∀ p ∈ m.places (m.fields.filter fun f => !selected as f), l.sees p = l.selects p.1) ∧
      ((m.fields.filter fun f => !selected as f) = [] →
        ∀ x, Visits (m.behind []) x → matchField x l.field l.aval = false)

theorem restricted_length (m : Mail) (keep : HeadField → Bool) :
    (m.restricted keep).text.length ≤ m.text.length := behind_filter_length m keep m.fields

theorem strSeekEOH_behind (hm : m.Wf) : strSeekEOH true m.text = m.behind [] := strSeekEOH_text hm

/-- The fields that all lines put. -/
theorem pass_lines (hm : m.Wf) (hls : ∀ l ∈ ls, l.Wf) (hne : m.fields ≠ []) :
    (ls.flatMap fun l => filterFields.pass l.field l.aval m.text) ++ m.behind [] =
      m.behind ((picked FilterLine.sees ls (m.places m.fields)).map Prod.fst) := by
  have hput : (ls.flatMap fun l => filterFields.pass l.field l.aval m.text) =
      flat '\n' (((picked FilterLine.sees ls (m.places m.fields)).map Prod.fst).flatMap
        HeadField.lines) := by
    induction ls with
    | nil => rfl
    | cons l ls ih =>
      rw [List.flatMap_cons, picked_cons, List.map_append, List.flatMap_append, flat_append,
        ih fun x hx => hls x (List.mem_cons_of_mem _ hx), m.text_eq_behind,
        pass_behind hm (hls l List.mem_cons_self) hm.fields hne]
  rw [hput]
  unfold Mail.behind
  rw [List.flatMap_nil, flat_nil, List.nil_append]

theorem mem_picked_fields (h : f ∈ (picked FilterLine.sees ls (m.places m.fields)).map Prod.fst) :
    f ∈ m.fields ∧ ∃ l ∈ ls, f.before = 0 ∧ f.is l.field = true := by
  obtain ⟨p, hp, rfl⟩ := List.mem_map.mp h
  obtain ⟨hmem, hany⟩ := any_of_mem_picked hp
  obtain ⟨l, hl, hsees⟩ := List.any_eq_true.mp hany
  unfold FilterLine.sees at hsees
  rw [Bool.and_eq_true, Bool.and_eq_true, beq_iff_eq] at hsees
  exact ⟨mem_of_places hmem, l, hl, hsees.1⟩

theorem isSome_take {pat v : Text} (n : Nat) (h : (strstr pat v).isSome = true) :
    (strstr (pat.take n) v).isSome = true := by
  rw [strstr_isSome_iff] at h ⊢
  exact (List.take_prefix n pat).isInfix.trans h

/-- A field that is selected is seen, where its name fits and has the colon directly behind it. -/
theorem sees_of_selects {p : HeadField × Text} (h : l.selects p.1 = true) (hbefore : p.1.before = 0)
    (hname : p.1.name.length < 1024) : l.sees p = true := by
  unfold FilterLine.selects at h
  rw [Bool.and_eq_true] at h
  have hlen : l.name.length < 1024 := by
    rw [← length_of_strcaseeq h.1]
    exact hname
  unfold FilterLine.sees FilterLine.field FilterLine.aval
  rw [if_pos hlen, List.take_of_length_le (by omega), hbefore, h.1]
  obtain ⟨v, hv, hin⟩ := List.any_eq_true.mp h.2
  have hany : (p.1.valueLines.any fun v => (strstr (l.text.take 1023) v).isSome) = true :=
    List.any_eq_true.mpr ⟨v, hv, isSome_take 1023 hin⟩
  rw [hany]
  rfl

/-- The fields that the lines put are those that they select, in their order, exactly if each line is about
the own values and the lines are in the order of the fields. -/
theorem picked_fields_iff :
    (picked FilterLine.sees ls (m.places m.fields)).map Prod.fst = m.fields.filter (selected ls) ↔
      PassesOwn ls m := by
  have hfst : ∀ ls : List FilterLine,
      (picked (fun (l : FilterLine) (p : HeadField × Text) => l.selects p.1) ls
        (m.places m.fields)).map Prod.fst = picked FilterLine.selects ls m.fields := by
    intro ls
    induction ls with
    | nil => rfl
    | cons l ls ih =>
      rw [picked_cons, picked_cons, List.map_append, ih, places_filter m l.selects]
  have hsame : (∀ l ∈ ls, ∀ p ∈ m.places m.fields, l.sees p = l.selects p.1) →
      (picked FilterLine.sees ls (m.places m.fields)).map Prod.fst =
        picked FilterLine.selects ls m.fields := by
    intro h
    rw [← hfst]
    unfold picked
    congr 1
    exact List.flatMap_congr fun l hl => List.filter_congr (h l hl)
  constructor
  · intro h
    have hle : ∀ p ∈ m.places m.fields, ∀ l ∈ ls, l.selects p.1 = true → l.sees p = true := by
      intro p hp l hl hsel
      have hmem : p.1 ∈ m.fields.filter (selected ls) :=
        List.mem_filter.mpr ⟨mem_of_places hp, List.any_eq_true.mpr ⟨l, hl, hsel⟩⟩
      rw [← h] at hmem
      obtain ⟨-, l', -, hbefore, his⟩ := mem_picked_fields hmem
      have hlen := length_of_strcaseeq his
      unfold FilterLine.field at hlen
      rw [List.length_take] at hlen
      exact sees_of_selects hsel hbefore (by omega)
    have hlen : (picked FilterLine.sees ls (m.places m.fields)).length =
        (m.places m.fields).countP fun p => ls.any fun l => l.selects p.1 := by
      have hcount := congrArg List.length (h.trans (places_filter m (selected ls) m.fields).symm)
      rw [List.length_map, List.length_map, ← List.countP_eq_length_filter] at hcount
      exact hcount
    have hown : ∀ l ∈ ls, ∀ p ∈ m.places m.fields, l.sees p = l.selects p.1 := fun l hl p hp =>
      @same_of_length _ _ FilterLine.sees (fun l p => l.selects p.1) ls _ hle hlen p hp l hl
    exact ⟨hown, ordered_of_picked ((hsame hown).symm.trans h)⟩
  · intro h
    rw [hsame h.own, h.ordered.picked]
    rfl

theorem leaves_wf (h : ∀ f ∈ fs, f.Wf) : ∀ f ∈ l.leaves m fs, f.Wf := by
  intro f hf
  obtain ⟨p, hp, rfl⟩ := List.mem_map.mp hf
  exact h _ (mem_of_places (List.mem_filter.mp hp).1)

/-- One line removes the fields that it selects exactly if it is about the own values, and does not go on
in the body. -/
theorem remove_line_iff (hm : m.Wf) (hl : l.Wf) (hfs : ∀ f ∈ fs, f.Wf) :
    filterFields.remove l.field l.aval (m.behind fs) = m.behind (fs.filter fun f => !l.selects f) ↔
      (∀ p ∈ m.places fs, l.sees p = l.selects p.1) ∧
        (fs = [] → ∀ x, Visits (m.behind []) x → matchField x l.field l.aval = false) := by
  by_cases hne : fs = []
  · rw [hne, List.filter_nil, remove_eq_self_iff]
    constructor
    · exact fun h => ⟨fun p hp => (List.not_mem_nil hp).elim, fun _ => h⟩
    · exact fun h => h.2 rfl
  · rw [remove_behind hm hl hfs hne, ← leaves_eq_iff]
    constructor
    · intro h
      exact ⟨behind_inj (leaves_wf hfs) (fun f hf => hfs f (List.mem_of_mem_filter hf)) h,
        fun h => absurd h hne⟩
    · intro h
      rw [h.1]

theorem selected_append (as : List FilterLine) (l : FilterLine) (fs : List HeadField) :
    (fs.filter fun f => !selected (as ++ [l]) f) =
      (fs.filter fun f => !selected as f).filter fun f => !l.selects f := by
  rw [List.filter_filter]
  refine List.filter_congr fun f _ => ?_
  unfold selected
  rw [List.any_append, List.any_cons, List.any_nil, Bool.or_false, Bool.not_or, Bool.and_comm]

theorem SpecWf.initial {as bs : List FilterLine} (h : SpecWf (as ++ bs)) : SpecWf as :=
  ⟨fun l hl => h.lines l (List.mem_append_left _ hl), h.ends.left_of_append⟩

theorem filters_remove_concat {as : List FilterLine} (hm : m.Wf) (h : SpecWf (as ++ [l]))
    (has : Filters (specText removeWord as) m (m.restricted fun f => !selected as f)) :
    Filters (specText removeWord (as ++ [l])) m (m.restricted fun f => !selected (as ++ [l]) f) ↔
      (∀ p ∈ m.places (m.fields.filter fun f => !selected as f), l.sees p = l.selects p.1) ∧
        ((m.fields.filter fun f => !selected as f) = [] →
          ∀ x, Visits (m.behind []) x → matchField x l.field l.aval = false) := by
  have hl := h.lines l (by simp)
  have hfs : ∀ f ∈ m.fields.filter (fun f => !selected as f), f.Wf := fun f hf =>
    hm.fields f (List.mem_of_mem_filter hf)
  have htext := has.text
  rw [filterFields_remove h.initial, Option.some.injEq] at htext
  rw [← remove_line_iff hm hl hfs, ← selected_append]
  have hstep : filterFields (specText removeWord (as ++ [l])) m.text =
      some (filterFields.remove l.field l.aval (m.behind (m.fields.filter fun f => !selected as f))) := by
    rw [filterFields_remove h, List.foldl_append, htext]
    rfl
  constructor
  · intro hf
    have heq := hf.text
    rw [hstep, Option.some.injEq] at heq
    exact heq
  · intro heq
    exact ⟨by rw [hstep, heq]; rfl, restricted_length ..⟩

theorem filters_remove_nil (m : Mail) :
    Filters (specText removeWord []) m (m.restricted fun f => !selected [] f) := by
  have hall : m.restricted (fun f => !selected [] f) = m := by
    unfold Mail.restricted selected
    simp
  have hls : SpecWf [] := ⟨by simp, .nil⟩
  rw [hall]
  exact ⟨filterFields_remove hls m.text, Nat.le_refl _⟩

/-- With lines for `Pass`, or with each initial part of the lines for `Remove`, the header is restricted by
the own values of its fields exactly under these conditions. -/
theorem filterFields_iff (m : Mail) (hm : m.Wf) (hne : m.fields ≠ []) (ls : List FilterLine)
    (hls : SpecWf ls) (hlines : ls ≠ []) :
    (Filters (specText passWord ls) m (m.restricted (selected ls)) ↔ PassesOwn ls m) ∧
      ((∀ as bs, ls = as ++ bs →
          Filters (specText removeWord as) m (m.restricted fun f => !selected as f)) ↔
        RemovesOwn ls m) := by
  constructor
  · have hput := filterFields_pass hls hlines m.text
    rw [strSeekEOH_behind hm, pass_lines hm hls.lines hne] at hput
    rw [← picked_fields_iff]
    constructor
    · intro h
      have htext := h.text
      rw [hput] at htext
      dsimp only at htext
      split at htext
      · refine behind_inj (fun f hf => hm.fields f (mem_picked_fields hf).1)
          (fun f hf => hm.fields f (List.mem_of_mem_filter hf)) (Option.some.inj htext)
      · cases htext
    · intro h
      refine ⟨?_, restricted_length ..⟩
      rw [hput, h]
      exact if_pos (restricted_length m (selected ls))
  · constructor
    · intro h as l bs hsplit
      have hsplit' : ls = (as ++ [l]) ++ bs := by rw [hsplit]; simp
      exact (filters_remove_concat hm (hsplit' ▸ hls).initial (h as (l :: bs) hsplit)).mp
        (h (as ++ [l]) bs hsplit')
    · intro h as
      induction as using List.reverseRecOn with
      | nil => exact fun bs _ => filters_remove_nil m
      | append_singleton as l ih =>
        intro bs hsplit
        have hsplit' : ls = as ++ l :: bs := by rw [hsplit]; simp
        exact (filters_remove_concat hm (hsplit ▸ hls).initial (ih (l :: bs) hsplit')).mpr
          (h as l bs hsplit')

/-- `Subject: y`, `To: x` and a body -/
def subjectTo : Mail where
  fields :=
    [⟨['S', 'u', 'b', 'j', 'e', 'c', 't'], 0, 1, ['y'], []⟩, ⟨['T', 'o'], 0, 1, ['x'], []⟩]
  empty := []
  body := ['b', '\n']

theorem subjectTo_wf : subjectTo.Wf := by
  refine ⟨?_, .inl rfl⟩
  intro f hf
  unfold subjectTo at hf
  simp only [List.mem_cons, List.not_mem_nil, or_false] at hf
  rcases hf with rfl | rfl
  · exact ⟨⟨by simp, by simp⟩, by simp, by simp, by simp, by simp⟩
  · exact ⟨⟨by simp, by simp⟩, by simp, by simp, by simp, by simp⟩

/-- `To:x` or `Subject:x` -/
def lineX (name : Text) : FilterLine := ⟨name, [], ['x'], ['\n']⟩

theorem lineX_wf {name : Text} (h : FieldName name) (hcr : '\r' ∉ name) : SpecWf [lineX name] := by
  refine ⟨fun l hl => ?_, .singleton _⟩
  rw [List.mem_singleton.mp hl]
  exact ⟨h, hcr, by simp [lineX], by simp [lineX, isBlank], by simp [lineX], .inr (.inl rfl)⟩

theorem lineX_removesOwn : RemovesOwn [lineX ['T', 'o']] subjectTo := by
  intro as l bs hsplit
  have hlen := congrArg List.length hsplit
  simp only [List.length_append, List.length_cons, List.length_nil] at hlen
  have has : as = [] := List.eq_nil_of_length_eq_zero (by omega)
  have hbs : bs = [] := List.eq_nil_of_length_eq_zero (by omega)
  rw [has, hbs, List.nil_append, List.cons.injEq] at hsplit
  rw [← hsplit.1, has]
  refine ⟨?_, fun h => by cases h⟩
  intro p hp
  simp only [subjectTo, selected, List.any_nil, Bool.not_false, List.filter_true, Mail.places, List.mem_cons,
    List.not_mem_nil, or_false] at hp
  rcases hp with rfl | rfl
  · rfl
  · rfl

/-- `Remove/To:x` removes the one field. -/
theorem filterFields_to :
    Filters (specText removeWord [lineX ['T', 'o']]) subjectTo
      (subjectTo.restricted fun f => !selected [lineX ['T', 'o']] f) :=
  (filterFields_iff subjectTo subjectTo_wf (by simp [subjectTo]) [lineX ['T', 'o']]
    (lineX_wf ⟨by simp, by simp⟩ (by simp)) (by simp)).2.mpr lineX_removesOwn [lineX ['T', 'o']] [] rfl

/-- `Remove/Subject:x` removes the subject, which is `y`, for the text in the field behind it. -/
theorem other_value_matches :
    ¬Filters (specText removeWord [lineX ['S', 'u', 'b', 'j', 'e', 'c', 't']]) subjectTo
      (subjectTo.restricted fun f => !selected [lineX ['S', 'u', 'b', 'j', 'e', 'c', 't']] f) := by
  intro h
  have hls : SpecWf ([] ++ [lineX ['S', 'u', 'b', 'j', 'e', 'c', 't']]) :=
    lineX_wf ⟨by simp, by simp⟩ (by simp)
  have hown := ((filters_remove_concat subjectTo_wf hls (filters_remove_nil subjectTo)).mp h).1
    (⟨['S', 'u', 'b', 'j', 'e', 'c', 't'], 0, 1, ['y'], []⟩,
      subjectTo.behind [⟨['T', 'o'], 0, 1, ['x'], []⟩])
    (by simp [subjectTo, selected, Mail.places])
  have hselects : (lineX ['S', 'u', 'b', 'j', 'e', 'c', 't']).selects
      ⟨['S', 'u', 'b', 'j', 'e', 'c', 't'], 0, 1, ['y'], []⟩ = false := rfl
  have hsees : (lineX ['S', 'u', 'b', 'j', 'e', 'c', 't']).sees
      (⟨['S', 'u', 'b', 'j', 'e', 'c', 't'], 0, 1, ['y'], []⟩,
        subjectTo.behind [⟨['T', 'o'], 0, 1, ['x'], []⟩]) = true := rfl
  rw [hsees] at hown
  rw [← hown] at hselects
  cases hselects

end delegate.rfc822
