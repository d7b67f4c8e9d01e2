-- Setting a field of a header (mimekit/rfc822.cpp): `replaceFieldValue` finds the
-- field in the whole message, and leaves it where its first line has the value
-- up to case.
import Delegate.Rfc822
import Delegate.UrlSite

open ctext segs

namespace delegate.rfc822

/-! ## The pure model -/

/-- `findFieldValue` -/
def findFieldValue (head field : Text) : Option Text := (findField head field).map Prod.snd

/-- The loop of `RFC822_valuescan`, where `pch` is the last character that was put. -/
def valuescan : Nat → Option Char → Text → Text
  | 0, _, _ => []
  | _, _, [] => []
  | cc + 1, pch, ch :: vp =>
    if ch = '\r' then valuescan cc pch vp
    else if ch = '\n' then
      if vp.head? = some ' ' ∨ vp.head? = some '\t' then valuescan cc pch vp else []
    else
      let ch := if ch = '\t' then ' ' else ch
      if ch = ' ' ∧ pch = some ' ' then valuescan cc pch vp else ch :: valuescan cc (some ch) vp

/-- `RFC822_valuescan`: the value in a buffer of `size` bytes. -/
def RFC822_valuescan (vp : Text) (size : Nat) : Text := valuescan (size - 1) none vp

def getFieldValue2 (head field : Text) (size : Nat) : Option Text :=
  (findFieldValue head field).map fun vp => RFC822_valuescan vp size

/-- `copyHeader`: the text without empty lines. `ends` says that a line has just ended. -/
def copyHeader : Bool → Text → Text
  | _, [] => []
  | ends, ch :: sp =>
    if ends = true ∧ (ch = '\r' ∨ ch = '\n') then copyHeader true sp
    else ch :: copyHeader (ch == '\n') sp

/-- `strSeekEOH`: the text from the line on that ends the header. -/
def strSeekEOH : Bool → Text → Text
  | _, [] => []
  | top, ch :: hp =>
    if top = true ∧ (ch = '\r' ∨ ch = '\n' ∨
        ch = '.' ∧ (hp.head? = some '\r' ∨ hp.head? = some '\n')) then ch :: hp
    else strSeekEOH (ch == '\n') hp

/-- The loop of `nextField`: the text from the next field on. -/
def nextField.loop (ignEOH : Bool) : Bool → Text → Text
  | _, [] => []
  | true, nc :: np =>
    if nc = ' ' ∨ nc = '\t' then nextField.loop ignEOH false np
    else if ignEOH = false ∨ (nc ≠ '\n' ∧ nc ≠ '\r') then nc :: np
    else nextField.loop ignEOH true np
  | false, nc :: np => nextField.loop ignEOH (nc == '\n') np

def nextField (field : Text) (ignEOH : Bool) : Text := nextField.loop ignEOH false field

/-- Back over the line end before `np`, where `before` is the text up to `np`. -/
def overLineEnd (before np : Text) : Text :=
  if before.getLast? = some '\n' then
    if before.dropLast.getLast? = some '\r' then '\r' :: '\n' :: np else '\n' :: np
  else np

def MAX_MIMEHEAD : Nat := 0x20000

/-- `replaceFieldValue`: the text afterwards. -/
def replaceFieldValue (head field value : Text) : Text :=
  match findFieldValue head field with
  | none =>
    let np := strSeekEOH true head
    let EOL := if (strstr ['\r', '\n'] head).isSome then ['\r', '\n'] else ['\n']
    upto head np ++ (field ++ ":".toList ++ " ".toList ++ value ++ EOL ++ np)
  | some esp =>
    if strncaseeq esp value value.length && strcaseeq (url.linescanX esp MAX_MIMEHEAD) value then head
    else
      let np := nextField esp false
      upto head esp ++ copyHeader false value ++ overLineEnd (upto head np) np

/-! ## Messages -/

/-- A field: its name, the blanks around the colon, the rest of the line, and the lines that continue
it. -/
structure HeadField where
  name : Text
  before : Nat
  after : Nat
  value : Text
  conts : List Text

def HeadField.line (f : HeadField) : Text :=
  f.name ++ (List.replicate f.before ' ' ++ ':' :: (List.replicate f.after ' ' ++ f.value))

def HeadField.lines (f : HeadField) : List Text := f.line :: f.conts

structure HeadField.Wf (f : HeadField) : Prop where
  name : FieldName f.name
  name_cr : '\r' ∉ f.name
  value_head : f.value.head? ≠ some ' '
  value_end : '\n' ∉ f.value
  conts : ∀ l ∈ f.conts, isCont l = true ∧ '\n' ∉ l

/-- A message: the fields, the empty line, which may have a CR, and the body. -/
structure Mail where
  fields : List HeadField
  empty : Text
  body : Text

def Mail.head (m : Mail) : Text := flat '\n' (m.fields.flatMap HeadField.lines)

def Mail.text (m : Mail) : Text := m.head ++ (m.empty ++ '\n' :: m.body)

structure Mail.Wf (m : Mail) : Prop where
  fields : ∀ f ∈ m.fields, f.Wf
  empty : m.empty = [] ∨ m.empty = ['\r']

/-- The field has the name. -/
def HeadField.is (field : Text) (f : HeadField) : Bool := strcaseeq f.name field

/-- A value: one line, without blanks at its ends and without two blanks in a row. -/
structure Value (value : Text) : Prop where
  nonempty : value ≠ []
  line : ∀ c ∈ value, c ≠ '\r' ∧ c ≠ '\n'
  begins : value.head? ≠ some ' ' ∧ value.head? ≠ some '\t'
  ends : value.getLast? ≠ some ' ' ∧ value.getLast? ≠ some '\t'
  single : value.IsChain fun c d => (c = ' ' ∨ c = '\t') → d ≠ ' ' ∧ d ≠ '\t'

/-- The text has the field set to the value: the first field of the name changed in its place, or a
new one is the last. The other fields, the empty line and the body are as they were. -/
structure Mail.Sets (m : Mail) (field value : Text) (m' : Mail) : Prop where
  wf : m'.Wf
  empty : m'.empty = m.empty
  body : m'.body = m.body
  missing : (∀ f ∈ m.fields, f.is field = false) →
    ∃ f', m'.fields = m.fields ++ [f'] ∧ f'.is field = true
  present : ∀ a f b, m.fields = a ++ f :: b → (∀ x ∈ a, x.is field = false) → f.is field = true →
    ∃ f', m'.fields = a ++ f' :: b ∧ f'.name = f.name
  value : ∀ size, value.length < size → getFieldValue2 m'.text field size = some value

/-- A line without the CR at its end. -/
def chop (l : Text) : Text := if l.getLast? = some '\r' then l.dropLast else l

/-! ## Finding the field -/

theorem length_of_strcaseeq {a b : Text} (h : strcaseeq a b = true) : a.length = b.length := by
  unfold strcaseeq at h
  have hlen := congrArg List.length (eq_of_beq h)
  simpa using hlen

/-- Texts that are the same up to case have the same characters other than letters. -/
theorem mem_of_strcaseeq {a b : Text} {c : Char} (h : strcaseeq a b = true)
    (hc : c.isAlpha = false) (hmem : c ∈ a) : c ∈ b := by
  have hlow : c.toLower = c := by
    unfold Char.toLower
    split
    · rename_i hup
      have : c.isAlpha = true := by
        grind [Char.isAlpha, Char.isUpper]
      rw [hc] at this
      cases this
    · rfl
  unfold strcaseeq at h
  have hmap : c ∈ a.map Char.toLower := List.mem_map.mpr ⟨c, hmem, hlow⟩
  rw [eq_of_beq h] at hmap
  obtain ⟨d, hd, hdc⟩ := List.mem_map.mp hmap
  rw [eq_of_toLower_eq hc hdc] at hd
  exact hd

/-- After its name, a field has a blank or the colon. -/
theorem HeadField.line_eq (f : HeadField) :
    ∃ c t, (c = ' ' ∨ c = ':') ∧ f.line = f.name ++ c :: t := by
  unfold HeadField.line
  cases f.before with
  | zero => exact ⟨':', _, .inr rfl, rfl⟩
  | succ k => exact ⟨' ', _, .inl rfl, rfl⟩

/-- The first line of a field is of a name exactly if the field is. -/
theorem atField_lineOf {f : HeadField} {field : Text} (hf : f.Wf) (h : FieldName field) :
    atField f.line field = f.is field := by
  obtain ⟨c, t, hc, hline⟩ := f.line_eq
  unfold atField HeadField.is strncaseeq
  rw [hline, List.take_length]
  rcases Nat.lt_trichotomy field.length f.name.length with hlt | heq | hgt
  · have hdrop : f.name.drop field.length ≠ [] := by
      rw [← List.length_pos_iff, List.length_drop]
      omega
    obtain ⟨d, u, hdu⟩ := List.exists_cons_of_ne_nil hdrop
    have hd : d ∈ f.name := List.mem_of_mem_drop (by rw [hdu]; exact List.mem_cons_self)
    obtain ⟨hcolon, hblank, -, -⟩ := hf.name.chars d hd
    have hno : strcaseeq f.name field = false := by
      rw [Bool.eq_false_iff]
      intro hcase
      have := length_of_strcaseeq hcase
      omega
    rw [hno, List.drop_append_of_le_length (by omega), hdu]
    simp [hcolon, hblank]
  · rw [heq, List.take_left, List.drop_left]
    rcases hc with rfl | rfl <;> simp
  · obtain ⟨k, hk⟩ : ∃ k, field.length = f.name.length + (k + 1) :=
      ⟨field.length - f.name.length - 1, by omega⟩
    have hno : strcaseeq f.name field = false := by
      rw [Bool.eq_false_iff]
      intro hcase
      have := length_of_strcaseeq hcase
      omega
    have hlong : strcaseeq ((f.name ++ c :: t).take field.length) field = false := by
      rw [Bool.eq_false_iff]
      intro hcase
      have hmem : c ∈ (f.name ++ c :: t).take field.length := by
        rw [hk, List.take_length_add_append, List.take_succ_cons]
        simp
      have hcf := mem_of_strcaseeq hcase (by rcases hc with rfl | rfl <;> rfl) hmem
      rcases hc with rfl | rfl
      · exact (h.chars _ hcf).2.1 rfl
      · exact (h.chars _ hcf).1 rfl
    rw [hno, hlong]
    rfl

theorem dropWhile_blanks (n : Nat) {t : Text} (h : t.head? ≠ some ' ') :
    (List.replicate n ' ' ++ t).dropWhile (· = ' ') = t := by
  induction n with
  | zero =>
    cases t with
    | nil => rfl
    | cons c t =>
      have hc : c ≠ ' ' := by simpa using h
      simp [hc]
  | succ n ih =>
    rw [List.replicate_succ, List.cons_append, List.dropWhile_cons_of_pos (by simp), ih]

/-- The value of a field begins behind the blanks. -/
theorem valueAt_line {f : HeadField} {field rest : Text} (hf : f.Wf) (h : f.is field = true)
    (hrest : rest.head? ≠ some ' ') :
    valueAt ((f.line ++ rest).drop field.length) = f.value ++ rest := by
  have hlen : field.length = f.name.length := (length_of_strcaseeq h).symm
  have hvalue : (f.value ++ rest).head? ≠ some ' ' := by
    cases hv : f.value with
    | nil => exact hrest
    | cons c v => exact fun hc => hf.value_head (by rw [hv]; exact hc)
  unfold HeadField.line
  rw [hlen, List.append_assoc, List.drop_left, List.append_assoc, List.cons_append,
    List.append_assoc]
  unfold valueAt
  dsimp only
  rw [dropWhile_blanks _ (by simp), List.head?_cons, if_pos rfl, List.tail_cons,
    dropWhile_blanks _ hvalue]

theorem FieldName.no_end {l : Text} (h : FieldName l) : '\n' ∉ l :=
  fun hmem => (h.chars _ hmem).2.2.2 rfl

theorem HeadField.Wf.line_no_end {f : HeadField} (hf : f.Wf) : '\n' ∉ f.line := by
  unfold HeadField.line
  simp [hf.name.no_end, hf.value_end]

theorem HeadField.Wf.no_end {f : HeadField} (hf : f.Wf) : ∀ l ∈ f.lines, '\n' ∉ l := by
  rintro l (_ | ⟨_, hl⟩)
  · exact hf.line_no_end
  · exact (hf.conts l hl).2

/-- The lines of fields of other names are passed. -/
theorem atField_lines {f : HeadField} {field : Text} (hf : f.Wf) (h : FieldName field)
    (hno : f.is field = false) : ∀ l ∈ f.lines, atField l field = false := by
  rintro l (_ | ⟨_, hl⟩)
  · rw [atField_lineOf hf h, hno]
  · exact atField_cont h (hf.conts l hl).1

theorem findField_skip {fs : List HeadField} {field : Text} (rest : Text) (h : FieldName field)
    (hfs : ∀ f ∈ fs, f.Wf) (hno : ∀ f ∈ fs, f.is field = false) :
    findField.loop field (flat '\n' (fs.flatMap HeadField.lines) ++ rest) =
      findField.loop field rest := by
  refine loop_none rest h (fun l hl => ?_) fun l hl => ?_
  · obtain ⟨f, hf, hmem⟩ := List.mem_flatMap.mp hl
    exact (hfs f hf).no_end l hmem
  · obtain ⟨f, hf, hmem⟩ := List.mem_flatMap.mp hl
    exact atField_lines (hfs f hf) h (hno f hf) l hmem

/-- The first field of the name is found, with its value. -/
theorem findFieldValue_first {a : List HeadField} {f : HeadField} {field : Text} (rest : Text)
    (h : FieldName field) (ha : ∀ x ∈ a, x.Wf) (hno : ∀ x ∈ a, x.is field = false) (hf : f.Wf)
    (his : f.is field = true) :
    findFieldValue (flat '\n' (a.flatMap HeadField.lines) ++ (f.line ++ '\n' :: rest)) field =
      some (f.value ++ '\n' :: rest) := by
  unfold findFieldValue
  rw [findField_eq h, findField_skip _ h ha hno, loop_line _ h hf.line_no_end,
    if_pos (by rw [atField_lineOf hf h, his]), valueAt_line hf his (by simp)]
  rfl

theorem Mail.text_first {m : Mail} {a b : List HeadField} {f : HeadField}
    (h : m.fields = a ++ f :: b) :
    m.text = flat '\n' (a.flatMap HeadField.lines) ++ (f.line ++ '\n' :: (flat '\n' f.conts ++
      (flat '\n' (b.flatMap HeadField.lines) ++ (m.empty ++ '\n' :: m.body)))) := by
  unfold Mail.text Mail.head
  rw [h, List.flatMap_append, List.flatMap_cons, flat_append, flat_append, HeadField.lines, flat_cons]
  simp only [List.append_assoc, List.cons_append]

theorem atField_empty {m : Mail} {field : Text} (hm : m.Wf) (h : FieldName field)
    (hcr : '\r' ∉ field) : atField m.empty field = false := by
  obtain ⟨c, f, rfl⟩ := List.exists_cons_of_ne_nil h.nonempty
  rw [Bool.eq_false_iff]
  intro hat
  unfold atField strncaseeq at hat
  rw [Bool.and_eq_true] at hat
  have hcase := hat.1
  rw [List.take_length] at hcase
  rcases hm.empty with he | he
  · rw [he] at hcase
    have := length_of_strcaseeq hcase
    simp at this
  · rw [he, List.length_cons, List.take_succ_cons] at hcase
    exact hcr (mem_of_strcaseeq hcase rfl List.mem_cons_self)

/-- Where no field is of the name, the search goes on in the body. -/
theorem findField_body {m : Mail} {field : Text} (hm : m.Wf) (h : FieldName field)
    (hcr : '\r' ∉ field) (hno : ∀ f ∈ m.fields, f.is field = false) :
    findField.loop field m.text = findField.loop field m.body := by
  have hempty : '\n' ∉ m.empty := by
    rcases hm.empty with he | he <;> rw [he] <;> simp
  unfold Mail.text Mail.head
  rw [findField_skip _ h hm.fields hno, loop_line _ h hempty,
    if_neg (by rw [atField_empty hm h hcr]; simp)]

theorem afterChr_suffix {c : Char} {s t : Text} (h : afterChr c s = some t) : t <:+ s := by
  induction s with
  | nil => cases h
  | cons d s ih =>
    unfold afterChr at h
    split at h
    · rw [← Option.some.inj h]
      exact List.suffix_cons d s
    · exact (ih h).trans (List.suffix_cons d s)

theorem valueAt_suffix (csp : Text) : valueAt csp <:+ csp := by
  unfold valueAt
  dsimp only
  have hblanks : csp.dropWhile (· = ' ') <:+ csp := List.dropWhile_suffix _
  refine (List.dropWhile_suffix _).trans (List.IsSuffix.trans ?_ hblanks)
  split
  · exact List.tail_suffix _
  · exact List.suffix_rfl

theorem loop_suffix {field s p v : Text} (h : findField.loop field s = some (p, v)) : v <:+ s := by
  fun_induction findField.loop field s with
  | case1 => cases h
  | case2 s hs hat =>
    cases h
    exact (valueAt_suffix _).trans (List.drop_suffix _ _)
  | case3 s hs hat nsp hafter ih => exact (ih h).trans (afterChr_suffix hafter)
  | case4 => cases h

/-- A text has no field of the name exactly if none of its lines is one. -/
theorem loop_eq_none_iff {field s : Text} (h : FieldName field) :
    findField.loop field s = none ↔ ∀ l ∈ segments '\n' s, atField l field = false := by
  obtain ⟨hs, hds, hlast⟩ := @split_spec _ _ '\n' s
  unfold segments
  generalize (split '\n' s).1 = ds at hs hds ⊢
  generalize (split '\n' s).2 = last at hs hlast ⊢
  rw [hs]
  rcases first_split (atField · field) ds with hno | ⟨a, l, b, rfl, ha, hl⟩
  · rw [loop_none _ h hds hno, findField.loop]
    constructor
    · intro hnone
      refine List.forall_mem_append.mpr ⟨hno, List.forall_mem_singleton.mpr ?_⟩
      split at hnone
      · rename_i hnil
        rw [hnil]
        exact atField_nil h
      · split at hnone
        · cases hnone
        · rename_i hat
          exact Bool.eq_false_iff.mpr hat
    · intro hall
      have hat := hall last (List.mem_append_right _ List.mem_cons_self)
      rw [hat, afterChr_eq_none hlast]
      simp
  · have hla : ∀ l ∈ a, '\n' ∉ l := fun x hx => hds x (List.mem_append_left _ hx)
    have hll : '\n' ∉ l := hds l (List.mem_append_right _ List.mem_cons_self)
    rw [flat_append, flat_cons, List.append_assoc, List.append_assoc, List.cons_append,
      loop_first _ h hla ha hll hl]
    constructor
    · intro hnone
      cases hnone
    · intro hall
      have hat := hall l (List.mem_append_left _ (List.mem_append_right _ List.mem_cons_self))
      rw [hl] at hat
      cases hat

/-! ## The place to change -/

theorem nextField_line {ignEOH : Bool} {l : Text} (rest : Text) (hl : '\n' ∉ l) :
    nextField.loop ignEOH false (l ++ '\n' :: rest) = nextField.loop ignEOH true rest := by
  induction l with
  | nil => rfl
  | cons c l ih =>
    obtain ⟨hc, hl⟩ := List.ne_and_not_mem_of_not_mem_cons hl
    have hnl : (c == '\n') = false := by simpa using Ne.symm hc
    rw [List.cons_append, nextField.loop, hnl, ih hl]

/-- The lines that continue a field are passed. -/
theorem nextField_conts {ls : List Text} {c : Char} {rest : Text}
    (hls : ∀ l ∈ ls, isCont l = true ∧ '\n' ∉ l) (hc : c ≠ ' ' ∧ c ≠ '\t') :
    nextField.loop false true (flat '\n' ls ++ c :: rest) = c :: rest := by
  induction ls with
  | nil =>
    rw [flat_nil, List.nil_append, nextField.loop]
    simp [hc]
  | cons l ls ih =>
    obtain ⟨hcont, hl⟩ := hls l List.mem_cons_self
    cases l with
    | nil => cases hcont
    | cons d l =>
      have hd : d = ' ' ∨ d = '\t' := by simpa [isCont] using hcont
      obtain ⟨-, hl⟩ := List.ne_and_not_mem_of_not_mem_cons hl
      rw [flat_cons, List.append_assoc, List.cons_append, List.cons_append, nextField.loop, if_pos hd,
        nextField_line _ hl, ih fun x hx => hls x (List.mem_cons_of_mem _ hx)]

/-- The CR at the end of a line. -/
def crOf (l : Text) : Text := if l.getLast? = some '\r' then ['\r'] else []

theorem overLineEnd_line {l : Text} (pre np : Text) (hl : l ≠ []) :
    overLineEnd (pre ++ (l ++ ['\n'])) np = crOf l ++ '\n' :: np := by
  have hlast : (pre ++ (l ++ ['\n'])).getLast? = some '\n' := by simp
  have hdrop : (pre ++ (l ++ ['\n'])).dropLast.getLast? = l.getLast? := by
    rw [← List.append_assoc, List.dropLast_concat, List.getLast?_append_of_ne_nil _ hl]
  unfold overLineEnd crOf
  rw [if_pos hlast, hdrop]
  split <;> rfl

theorem strSeekEOH_line {l : Text} (rest : Text) (hl : '\n' ∉ l) :
    strSeekEOH false (l ++ '\n' :: rest) = strSeekEOH true rest := by
  induction l with
  | nil => rfl
  | cons c l ih =>
    obtain ⟨hc, hl⟩ := List.ne_and_not_mem_of_not_mem_cons hl
    have hnl : (c == '\n') = false := by simpa using Ne.symm hc
    rw [List.cons_append, strSeekEOH, hnl, ih hl]
    simp

/-- A line that ends the header begins with a line end, or with a dot before one. -/
theorem strSeekEOH_head {c : Char} {l : Text} (rest : Text) (hl : '\n' ∉ c :: l) (hc : c ≠ '\r')
    (hdot : c = '.' → ∃ d, l.head? = some d ∧ d ≠ '\r') :
    strSeekEOH true (c :: l ++ '\n' :: rest) = strSeekEOH true rest := by
  obtain ⟨hcn, hl⟩ := List.ne_and_not_mem_of_not_mem_cons hl
  have hnl : (c == '\n') = false := by simpa using Ne.symm hcn
  have hend : ¬(true = true ∧ (c = '\r' ∨ c = '\n' ∨
      c = '.' ∧ ((l ++ '\n' :: rest).head? = some '\r' ∨
        (l ++ '\n' :: rest).head? = some '\n'))) := by
    rintro ⟨-, hcr | hcnl | ⟨hcdot, hnext⟩⟩
    · exact hc hcr
    · exact hcn hcnl.symm
    · obtain ⟨d, hd, hdcr⟩ := hdot hcdot
      have hdnl : d ≠ '\n' := fun heq => hl (List.mem_of_mem_head? (by rw [hd, heq]; rfl))
      rw [List.head?_append, hd] at hnext
      simp [hdcr, hdnl] at hnext
  rw [List.cons_append, strSeekEOH, if_neg hend, hnl, strSeekEOH_line _ hl]

theorem HeadField.Wf.seek {f : HeadField} (hf : f.Wf) :
    ∀ l ∈ f.lines, ∀ rest, strSeekEOH true (l ++ '\n' :: rest) = strSeekEOH true rest := by
  rintro l (_ | ⟨_, hl⟩) rest
  · obtain ⟨d, t, hd, hline⟩ := f.line_eq
    obtain ⟨c, name, hname⟩ := List.exists_cons_of_ne_nil hf.name.nonempty
    have hno := hf.line_no_end
    have hcr := hf.name_cr
    rw [hline, hname, List.cons_append] at hno ⊢
    rw [hname] at hcr
    refine strSeekEOH_head rest hno (fun h => hcr (by rw [h]; exact List.mem_cons_self)) ?_
    intro _
    cases name with
    | nil => exact ⟨d, rfl, by rcases hd with rfl | rfl <;> simp⟩
    | cons e name => exact ⟨e, rfl, fun h => hcr (by rw [h]; simp)⟩
  · obtain ⟨hcont, hno⟩ := hf.conts l hl
    cases l with
    | nil => cases hcont
    | cons c l =>
      have hc : c = ' ' ∨ c = '\t' := by simpa [isCont] using hcont
      refine strSeekEOH_head rest hno ?_ ?_
      · rcases hc with rfl | rfl <;> simp
      · rcases hc with rfl | rfl <;> simp

/-- The header ends at the empty line. -/
theorem strSeekEOH_text {m : Mail} (hm : m.Wf) : strSeekEOH true m.text = m.empty ++ '\n' :: m.body := by
  have hlines : ∀ l ∈ m.fields.flatMap HeadField.lines, ∀ rest,
      strSeekEOH true (l ++ '\n' :: rest) = strSeekEOH true rest := by
    intro l hl
    obtain ⟨f, hf, hmem⟩ := List.mem_flatMap.mp hl
    exact (hm.fields f hf).seek l hmem
  have hend : strSeekEOH true (m.empty ++ '\n' :: m.body) = m.empty ++ '\n' :: m.body := by
    rcases hm.empty with he | he <;> rw [he] <;> rfl
  unfold Mail.text Mail.head
  generalize m.fields.flatMap HeadField.lines = ls at hlines ⊢
  induction ls with
  | nil => exact hend
  | cons l ls ih =>
    rw [flat_cons, List.append_assoc, List.cons_append, hlines l List.mem_cons_self,
      ih fun x hx => hlines x (List.mem_cons_of_mem _ hx)]

/-! ## The value read back -/

theorem valuescan_append {v : Text} (t : Text) {n : Nat} {pch : Option Char}
    (hv : ∀ c ∈ v, c ≠ '\r' ∧ c ≠ '\n' ∧ c ≠ '\t') (hchain : v.IsChain fun c d => c = ' ' → d ≠ ' ')
    (hhead : pch = some ' ' → v.head? ≠ some ' ') (hn : v.length ≤ n) :
    valuescan n pch (v ++ t) = v ++ valuescan (n - v.length) (v.getLast?.or pch) t := by
  induction v generalizing n pch with
  | nil => simp
  | cons c v ih =>
    obtain ⟨⟨hcr, hnl, htab⟩, hv⟩ := List.forall_mem_cons.mp hv
    have hrest : c = ' ' → v.head? ≠ some ' ' := by
      intro hc
      cases v with
      | nil => simp
      | cons d v =>
        have hd := (List.isChain_cons_cons.mp hchain).1 hc
        simpa using hd
    have hblank : ¬(c = ' ' ∧ pch = some ' ') := fun ⟨hc, hp⟩ => hhead hp (by rw [hc]; rfl)
    rw [List.length_cons] at hn
    obtain ⟨n, rfl⟩ : ∃ k, n = k + 1 := ⟨n - 1, by omega⟩
    have hlast : v.getLast?.or (some c) = (c :: v).getLast?.or pch := by
      cases v with
      | nil => rfl
      | cons d v =>
        rw [List.getLast?_cons_cons, List.getLast?_cons]
        rfl
    rw [List.cons_append, valuescan, if_neg hcr, if_neg hnl, if_neg htab]
    dsimp only
    rw [if_neg hblank, ih hv hchain.tail (fun hp => hrest (Option.some.inj hp)) (by omega), hlast,
      List.length_cons, Nat.add_sub_add_right]
    rfl

/-- The value ends at a line end that no blank follows. -/
theorem valuescan_end {cr rest : Text} (k : Nat) (pch : Option Char) (hcr : cr = [] ∨ cr = ['\r'])
    (hrest : rest.head? ≠ some ' ' ∧ rest.head? ≠ some '\t') :
    valuescan k pch (cr ++ '\n' :: rest) = [] := by
  have hend : ∀ k, valuescan k pch ('\n' :: rest) = [] := by
    rintro (_ | k)
    · rw [valuescan]
    · rw [valuescan, if_neg (by simp), if_pos rfl, if_neg (by simp [hrest])]
  rcases hcr with rfl | rfl
  · exact hend k
  · cases k with
    | zero => rw [valuescan]
    | succ k =>
      rw [List.cons_append, valuescan, if_pos rfl]
      exact hend k

/-- A line that continues the value adds a blank. -/
theorem valuescan_folded {cr rest : Text} {c : Char} {k : Nat} {pch : Option Char}
    (hcr : cr = [] ∨ cr = ['\r']) (hc : c = ' ' ∨ c = '\t') (hpch : pch ≠ some ' ')
    (hk : cr.length + 2 ≤ k) : valuescan k pch (cr ++ '\n' :: c :: rest) ≠ [] := by
  have hend : ∀ k, valuescan (k + 2) pch ('\n' :: c :: rest) ≠ [] := by
    intro k
    rw [valuescan, if_neg (by simp), if_pos rfl, if_pos (by rcases hc with rfl | rfl <;> simp),
      valuescan]
    rcases hc with rfl | rfl <;> simp [hpch]
  rcases hcr with rfl | rfl
  · obtain ⟨k, rfl⟩ : ∃ j, k = j + 2 := ⟨k - 2, by simp at hk; omega⟩
    exact hend k
  · obtain ⟨k, rfl⟩ : ∃ j, k = j + 3 := ⟨k - 3, by simp at hk; omega⟩
    rw [List.cons_append, valuescan, if_pos rfl]
    exact hend k

theorem tab_not_mem_valuescan (n : Nat) (pch : Option Char) (vp : Text) :
    '\t' ∉ valuescan n pch vp := by
  fun_induction valuescan n pch vp <;> simp_all
  grind

/-! ## The messages afterwards -/

/-- The CR of the line that is added. -/
def Mail.eol (m : Mail) : Text := if (strstr ['\r', '\n'] m.text).isSome then ['\r'] else []

/-- The message with a new field. -/
def Mail.add (m : Mail) (field value : Text) : Mail :=
  { m with fields := m.fields ++ [⟨field, 0, 1, value ++ m.eol, []⟩] }

/-- The field with the value, which keeps the line end of its last line. -/
def HeadField.put (f : HeadField) (value : Text) : HeadField :=
  { f with value := value ++ f.lines.getLast?.elim [] crOf, conts := [] }

theorem eol_cases (m : Mail) : m.eol = [] ∨ m.eol = ['\r'] := by
  unfold Mail.eol
  split
  · exact .inr rfl
  · exact .inl rfl

theorem crOf_cases (l : Text) : crOf l = [] ∨ crOf l = ['\r'] := by
  unfold crOf
  split
  · exact .inr rfl
  · exact .inl rfl

theorem Value.append {v cr : Text} (hv : Value v) (hcr : cr = [] ∨ cr = ['\r']) :
    (v ++ cr).head? ≠ some ' ' ∧ '\n' ∉ v ++ cr := by
  constructor
  · rw [List.head?_append_of_ne_nil _ hv.nonempty]
    exact hv.begins.1
  · intro hmem
    rcases List.mem_append.mp hmem with hmem | hmem
    · exact (hv.line _ hmem).2 rfl
    · rcases hcr with rfl | rfl <;> simp at hmem

theorem add_wf {m : Mail} {field value : Text} (hm : m.Wf) (h : FieldName field) (hcr : '\r' ∉ field)
    (hv : Value value) : (m.add field value).Wf := by
  obtain ⟨hhead, hend⟩ := hv.append (eol_cases m)
  refine ⟨fun f hf => ?_, hm.empty⟩
  rcases List.mem_append.mp hf with hf | hf
  · exact hm.fields f hf
  · rw [List.mem_singleton.mp hf]
    exact ⟨h, hcr, hhead, hend, by simp⟩

theorem put_cr (f : HeadField) :
    f.lines.getLast?.elim [] crOf = [] ∨ f.lines.getLast?.elim [] crOf = ['\r'] := by
  cases f.lines.getLast? with
  | none => exact .inl rfl
  | some l => exact crOf_cases l

theorem put_wf {f : HeadField} {value : Text} (hf : f.Wf) (hv : Value value) : (f.put value).Wf := by
  obtain ⟨hhead, hend⟩ := hv.append (put_cr f)
  exact ⟨hf.name, hf.name_cr, hhead, hend, fun l hl => by cases hl⟩

section
variable {m m' : Mail} {a b : List HeadField} {f : HeadField} {field value : Text}

/-- What follows a field does not continue it. -/
theorem rest_head (hm : m.Wf) (hb : ∀ f ∈ b, f.Wf) :
    ∃ c t, flat '\n' (b.flatMap HeadField.lines) ++ (m.empty ++ '\n' :: m.body) = c :: t ∧
      c ≠ ' ' ∧ c ≠ '\t' := by
  cases b with
  | nil =>
    rcases hm.empty with he | he
    · exact ⟨'\n', m.body, by rw [he]; rfl, by simp⟩
    · exact ⟨'\r', '\n' :: m.body, by rw [he]; rfl, by simp⟩
  | cons f b =>
    have hname := (hb f List.mem_cons_self).name
    obtain ⟨d, t, -, hline⟩ := f.line_eq
    obtain ⟨c, name, hcons⟩ := List.exists_cons_of_ne_nil hname.nonempty
    have hc := hname.chars c (by rw [hcons]; exact List.mem_cons_self)
    rw [List.flatMap_cons, HeadField.lines, List.cons_append, flat_cons, hline, hcons]
    exact ⟨c, _, rfl, hc.2.1, hc.2.2.1⟩

/-- The value of the first field of the name. -/
theorem getFieldValue_first (size : Nat) (hm : m.Wf) (h : FieldName field)
    (hfields : m.fields = a ++ f :: b) (ha : ∀ x ∈ a, x.is field = false) (his : f.is field = true) :
    getFieldValue2 m.text field size = some (valuescan (size - 1) none
      (f.value ++ '\n' :: (flat '\n' f.conts ++
        (flat '\n' (b.flatMap HeadField.lines) ++ (m.empty ++ '\n' :: m.body))))) := by
  have hwf := hm.fields
  rw [hfields] at hwf
  obtain ⟨hwa, hwb⟩ := List.forall_mem_append.mp hwf
  obtain ⟨hwf, -⟩ := List.forall_mem_cons.mp hwb
  unfold getFieldValue2
  rw [Mail.text_first hfields, findFieldValue_first _ h hwa ha hwf his]
  rfl

theorem getFieldValue_set {v cr : Text} {size : Nat} (hm : m.Wf) (h : FieldName field)
    (hfields : m.fields = a ++ f :: b) (ha : ∀ x ∈ a, x.is field = false) (his : f.is field = true)
    (hconts : f.conts = []) (hval : f.value = v ++ cr) (hcr : cr = [] ∨ cr = ['\r'])
    (hv : ∀ c ∈ v, c ≠ '\r' ∧ c ≠ '\n' ∧ c ≠ '\t') (hchain : v.IsChain fun c d => c = ' ' → d ≠ ' ')
    (hsize : v.length < size) : getFieldValue2 m.text field size = some v := by
  have hwb : ∀ x ∈ b, x.Wf := fun x hx => hm.fields x (by rw [hfields]; simp [hx])
  obtain ⟨c, t, hrest, hc⟩ := rest_head hm hwb
  rw [getFieldValue_first size hm h hfields ha his, hconts, hval, flat_nil, List.nil_append, hrest,
    List.append_assoc, valuescan_append _ hv hchain (by simp) (by omega),
    valuescan_end _ _ hcr (by simpa using hc), List.append_nil]

/-- A value without tabs is read back as it is. -/
theorem Value.clean {v : Text} (hv : Value v) (htab : '\t' ∉ v) :
    (∀ c ∈ v, c ≠ '\r' ∧ c ≠ '\n' ∧ c ≠ '\t') ∧ v.IsChain fun c d => c = ' ' → d ≠ ' ' := by
  constructor
  · intro c hc
    exact ⟨(hv.line c hc).1, (hv.line c hc).2, fun heq => htab (heq ▸ hc)⟩
  · exact hv.single.imp fun c d hcd hc => (hcd (.inl hc)).1

/-! ## The text afterwards -/

theorem replace_missing (hm : m.Wf) (h : FieldName field) (hcr : '\r' ∉ field)
    (hno : ∀ f ∈ m.fields, f.is field = false)
    (hbody : ∀ l ∈ segments '\n' m.body, atField l field = false) :
    replaceFieldValue m.text field value = (m.add field value).text := by
  have hnone : findFieldValue m.text field = none := by
    unfold findFieldValue
    rw [findField_eq h, findField_body hm h hcr hno, (loop_eq_none_iff h).mpr hbody]
    rfl
  have hhead : upto m.text (m.empty ++ '\n' :: m.body) = m.head := upto_append _ _
  have heol : (if (strstr ['\r', '\n'] m.text).isSome then ['\r', '\n'] else ['\n']) =
      m.eol ++ ['\n'] := by
    unfold Mail.eol
    split <;> rfl
  unfold replaceFieldValue
  rw [hnone]
  dsimp only
  rw [strSeekEOH_text hm, hhead, heol]
  unfold Mail.text Mail.head Mail.add HeadField.lines HeadField.line
  simp

theorem copyLine_line {l : Text} (rest : Text) {n : Nat} (hl : '\n' ∉ l) (hn : l.length ≤ n) :
    url.copyLine n (l ++ '\n' :: rest) = chop l := by
  induction l generalizing n with
  | nil => cases n <;> rfl
  | cons c l ih =>
    obtain ⟨hc, hl⟩ := List.ne_and_not_mem_of_not_mem_cons hl
    rw [List.length_cons] at hn
    obtain ⟨n, rfl⟩ : ∃ k, n = k + 1 := ⟨n - 1, by omega⟩
    rw [List.cons_append, url.copyLine, ih hl (by omega)]
    cases l with
    | nil =>
      by_cases hcr : c = '\r'
      · subst hcr
        rfl
      · unfold chop
        simp [hcr, Ne.symm hc]
    | cons d l =>
      have hd := (List.ne_and_not_mem_of_not_mem_cons hl).1
      have hgo : ¬((c = '\n' || (c = '\r' && ((d :: l ++ '\n' :: rest).head? = some '\n' ||
          d :: l ++ '\n' :: rest = []))) = true) := by
        simp [Ne.symm hc, Ne.symm hd]
      unfold chop
      rw [if_neg hgo, List.getLast?_cons_cons, List.dropLast_cons_cons]
      split <;> rfl

theorem chop_append (l : Text) : l = chop l ++ crOf l := by
  unfold chop crOf
  split
  · rename_i hlast
    exact (List.dropLast_append_getLast? _ hlast).symm
  · simp

/-- The value is taken for set exactly if it is the rest of the line up to case. -/
theorem shortcut {rest : Text} (hf : f.Wf) (hv : Value value)
    (hroom : (f.value ++ '\n' :: rest).length < MAX_MIMEHEAD) :
    (strncaseeq (f.value ++ '\n' :: rest) value value.length &&
        strcaseeq (url.linescanX (f.value ++ '\n' :: rest) MAX_MIMEHEAD) value) =
      strcaseeq (chop f.value) value := by
  have hlen : f.value.length ≤ MAX_MIMEHEAD - 1 := by
    rw [List.length_append, List.length_cons] at hroom
    omega
  obtain ⟨d, v, hd⟩ := List.exists_cons_of_ne_nil hv.nonempty
  have hscan : strncaseeq (f.value ++ '\n' :: rest) value value.length = true →
      url.linescanX (f.value ++ '\n' :: rest) MAX_MIMEHEAD = chop f.value := by
    intro hcase
    have hblank : ∀ c t, f.value ++ '\n' :: rest = c :: t → (c == ' ' || c == '\t') = false := by
      intro c t hct
      unfold strncaseeq strcaseeq at hcase
      rw [hct, hd, List.length_cons, List.take_succ_cons, List.take_succ_cons] at hcase
      have hlow : c.toLower = d.toLower := (List.cons.inj (eq_of_beq hcase)).1
      have hbegins := hv.begins
      rw [hd] at hbegins
      rw [Bool.eq_false_iff]
      intro hc
      rcases (by simpa using hc : c = ' ' ∨ c = '\t') with rfl | rfl
      · exact hbegins.1 (by rw [eq_of_toLower_eq rfl hlow.symm]; rfl)
      · exact hbegins.2 (by rw [eq_of_toLower_eq rfl hlow.symm]; rfl)
    unfold url.linescanX
    have hstart : (f.value ++ '\n' :: rest).dropWhile (fun ch => ch == ' ' || ch == '\t') =
        f.value ++ '\n' :: rest := by
      cases hct : f.value ++ '\n' :: rest with
      | nil => rfl
      | cons c t => rw [List.dropWhile_cons_of_neg (by rw [hblank c t hct]; simp)]
    rw [hstart, copyLine_line _ hf.value_end hlen]
  cases hcase : strncaseeq (f.value ++ '\n' :: rest) value value.length with
  | true => rw [hscan hcase, Bool.true_and]
  | false =>
    rw [Bool.false_and, eq_comm, Bool.eq_false_iff]
    intro hsame
    have htake : (f.value ++ '\n' :: rest).take value.length = chop f.value := by
      have hsplit : f.value ++ '\n' :: rest = chop f.value ++ (crOf f.value ++ '\n' :: rest) := by
        rw [← List.append_assoc, ← chop_append]
      rw [hsplit, ← length_of_strcaseeq hsame, List.take_left]
    unfold strncaseeq at hcase
    rw [htake, List.take_length, hsame] at hcase
    cases hcase

theorem copyHeader_value {v : Text} (hv : ∀ c ∈ v, c ≠ '\n') : copyHeader false v = v := by
  induction v with
  | nil => rfl
  | cons c v ih =>
    obtain ⟨hc, hv⟩ := List.forall_mem_cons.mp hv
    have hnl : (c == '\n') = false := by simpa using hc
    rw [copyHeader, if_neg (by simp), hnl, ih hv]

theorem replace_present (hm : m.Wf) (h : FieldName field) (hfields : m.fields = a ++ f :: b)
    (ha : ∀ x ∈ a, x.is field = false) (his : f.is field = true) (hv : Value value)
    (hroom : m.text.length < MAX_MIMEHEAD) :
    replaceFieldValue m.text field value =
      if strcaseeq (chop f.value) value then m.text
      else ({ m with fields := a ++ f.put value :: b } : Mail).text := by
  have hwf := hm.fields
  rw [hfields] at hwf
  obtain ⟨hwa, hwfb⟩ := List.forall_mem_append.mp hwf
  obtain ⟨hwf, hwb⟩ := List.forall_mem_cons.mp hwfb
  obtain ⟨c, t, hrest, hc⟩ := rest_head hm hwb
  -- The text up to the value, and from the next field on.
  obtain ⟨pre, hpre⟩ : ∃ pre, ∀ v, ({ f with value := v } : HeadField).line = pre ++ v :=
    ⟨f.name ++ (List.replicate f.before ' ' ++ ':' :: List.replicate f.after ' '), fun v => by
      simp [HeadField.line]⟩
  have htext : m.text = flat '\n' (a.flatMap HeadField.lines) ++ pre ++
      (f.value ++ '\n' :: (flat '\n' f.conts ++ c :: t)) := by
    have hline : f.line = pre ++ f.value := hpre f.value
    rw [Mail.text_first hfields, hrest, hline]
    simp
  have hput : ({ m with fields := a ++ f.put value :: b } : Mail).text =
      flat '\n' (a.flatMap HeadField.lines) ++ pre ++
        (value ++ (f.lines.getLast?.elim [] crOf ++ '\n' :: c :: t)) := by
    rw [@Mail.text_first _ a b (f.put value) rfl]
    dsimp only
    rw [hrest]
    have hline : (f.put value).line = pre ++ (value ++ f.lines.getLast?.elim [] crOf) := hpre _
    rw [hline]
    simp [HeadField.put]
  obtain ⟨ls, l, hls, hl⟩ : ∃ ls l, f.lines = ls ++ [l] ∧ l ≠ [] := by
    obtain ⟨ls, l, hls⟩ := (List.eq_nil_or_concat f.lines).resolve_left (by simp [HeadField.lines])
    rw [List.concat_eq_append] at hls
    have hmem : l ∈ f.lines := by
      rw [hls]
      simp
    refine ⟨ls, l, hls, ?_⟩
    rcases List.mem_cons.mp hmem with rfl | hmem
    · obtain ⟨d, u, -, hd⟩ := f.line_eq
      rw [hd]
      simp
    · rintro rfl
      cases (hwf.conts _ hmem).1
  have hbefore : upto m.text (c :: t) =
      flat '\n' (a.flatMap HeadField.lines) ++ flat '\n' ls ++ (l ++ ['\n']) := by
    have hlines : m.text = flat '\n' (a.flatMap HeadField.lines) ++ flat '\n' f.lines ++ c :: t := by
      rw [Mail.text_first hfields, hrest, HeadField.lines]
      simp
    rw [hlines, upto_append, hls]
    simp
  have hnext : nextField (f.value ++ '\n' :: (flat '\n' f.conts ++ c :: t)) false = c :: t := by
    unfold nextField
    rw [nextField_line _ hwf.value_end, nextField_conts hwf.conts hc]
  have hfound : findFieldValue m.text field = some (f.value ++ '\n' :: (flat '\n' f.conts ++ c :: t)) := by
    rw [Mail.text_first hfields, hrest, findFieldValue_first _ h hwa ha hwf his]
  have hesp : (f.value ++ '\n' :: (flat '\n' f.conts ++ c :: t)).length < MAX_MIMEHEAD := by
    rw [htext, List.length_append] at hroom
    omega
  unfold replaceFieldValue
  rw [hfound]
  dsimp only
  rw [shortcut hwf hv hesp]
  split
  · rfl
  · have hupto : upto m.text (f.value ++ '\n' :: (flat '\n' f.conts ++ c :: t)) =
        flat '\n' (a.flatMap HeadField.lines) ++ pre := by rw [htext, upto_append]
    rw [hnext, hbefore, overLineEnd_line _ _ hl, hupto, copyHeader_value fun d hd => (hv.line d hd).2,
      hput, hls, List.getLast?_concat]
    simp

/-! ## Where the field is set -/

/-- The value has no tab, no line of the body is found in place of a field, and a value that is there
up to case is there as it is, on one line. -/
structure Mail.Plain (m : Mail) (field value : Text) : Prop where
  no_tab : '\t' ∉ value
  body : (∀ f ∈ m.fields, f.is field = false) →
    ∀ l ∈ segments '\n' m.body, atField l field = false
  same : ∀ a f b, m.fields = a ++ f :: b → (∀ x ∈ a, x.is field = false) → f.is field = true →
    strcaseeq (chop f.value) value = true → chop f.value = value ∧ f.conts = []

theorem no_tab_of_sets (h : m.Sets field value m') : '\t' ∉ value := by
  have hread := h.value (value.length + 1) (Nat.lt_succ_self _)
  unfold getFieldValue2 at hread
  obtain ⟨vp, -, hvp⟩ := Option.map_eq_some_iff.mp hread
  rw [← hvp]
  exact tab_not_mem_valuescan _ _ _

/-- A change in the body leaves the header as it is. -/
theorem replace_keeps {p esp hd body : Text} (h : FieldName field)
    (hloop : findField.loop field (hd ++ body) = some (p, esp)) (hsuf : esp <:+ body) :
    hd <+: replaceFieldValue (hd ++ body) field value := by
  obtain ⟨pre, rfl⟩ := hsuf
  have hfound : findFieldValue (hd ++ (pre ++ esp)) field = some esp := by
    unfold findFieldValue
    rw [findField_eq h, hloop]
    rfl
  unfold replaceFieldValue
  rw [hfound]
  dsimp only
  split
  · exact List.prefix_append _ _
  · rw [← List.append_assoc, upto_append, List.append_assoc, List.append_assoc]
    exact List.prefix_append _ _

theorem body_of_sets (hm : m.Wf) (h : FieldName field) (hcr : '\r' ∉ field)
    (htext : replaceFieldValue m.text field value = m'.text) (hsets : m.Sets field value m')
    (hno : ∀ f ∈ m.fields, f.is field = false) :
    ∀ l ∈ segments '\n' m.body, atField l field = false := by
  rw [← loop_eq_none_iff h]
  cases hloop : findField.loop field m.body with
  | none => rfl
  | some found =>
    obtain ⟨p, esp⟩ := found
    have hsplit : m.text = (m.head ++ (m.empty ++ ['\n'])) ++ m.body := by
      unfold Mail.text
      simp
    have hfull : findField.loop field ((m.head ++ (m.empty ++ ['\n'])) ++ m.body) = some (p, esp) := by
      rw [← hsplit, findField_body hm h hcr hno, hloop]
    have hprefix := @replace_keeps field value p esp _ _ h hfull (loop_suffix hloop)
    obtain ⟨f, hfields, -⟩ := hsets.missing hno
    have hwf := hsets.wf.fields f (by rw [hfields]; simp)
    obtain ⟨c, name, hname⟩ := List.exists_cons_of_ne_nil hwf.name.nonempty
    obtain ⟨d, t, -, hline⟩ := f.line_eq
    have hm' : ∃ y, m'.text = m.head ++ c :: y := by
      unfold Mail.text Mail.head
      rw [hfields, List.flatMap_append, flat_append, List.append_assoc, List.flatMap_singleton,
        HeadField.lines, flat_cons, hline, hname]
      exact ⟨_, rfl⟩
    obtain ⟨y, hy⟩ := hm'
    rw [← hsplit, htext, hy, List.prefix_append_right_inj] at hprefix
    have hcn := (hwf.name.chars c (by rw [hname]; exact List.mem_cons_self)).2.2.2
    rcases hm.empty with he | he
    · rw [he, List.nil_append, List.cons_prefix_cons] at hprefix
      exact absurd hprefix.1.symm hcn
    · rw [he, List.cons_append, List.cons_prefix_cons] at hprefix
      exact absurd (by rw [hname, hprefix.1]; exact List.mem_cons_self) hwf.name_cr

/-- A value that is the same up to case is read back as it is. -/
theorem clean_of_strcaseeq {v : Text} (h : strcaseeq v value = true) (hv : Value value)
    (htab : '\t' ∉ value) :
    (∀ c ∈ v, c ≠ '\r' ∧ c ≠ '\n' ∧ c ≠ '\t') ∧ (v.IsChain fun c d => c = ' ' → d ≠ ' ') ∧
      v.getLast? ≠ some ' ' := by
  obtain ⟨hchars, hchain⟩ := hv.clean htab
  have hmap : v.map Char.toLower = value.map Char.toLower := eq_of_beq h
  have hblank : ∀ c : Char, c.toLower = ' ' ↔ c = ' ' := fun c =>
    ⟨eq_of_toLower_eq rfl, fun hc => by rw [hc]; rfl⟩
  refine ⟨fun c hc => ?_, ?_, fun hlast => ?_⟩
  · refine ⟨?_, ?_, ?_⟩
    · rintro rfl
      exact (hchars _ (mem_of_strcaseeq h rfl hc)).1 rfl
    · rintro rfl
      exact (hchars _ (mem_of_strcaseeq h rfl hc)).2.1 rfl
    · rintro rfl
      exact htab (mem_of_strcaseeq h rfl hc)
  · have hlower : ∀ {l : Text}, (l.map Char.toLower).IsChain (fun c d => c = ' ' → d ≠ ' ') ↔
        l.IsChain fun c d => c = ' ' → d ≠ ' ' := by
      intro l
      rw [List.isChain_map]
      simp only [ne_eq, hblank]
    rw [← hlower, hmap, hlower]
    exact hchain
  · have hends := congrArg List.getLast? hmap
    rw [List.getLast?_map, List.getLast?_map, hlast] at hends
    obtain ⟨c, hc, hlow⟩ := Option.map_eq_some_iff.mp hends.symm
    rw [(hblank c).mp hlow] at hc
    exact hv.ends.1 hc

theorem same_of_sets (hm : m.Wf) (h : FieldName field) (hv : Value value)
    (hroom : m.text.length < MAX_MIMEHEAD) (htext : replaceFieldValue m.text field value = m'.text)
    (hsets : m.Sets field value m') (hfields : m.fields = a ++ f :: b)
    (ha : ∀ x ∈ a, x.is field = false) (his : f.is field = true)
    (hcase : strcaseeq (chop f.value) value = true) : chop f.value = value ∧ f.conts = [] := by
  have hlen := length_of_strcaseeq hcase
  obtain ⟨hchars, hchain, hlast⟩ := clean_of_strcaseeq hcase hv (no_tab_of_sets hsets)
  have hread := hsets.value (value.length + 4) (by omega)
  rw [← htext, replace_present hm h hfields ha his hv hroom, if_pos hcase,
    getFieldValue_first _ hm h hfields ha his, chop_append f.value, List.append_assoc,
    valuescan_append _ hchars hchain (by simp) (by omega), Option.some.injEq] at hread
  have hnil := congrArg List.length hread
  rw [List.length_append, hlen] at hnil
  have hrest := List.length_eq_zero_iff.mp (Nat.add_eq_left.mp hnil)
  rw [hlen, hrest, List.append_nil] at hread
  refine ⟨hread, ?_⟩
  cases hconts : f.conts with
  | nil => rfl
  | cons l ls =>
    have hwf := hm.fields f (by rw [hfields]; simp)
    have hcont := (hwf.conts l (by rw [hconts]; exact List.mem_cons_self)).1
    cases l with
    | nil => cases hcont
    | cons d l =>
      have hd : d = ' ' ∨ d = '\t' := by simpa [isCont] using hcont
      have hlast' : (chop f.value).getLast?.or none ≠ some ' ' := by simpa using hlast
      have hcrlen : (crOf f.value).length ≤ 1 := by
        rcases crOf_cases f.value with hcr | hcr <;> rw [hcr] <;> simp
      rw [hconts, flat_cons, List.append_assoc, List.cons_append] at hrest
      exact absurd hrest (valuescan_folded (crOf_cases _) hd hlast' (by omega))

theorem plain_of_sets (hm : m.Wf) (h : FieldName field) (hcr : '\r' ∉ field) (hv : Value value)
    (hroom : m.text.length < MAX_MIMEHEAD) (htext : replaceFieldValue m.text field value = m'.text)
    (hsets : m.Sets field value m') : m.Plain field value :=
  ⟨no_tab_of_sets hsets, body_of_sets hm h hcr htext hsets, fun _ _ _ hfields ha his =>
    same_of_sets hm h hv hroom htext hsets hfields ha his⟩

/-- There is one first element only. -/
theorem first_unique {α : Type} {p : α → Bool} {a a' b b' : List α} {x x' : α}
    (h : a ++ x :: b = a' ++ x' :: b') (ha : ∀ y ∈ a, p y = false) (hx : p x = true)
    (ha' : ∀ y ∈ a', p y = false) (hx' : p x' = true) : a = a' ∧ x = x' ∧ b = b' := by
  induction a generalizing a' with
  | nil =>
    cases a' with
    | nil => simpa using h
    | cons y a' =>
      rw [List.nil_append, List.cons_append, List.cons.injEq] at h
      rw [h.1, ha' y List.mem_cons_self] at hx
      cases hx
  | cons y a ih =>
    cases a' with
    | nil =>
      rw [List.nil_append, List.cons_append, List.cons.injEq] at h
      rw [← h.1, ha y List.mem_cons_self] at hx'
      cases hx'
    | cons z a' =>
      rw [List.cons_append, List.cons_append, List.cons.injEq] at h
      obtain ⟨hab, hrest⟩ := ih h.2 (fun w hw => ha w (List.mem_cons_of_mem _ hw))
        fun w hw => ha' w (List.mem_cons_of_mem _ hw)
      exact ⟨by rw [h.1, hab], hrest⟩

theorem add_sets (hm : m.Wf) (h : FieldName field) (hcr : '\r' ∉ field) (hv : Value value)
    (htab : '\t' ∉ value) (hno : ∀ f ∈ m.fields, f.is field = false) :
    m.Sets field value (m.add field value) where
  wf := add_wf hm h hcr hv
  empty := rfl
  body := rfl
  missing := fun _ => ⟨_, rfl, beq_self_eq_true _⟩
  present := by
    intro a f b hfields _ his
    rw [hno f (by rw [hfields]; simp)] at his
    cases his
  value := fun size hsize =>
    getFieldValue_set (add_wf hm h hcr hv) h rfl hno (beq_self_eq_true _) rfl rfl (eol_cases m)
      (hv.clean htab).1 (hv.clean htab).2 hsize

theorem put_sets (hm : m.Wf) (h : FieldName field) (hv : Value value) (htab : '\t' ∉ value)
    (hfields : m.fields = a ++ f :: b) (ha : ∀ x ∈ a, x.is field = false) (his : f.is field = true) :
    m.Sets field value { m with fields := a ++ f.put value :: b } := by
  have hwf : ({ m with fields := a ++ f.put value :: b } : Mail).Wf := by
    refine ⟨fun x hx => ?_, hm.empty⟩
    have hall := hm.fields
    rw [hfields] at hall
    obtain ⟨hwa, hwb⟩ := List.forall_mem_append.mp hall
    obtain ⟨hwf, hwb⟩ := List.forall_mem_cons.mp hwb
    rcases List.mem_append.mp hx with hx | hx
    · exact hwa x hx
    · rcases List.mem_cons.mp hx with rfl | hx
      · exact put_wf hwf hv
      · exact hwb x hx
  refine ⟨hwf, rfl, rfl, ?_, ?_, ?_⟩
  · intro hno
    rw [hno f (by rw [hfields]; simp)] at his
    cases his
  · intro a' f' b' hfields' ha' his'
    obtain ⟨rfl, rfl, rfl⟩ := first_unique (hfields.symm.trans hfields') ha his ha' his'
    exact ⟨f.put value, rfl, rfl⟩
  · intro size hsize
    exact getFieldValue_set hwf h rfl ha his rfl rfl (put_cr f) (hv.clean htab).1 (hv.clean htab).2
      hsize

/-- A field that is there as it should be stays. -/
theorem same_sets (hm : m.Wf) (h : FieldName field) (hv : Value value) (htab : '\t' ∉ value)
    (hfields : m.fields = a ++ f :: b) (ha : ∀ x ∈ a, x.is field = false) (his : f.is field = true)
    (hsame : chop f.value = value) (hconts : f.conts = []) : m.Sets field value m := by
  have hvalue : f.value = value ++ crOf f.value := by
    rw [← hsame]
    exact chop_append f.value
  refine ⟨hm, rfl, rfl, ?_, fun a f b hfields' _ _ => ⟨f, hfields', rfl⟩, fun size hsize => ?_⟩
  · intro hno
    rw [hno f (by rw [hfields]; simp)] at his
    cases his
  · exact getFieldValue_set hm h hfields ha his hconts hvalue (crOf_cases _) (hv.clean htab).1
      (hv.clean htab).2 hsize

end

/-- The field is set, with all else as it was, exactly where the value has no tab, no line of the body
is found in place of a missing field, and no value that is there only up to case is left. -/
theorem replaceFieldValue_sets_iff {m : Mail} {field value : Text} (hm : m.Wf) (h : FieldName field)
    (hcr : '\r' ∉ field) (hv : Value value) (hroom : m.text.length < MAX_MIMEHEAD) :
    (∃ m', replaceFieldValue m.text field value = m'.text ∧ m.Sets field value m') ↔
      m.Plain field value := by
  constructor
  · rintro ⟨m', htext, hsets⟩
    exact plain_of_sets hm h hcr hv hroom htext hsets
  · rintro ⟨htab, hbody, hsame⟩
    rcases first_split (HeadField.is field) m.fields with hno | ⟨a, f, b, hfields, ha, his⟩
    · exact ⟨m.add field value, replace_missing hm h hcr hno (hbody hno),
        add_sets hm h hcr hv htab hno⟩
    · have htext := replace_present hm h hfields ha his hv hroom
      split at htext
      · rename_i hcase
        obtain ⟨heq, hconts⟩ := hsame a f b hfields ha his hcase
        exact ⟨m, htext, same_sets hm h hv htab hfields ha his heq hconts⟩
      · exact ⟨_, htext, put_sets hm h hv htab hfields ha his⟩

theorem FieldName.to : FieldName ['T', 'o'] :=
  ⟨by simp, by simp⟩

theorem Value.single_z : Value ['z'] :=
  ⟨by simp, by simp, by simp, by simp, List.isChain_singleton _⟩

/-- A message with one field, `To: x`, which is folded. -/
def foldedMail : Mail where
  fields := [⟨['T', 'o'], 0, 1, ['x', '\r'], [[' ', 'y', '\r']]⟩]
  empty := ['\r']
  body := ['b', '\n']

theorem replaceFieldValue_sets_folded :
    ∃ m', replaceFieldValue foldedMail.text ['T', 'o'] ['z'] = m'.text ∧
      foldedMail.Sets ['T', 'o'] ['z'] m' := by
  have hlen : foldedMail.text.length = 15 := rfl
  have hroom : foldedMail.text.length < MAX_MIMEHEAD := by rw [hlen, MAX_MIMEHEAD]; omega
  refine (replaceFieldValue_sets_iff ?_ FieldName.to (by simp) Value.single_z hroom).mpr ?_
  · refine ⟨fun f hf => ?_, .inr rfl⟩
    rw [List.mem_singleton.mp hf]
    exact ⟨FieldName.to, by decide, by decide, by decide, by decide⟩
  · refine ⟨by decide, fun hno => ?_, ?_⟩
    · have his := hno _ List.mem_cons_self
      cases his
    · rintro (_ | ⟨x, a⟩) f b hfields _ _ hcase
      · obtain ⟨rfl, -⟩ := List.cons.inj hfields
        cases hcase
      · exact absurd (congrArg List.length hfields) (by simp [foldedMail])

/-- A message without the field, and a body with a line that looks like it. -/
def likeMail : Mail where
  fields := []
  empty := []
  body := ['T', 'o', ':', ' ', 'x', '\n']

/-- The line of the body is changed, and no field is added. -/
theorem body_line_changed :
    likeMail.Wf ∧ likeMail.text.length < MAX_MIMEHEAD ∧
      ¬∃ m', replaceFieldValue likeMail.text ['T', 'o'] ['z'] = m'.text ∧
        likeMail.Sets ['T', 'o'] ['z'] m' := by
  have hwf : likeMail.Wf := ⟨by simp [likeMail], .inl rfl⟩
  have hlen : likeMail.text.length = 7 := rfl
  have hroom : likeMail.text.length < MAX_MIMEHEAD := by rw [hlen, MAX_MIMEHEAD]; omega
  refine ⟨hwf, hroom, ?_⟩
  rintro ⟨m', htext, hsets⟩
  have hplain := plain_of_sets hwf FieldName.to (by simp) Value.single_z hroom htext hsets
  have hline := hplain.body (by simp [likeMail]) ['T', 'o', ':', ' ', 'x'] (by decide)
  revert hline
  decide

end delegate.rfc822
