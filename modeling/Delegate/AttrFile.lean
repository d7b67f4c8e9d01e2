-- The attributes of a cached resource (ACL_edit, src/cache.cpp). They are the
-- lines `name:value` of a file, which is rewritten in place from a buffer.
import Delegate.CText
import Delegate.LineText
import Delegate.Runs

open ctext linetext runs

namespace delegate.attr

/-! ## The pure model -/

inductive Op
  | A_GET | A_ADD | A_DEL | A_RPL
  deriving DecidableEq, Repr

/-- `sizeof(data)` -/
def DATA : Nat := 64 * 1024

/-- `Xfgets` with `room` bytes before the last one of the buffer. At the end of the file, and when
there is no room, it reads nothing. -/
def Xfgets (room : Nat) (fp : Text) : Text := (first '\n' fp).take room

theorem drop_Xfgets_lt {room : Nat} {fp : Text} (h : Xfgets room fp ≠ []) :
    (fp.drop (Xfgets room fp).length).length < fp.length := by
  have hpos : 0 < (Xfgets room fp).length := List.length_pos_iff.mpr h
  have hne : fp ≠ [] := by
    rintro rfl
    exact h List.take_nil
  have hlen : 0 < fp.length := List.length_pos_iff.mpr hne
  rw [List.length_drop]
  omega

/-- The names and values of a line: `sscanf` with ` %[^:] : %[^\r\n]` into empty buffers of 1024
bytes. -/
def scanNamVal (dp : Text) : Text × Text :=
  let nam := ((dp.dropWhile isspace).takeWhile (· ≠ ':')).take 1023
  if nam = [] then ([], [])
  else
    match (((dp.dropWhile isspace).drop nam.length).dropWhile isspace) with
    | ':' :: s => (nam, ((s.dropWhile isspace).takeWhile fun c => c ≠ '\r' ∧ c ≠ '\n').take 1023)
    | _ => (nam, [])

/-- What becomes of a line that was read. -/
inductive Turn
  | stop (code : Int) (value : Text)
  | keep
  | drop
  | skip

def turn (op : Op) (name value nam val : Text) : Turn :=
  match op with
  | .A_GET => if strcaseeq name nam then .stop 1 val else .skip
  | .A_ADD => if strcaseeq name nam && strcaseeq value val then .stop 0 value else .skip
  | .A_DEL => if strcaseeq name nam && (value == [] || value == val) then .drop else .keep
  | .A_RPL => if strcaseeq name nam then .drop else .keep

/-- How the loop over the lines ends. -/
inductive Scanned
  | found (code : Int) (value : Text)
  | done (data : Text) (ndel : Nat)

/-- The loop over the lines. `data` is the text before `dp`. -/
def scan (op : Op) (name value data : Text) (ndel : Nat) (fp : Text) : Scanned :=
  let dp := Xfgets (DATA - 1 - data.length) fp
  if dp = [] then .done data ndel
  else
    match turn op name value (scanNamVal dp).1 (scanNamVal dp).2 with
    | .stop code value => .found code value
    | .keep => scan op name value (data ++ dp) ndel (fp.drop dp.length)
    | .drop => scan op name value data (ndel + 1) (fp.drop dp.length)
    | .skip => scan op name value data ndel (fp.drop dp.length)
termination_by fp.length
decreasing_by
  all_goals
    rename_i hdp
    exact drop_Xfgets_lt hdp

/-- `fputs` at the begin of the file, which is then truncated at the position. -/
def rewriteFile (fp data : Text) : Text := (data ++ fp.drop data.length).take data.length

/-- `fprintf` with `%s:%s\n`. -/
def line (name value : Text) : Text := name ++ ':' :: (value ++ ['\n'])

/-- The code that is returned, the value afterwards, and the file afterwards. -/
def ACL_edit (op : Op) (name value fp : Text) : Int × Text × Text :=
  match scan op name value [] 0 fp with
  | .found code value => (code, value, fp)
  | .done data ndel =>
    match op with
    | .A_GET => (0, [], fp)
    | .A_ADD => (1, value, fp ++ line name value)
    | .A_DEL => (ndel, value, if ndel ≠ 0 then rewriteFile fp data else fp)
    | .A_RPL => (ndel, value, (if ndel ≠ 0 then rewriteFile fp data else fp) ++ line name value)

structure Cmd where
  op : Op
  name : Text
  value : Text

/-- An edit of the file, with what it answers. -/
def editFile (fp : Text) (c : Cmd) : (Int × Text) × Text :=
  let r := ACL_edit c.op c.name c.value fp
  ((r.1, r.2.1), r.2.2)

/-! ## The multimap -/

/-- The pairs of names and values, in the order of the file. -/
abbrev Attrs := List (Text × Text)

def render (attrs : Attrs) : Text := (attrs.map fun p => line p.1 p.2).flatten

/-- The same pair, but for the case. -/
def equalPair (name value : Text) (p : Text × Text) : Bool :=
  strcaseeq name p.1 && strcaseeq value p.2

/-- What is to be deleted: all pairs of a name, or only those with a value. -/
def deleted (name value : Text) (p : Text × Text) : Bool :=
  strcaseeq name p.1 && (value == [] || value == p.2)

/-- An edit of the multimap, with what it answers: whether there is a pair, or how many pairs were
added or removed. -/
def editAttrs (attrs : Attrs) (c : Cmd) : (Int × Text) × Attrs :=
  match c.op with
  | .A_GET =>
    match attrs.find? fun p => strcaseeq c.name p.1 with
    | some p => ((1, p.2), attrs)
    | none => ((0, []), attrs)
  | .A_ADD =>
    if attrs.any (equalPair c.name c.value) then ((0, c.value), attrs)
    else ((1, c.value), attrs ++ [(c.name, c.value)])
  | .A_DEL =>
    ((attrs.countP (deleted c.name c.value), c.value),
      attrs.filter fun p => !deleted c.name c.value p)
  | .A_RPL =>
    ((attrs.countP fun p => strcaseeq c.name p.1, c.value),
      (attrs.filter fun p => !strcaseeq c.name p.1) ++ [(c.name, c.value)])

/-- Names over letters, digits and `-`. -/
def isNameChar (c : Char) : Bool := c.isAlphanum || c == '-'

def isprint (c : Char) : Bool := ' ' ≤ c && c ≤ '~'

/-- What a value is to be: shorter than the buffer, printable, and without a leading blank. -/
structure IsValue (value : Text) : Prop where
  short : value.length < 1024
  chars : ∀ c ∈ value, isprint c = true
  head : ∀ c ∈ value.head?, c ≠ ' '

/-- What a name is to be: not empty, and shorter than the buffer. -/
structure IsName (name : Text) : Prop where
  ne_nil : name ≠ []
  short : name.length < 1024
  chars : ∀ c ∈ name, isNameChar c = true

/-! ## The lines -/

theorem isNameChar_facts {c : Char} (h : isNameChar c = true) :
    isspace c = false ∧ c ≠ ':' ∧ c ≠ '\n' := by
  have hnot : ∀ d, isNameChar d = false → c ≠ d := by
    rintro d hd rfl
    rw [h] at hd
    cases hd
  refine ⟨?_, hnot ':' rfl, hnot '\n' rfl⟩
  simp [isspace, hnot ' ' rfl, hnot '\t' rfl, hnot '\n' rfl, hnot '\x0b' rfl, hnot '\x0c' rfl,
    hnot '\r' rfl]

theorem isprint_facts {c : Char} (h : isprint c = true) :
    (c ≠ ' ' → isspace c = false) ∧ c ≠ '\r' ∧ c ≠ '\n' := by
  have hnot : ∀ d, isprint d = false → c ≠ d := by
    rintro d hd rfl
    rw [h] at hd
    cases hd
  refine ⟨?_, hnot '\r' rfl, hnot '\n' rfl⟩
  intro hblank
  simp [isspace, hblank, hnot '\t' rfl, hnot '\n' rfl, hnot '\x0b' rfl, hnot '\x0c' rfl,
    hnot '\r' rfl]

section
variable {name value : Text}

theorem line_line (hname : ∀ c ∈ name, isNameChar c = true) (hvalue : ∀ c ∈ value, isprint c = true) :
    Line '\n' (line name value) := by
  refine ⟨name ++ ':' :: value, ?_, by simp [line]⟩
  intro hmem
  rcases List.mem_append.mp hmem with hmem | hmem
  · exact (isNameChar_facts (hname _ hmem)).2.2 rfl
  · rcases List.mem_cons.mp hmem with heq | hmem
    · exact absurd heq (by decide)
    · exact (isprint_facts (hvalue _ hmem)).2.2 rfl

/-- What is read from the text of a value. -/
theorem scan_value (hvalue : IsValue value) :
    (((value ++ ['\n']).dropWhile isspace).takeWhile fun c => c ≠ '\r' ∧ c ≠ '\n').take 1023 =
      value := by
  have hstart : (value ++ ['\n']).dropWhile isspace = if value = [] then [] else value ++ ['\n'] := by
    cases value with
    | nil => rfl
    | cons c value =>
      have hc := (isprint_facts (hvalue.chars c List.mem_cons_self)).1 (hvalue.head c rfl)
      rw [if_neg (List.cons_ne_nil _ _), List.cons_append, List.dropWhile_cons_of_neg (by simp [hc])]
  rw [hstart]
  split
  · rename_i hnil
    rw [hnil]
    rfl
  · have hchars : ∀ c ∈ value, decide (c ≠ '\r' ∧ c ≠ '\n') = true := fun c hc =>
      decide_eq_true (isprint_facts (hvalue.chars c hc)).2
    have hshort := hvalue.short
    rw [(while_append hchars (by simp)).1, List.take_of_length_le (by omega)]

/-- What is read from a line whose name is not empty: the name up to the size of the buffer, and
the value if the name is not cut. -/
theorem scanNamVal_line (hne : name ≠ []) (hname : ∀ c ∈ name, isNameChar c = true)
    (hvalue : IsValue value) : scanNamVal (line name value) =
      if name.length < 1024 then (name, value) else (name.take 1023, []) := by
  have hstart : (line name value).dropWhile isspace = line name value := by
    cases name with
    | nil => exact absurd rfl hne
    | cons c name =>
      have hc := (isNameChar_facts (hname c List.mem_cons_self)).1
      rw [line, List.cons_append, List.dropWhile_cons_of_neg (by simp [hc])]
  have hnam : (line name value).takeWhile (· ≠ ':') = name := by
    apply (while_append _ _).1
    · intro c hc
      exact decide_eq_true (isNameChar_facts (hname c hc)).2.1
    · simp
  have hpos := List.length_pos_iff.mpr hne
  have htake : name.take 1023 ≠ [] := by
    apply List.length_pos_iff.mp
    rw [List.length_take]
    omega
  unfold scanNamVal
  dsimp only
  rw [hstart, hnam, if_neg htake]
  by_cases hlen : name.length < 1024
  · have hall : name.take 1023 = name := List.take_of_length_le (by omega)
    have hcolon : (':' :: (value ++ ['\n'])).dropWhile isspace = ':' :: (value ++ ['\n']) := rfl
    rw [if_pos hlen, hall, line, List.drop_left, hcolon]
    exact congrArg (Prod.mk name) (scan_value hvalue)
  · rw [if_neg hlen]
    have hcut : (name.take 1023).length = 1023 := by
      rw [List.length_take]
      omega
    obtain ⟨c, rest, hrest⟩ := List.exists_cons_of_length_pos (l := name.drop 1023) (by
      rw [List.length_drop]
      omega)
    have hc := isNameChar_facts (hname c (List.mem_of_mem_drop (hrest ▸ List.mem_cons_self)))
    have hdrop : (line name value).drop 1023 = c :: (rest ++ ':' :: (value ++ ['\n'])) := by
      rw [line, List.drop_append_of_le_length (by omega), hrest]
      rfl
    rw [hcut, hdrop, List.dropWhile_cons_of_neg (by simp [hc.1])]
    split
    · rename_i heq
      exact absurd (List.cons.inj heq).1 hc.2.1
    · rfl

end

/-! ## The loop -/

section
variable {op : Op} {name value data : Text} {ndel : Nat} {attrs : Attrs}

/-- One turn of the loop, for a line that the buffer has room for. -/
theorem scan_line {l : Text} (hl : Line '\n' l) (hroom : data.length + l.length < DATA)
    (rest : Text) : scan op name value data ndel (l ++ rest) =
      match turn op name value (scanNamVal l).1 (scanNamVal l).2 with
      | .stop code value => .found code value
      | .keep => scan op name value (data ++ l) ndel rest
      | .drop => scan op name value data (ndel + 1) rest
      | .skip => scan op name value data ndel rest := by
  have hdp : Xfgets (DATA - 1 - data.length) (l ++ rest) = l := by
    rw [Xfgets, hl.first_append, List.take_of_length_le (by omega)]
  rw [scan, hdp, if_neg hl.ne_nil, List.drop_left]

theorem scan_nil : scan op name value data ndel [] = .done data ndel := by
  rw [scan]
  exact if_pos List.take_nil

theorem render_cons (p : Text × Text) (attrs : Attrs) :
    render (p :: attrs) = line p.1 p.2 ++ render attrs := rfl

theorem render_append (attrs more : Attrs) : render (attrs ++ more) = render attrs ++ render more := by
  rw [render, List.map_append, List.flatten_append]
  rfl

/-- A pair that the file can hold. -/
def IsPair (p : Text × Text) : Prop := IsName p.1 ∧ IsValue p.2

theorem IsPair.line {p : Text × Text} (h : IsPair p) :
    Line '\n' (attr.line p.1 p.2) ∧ scanNamVal (attr.line p.1 p.2) = p := by
  refine ⟨line_line h.1.chars h.2.chars, ?_⟩
  rw [scanNamVal_line h.1.ne_nil h.1.chars h.2, if_pos h.1.short]

/-- The loop that looks for a line. -/
theorem scan_find (hit : Text × Text → Bool) {code : Int} (answer : Text × Text → Text)
    (hturn : ∀ p, turn op name value p.1 p.2 = if hit p then .stop code (answer p) else .skip)
    (hpairs : ∀ p ∈ attrs, IsPair p) (hroom : (render attrs).length < DATA) :
    scan op name value [] 0 (render attrs) =
      match attrs.find? hit with
      | some p => .found code (answer p)
      | none => .done [] 0 := by
  induction attrs with
  | nil => exact scan_nil
  | cons p attrs ih =>
    obtain ⟨hline, hscan⟩ := (hpairs p List.mem_cons_self).line
    rw [render_cons, List.length_append] at hroom
    rw [render_cons, scan_line hline (by simp; omega), hscan, hturn, List.find?_cons]
    cases hit p with
    | true => rfl
    | false => exact ih (fun q hq => hpairs q (List.mem_cons_of_mem _ hq)) (by omega)

/-- The loop that leaves lines out. -/
theorem scan_filter (out : Text × Text → Bool)
    (hturn : ∀ p, turn op name value p.1 p.2 = if out p then .drop else .keep)
    (hpairs : ∀ p ∈ attrs, IsPair p) (hroom : data.length + (render attrs).length < DATA) :
    scan op name value data ndel (render attrs) =
      .done (data ++ render (attrs.filter fun p => !out p)) (ndel + attrs.countP out) := by
  induction attrs generalizing data ndel with
  | nil => simp [render, scan_nil]
  | cons p attrs ih =>
    obtain ⟨hline, hscan⟩ := (hpairs p List.mem_cons_self).line
    have hrest := fun q hq => hpairs q (List.mem_cons_of_mem _ hq)
    rw [render_cons, List.length_append] at hroom
    rw [render_cons, scan_line hline (by omega), hscan, hturn]
    cases hout : out p with
    | true =>
      rw [List.filter_cons_of_neg (by simp [hout]), List.countP_cons_of_pos hout]
      simp only [if_true]
      rw [ih hrest (by omega), Nat.add_assoc, Nat.add_comm 1]
    | false =>
      rw [List.filter_cons_of_pos (by simp [hout]), List.countP_cons_of_neg (by simp [hout]),
        render_cons, ← List.append_assoc]
      simp only [Bool.false_eq_true, if_false]
      rw [ih hrest (by rw [List.length_append]; omega)]

theorem rewriteFile_eq (fp data : Text) : rewriteFile fp data = data := List.take_left

/-- The file after lines were left out. -/
theorem rewritten {out : Text × Text → Bool} :
    (if attrs.countP out ≠ 0 then
        rewriteFile (render attrs) (render (attrs.filter fun p => !out p))
      else render attrs) = render (attrs.filter fun p => !out p) := by
  split
  · exact rewriteFile_eq _ _
  · rename_i hzero
    have hnone : ∀ p ∈ attrs, ¬out p = true := List.countP_eq_zero.mp (not_not.mp hzero)
    rw [List.filter_eq_self.mpr fun p hp => by simp [hnone p hp]]

end

/-! ## The edits -/

structure Cmd.Valid (c : Cmd) : Prop where
  name : IsName c.name
  value : IsValue c.value

/-- Every edit of the file is the edit of the multimap. -/
theorem editFile_render {attrs : Attrs} (c : Cmd) (hpairs : ∀ p ∈ attrs, IsPair p)
    (hroom : (render attrs).length < DATA) :
    editFile (render attrs) c = ((editAttrs attrs c).1, render (editAttrs attrs c).2) := by
  obtain ⟨op, name, value⟩ := c
  have hone : render [(name, value)] = line name value := List.append_nil _
  unfold editFile ACL_edit editAttrs
  dsimp only
  cases op with
  | A_GET =>
    rw [scan_find (fun p => strcaseeq name p.1) (fun p => p.2) (fun _ => rfl) hpairs hroom]
    cases attrs.find? fun p => strcaseeq name p.1 <;> rfl
  | A_ADD =>
    rw [scan_find (equalPair name value) (fun _ => value) (fun _ => rfl) hpairs hroom,
      ← List.isSome_find?]
    cases attrs.find? (equalPair name value) with
    | some p => rfl
    | none => simp [render_append, hone]
  | A_DEL =>
    rw [scan_filter (deleted name value) (fun _ => rfl) hpairs (by simpa using hroom),
      List.nil_append, Nat.zero_add]
    dsimp only
    rw [rewritten]
  | A_RPL =>
    rw [scan_filter (fun p => strcaseeq name p.1) (fun _ => rfl) hpairs
      (by simpa using hroom), List.nil_append, Nat.zero_add]
    dsimp only
    rw [rewritten, render_append, hone]

theorem editAttrs_pairs {attrs : Attrs} {c : Cmd} (hpairs : ∀ p ∈ attrs, IsPair p) (hc : c.Valid) :
    ∀ p ∈ (editAttrs attrs c).2, IsPair p := by
  have hnew : ∀ as : Attrs, (∀ p ∈ as, IsPair p) → ∀ p ∈ as ++ [(c.name, c.value)], IsPair p := by
    intro as has p hp
    rcases List.mem_append.mp hp with hp | hp
    · exact has p hp
    · rw [List.mem_singleton.mp hp]
      exact ⟨hc.name, hc.value⟩
  have hfilter : ∀ keep : Text × Text → Bool, ∀ p ∈ attrs.filter keep, IsPair p :=
    fun _ p hp => hpairs p (List.mem_filter.mp hp).1
  unfold editAttrs
  cases c.op with
  | A_GET =>
    dsimp only
    split <;> exact hpairs
  | A_ADD =>
    dsimp only
    split
    · exact hpairs
    · exact hnew _ hpairs
  | A_DEL => exact hfilter _
  | A_RPL => exact hnew _ (hfilter _)

/-- In every history of edits the file holds the multimap, and every edit answers as the multimap
does, as long as the file is smaller than the buffer. -/
theorem history_multimap (cmds : List Cmd) (hcmds : ∀ c ∈ cmds, c.Valid)
    (hsize : ∀ before, before <+: cmds → (answers editFile [] before).2.length < 64 * 1024) :
    answers editFile [] cmds =
      ((answers editAttrs [] cmds).1, render (answers editAttrs [] cmds).2) :=
  answers_refine render (fun attrs => ∀ p ∈ attrs, IsPair p) (fun fp => fp.length < 64 * 1024)
    (fun _ _ => editAttrs_pairs)
    (fun _ c hpairs _ hroom => editFile_render c hpairs hroom) (t := []) (by simp) hcmds hsize

/-- A pair is replaced where it is, and the name is read in any case. -/
theorem history_one_name :
    answers editFile [] [⟨.A_ADD, ['a'], ['1']⟩, ⟨.A_RPL, ['A'], ['2']⟩] =
      ((answers editAttrs [] [⟨.A_ADD, ['a'], ['1']⟩, ⟨.A_RPL, ['A'], ['2']⟩]).1,
        render (answers editAttrs [] [⟨.A_ADD, ['a'], ['1']⟩, ⟨.A_RPL, ['A'], ['2']⟩]).2) := by
  have hvalid : ∀ op c d, isNameChar c = true → isprint d = true → d ≠ ' ' →
      Cmd.Valid ⟨op, [c], [d]⟩ := by
    intro op c d hc hd hblank
    exact ⟨⟨by simp, by simp, by simpa using hc⟩, ⟨by simp, by simpa using hd, by simpa using hblank⟩⟩
  have hadd : (editFile [] ⟨.A_ADD, ['a'], ['1']⟩).2 = line ['a'] ['1'] := by
    simp [editFile, ACL_edit, scan_nil]
  have hrpl : (editFile (line ['a'] ['1']) ⟨.A_RPL, ['A'], ['2']⟩).2 = line ['A'] ['2'] := by
    have hpair : ∀ p ∈ [((['a'], ['1']) : Text × Text)], IsPair p := by
      intro p hp
      rw [List.mem_singleton.mp hp]
      exact ⟨(hvalid .A_ADD 'a' '1' rfl rfl (by decide)).name,
        (hvalid .A_ADD 'a' '1' rfl rfl (by decide)).value⟩
    have hedit := editFile_render ⟨.A_RPL, ['A'], ['2']⟩ hpair (by decide)
    exact (congrArg Prod.snd hedit).trans rfl
  apply history_multimap
  · intro c hc
    rcases List.mem_pair.mp hc with rfl | rfl
    · exact hvalid _ _ _ rfl rfl (by decide)
    · exact hvalid _ _ _ rfl rfl (by decide)
  · intro before hbefore
    have hcases : before = [] ∨ before = [⟨.A_ADD, ['a'], ['1']⟩] ∨
        before = [⟨.A_ADD, ['a'], ['1']⟩, ⟨.A_RPL, ['A'], ['2']⟩] := by
      have hmem := (List.mem_inits _ _).mpr hbefore
      simpa using hmem
    rcases hcases with rfl | rfl | rfl
    · decide
    · rw [answers, hadd]
      decide
    · rw [answers, hadd, answers, hrpl]
      decide

/-- What is read from a line decides whether its pair is added again. -/
theorem editFile_again {name value : Text} (hline : Line '\n' (line name value))
    (hlen : (line name value).length < DATA)
    (hread : (strcaseeq name (scanNamVal (line name value)).1 &&
      strcaseeq value (scanNamVal (line name value)).2) = false) :
    (answers editFile [] [⟨.A_ADD, name, value⟩, ⟨.A_ADD, name, value⟩]).2 =
      line name value ++ line name value := by
  have hfirst : (editFile [] ⟨.A_ADD, name, value⟩).2 = line name value := by
    simp [editFile, ACL_edit, scan_nil]
  have hturn : turn .A_ADD name value (scanNamVal (line name value)).1
      (scanNamVal (line name value)).2 = .skip := by
    rw [turn, hread]
    rfl
  have hscan : scan .A_ADD name value [] 0 (line name value) = .done [] 0 := by
    have hone : scan .A_ADD name value [] 0 (line name value ++ []) = _ :=
      scan_line hline (by simpa using hlen) []
    rw [List.append_nil, hturn] at hone
    rw [hone]
    exact scan_nil
  have hsecond : (editFile (line name value) ⟨.A_ADD, name, value⟩).2 =
      line name value ++ line name value := by
    rw [editFile, ACL_edit, hscan]
  rw [answers, hfirst, answers, hsecond]
  rfl

theorem editAttrs_again (name value : Text) :
    (answers editAttrs [] [⟨.A_ADD, name, value⟩, ⟨.A_ADD, name, value⟩]).2 = [(name, value)] := by
  simp [answers, editAttrs, equalPair, strcaseeq]

/-- A pair of the name is added twice. -/
def Twice (name : Text) : Prop :=
  (∀ c ∈ name, isNameChar c = true) ∧
    (answers editFile [] [⟨.A_ADD, name, ['v']⟩, ⟨.A_ADD, name, ['v']⟩]).2.length < 64 * 1024 ∧
    (answers editFile [] [⟨.A_ADD, name, ['v']⟩, ⟨.A_ADD, name, ['v']⟩]).2 ≠
      render (answers editAttrs [] [⟨.A_ADD, name, ['v']⟩, ⟨.A_ADD, name, ['v']⟩]).2

theorem twice_of_mem {name : Text} (hname : name ∈ [[], List.replicate 1024 'a']) : Twice name := by
  have hchars : ∀ c ∈ name, isNameChar c = true := by
    rcases List.mem_pair.mp hname with rfl | rfl
    · simp
    · intro c hc
      rw [List.eq_of_mem_replicate hc]
      rfl
  have hvalue : IsValue ['v'] := ⟨by decide, by simp [isprint], by simp⟩
  have hsize : name.length ≤ 1024 := by
    rcases List.mem_pair.mp hname with rfl | rfl
    · exact Nat.zero_le _
    · rw [List.length_replicate]
  have hline : Line '\n' (line name ['v']) := line_line hchars hvalue.chars
  have hlen : (line name ['v']).length = name.length + 3 := by simp [line]
  have hread : (strcaseeq name (scanNamVal (line name ['v'])).1 &&
      strcaseeq ['v'] (scanNamVal (line name ['v'])).2) = false := by
    rcases List.mem_pair.mp hname with rfl | rfl
    · rfl
    · have hne : List.replicate 1024 'a' ≠ [] := List.cons_ne_nil _ _
      rw [scanNamVal_line hne hchars hvalue, if_neg (by rw [List.length_replicate]; omega)]
      exact Bool.and_false _
  have hagain := editFile_again hline (by rw [hlen, DATA]; omega) hread
  refine ⟨hchars, ?_, ?_⟩
  · rw [hagain, List.length_append]
    omega
  · rw [hagain, editAttrs_again]
    intro heq
    have hcount := congrArg List.length heq
    rw [render_cons, List.length_append, List.length_append, hlen] at hcount
    simp [render] at hcount

/-- A name that is empty, or does not fit into the buffer, is not found in its line. -/
theorem name_not_found : Twice [] ∧ Twice (List.replicate 1024 'a') :=
  ⟨twice_of_mem (List.mem_cons_self), twice_of_mem (List.mem_cons_of_mem _ (List.mem_singleton_self _))⟩

end delegate.attr
