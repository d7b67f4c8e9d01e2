-- The lists of who controls a newsgroup through a gateway (setACL,
-- src/gacl.cpp). The line of an administrator is removed from the file of a
-- group, or a new line takes its place, by offsets in the file.
import Delegate.CText
import Delegate.LineText

open ctext linetext

namespace delegate.gacl

/-! ## The pure model -/

def ACLMAX : Nat := 32
def ACL_MAXLINES : Nat := 128
def ACL_MAXBYTES : Nat := 32 * 1024

/-- The request: the time, the administrator, and what other modules say of the control list. -/
structure Env where
  stime : Text
  user : Text
  aclID : Text
  /-- `Base-URL` names the server of the connection. -/
  baseAllowed : Text → Bool
  /-- There is an error in a group under a base. -/
  ckfunc : Text → Text → Bool
  stime_line : '\n' ∉ stime
  user_line : '\n' ∉ user
  aclID_line : '\n' ∉ aclID

/-- A command that changes the file of a group. -/
structure Edit where
  com : Text
  arg : Text
  AdmClass : Text
  deriving DecidableEq, Repr

/-- What is kept between the lines of a control list. -/
structure Ctl where
  Ver : Text
  AdmClass : Text
  Base : Text
  nl : Nat
  cnl : Nat
  bytes : Nat
  errors : Int

def Ctl.start : Ctl := ⟨[], [], [], 1, 0, 0, 0⟩

def isSep (c : Char) : Bool := c == ':' || c == ' ' || c == '\t' || c == '\r' || c == '\n'

/-- `sscanf` with `%[^: \t\r\n]%*[: \t\r\n]%[^\r\n]` into empty buffers. -/
def scanCtl (ctl : Text) : Text × Text :=
  let com := ctl.takeWhile (!isSep ·)
  if com = [] then ([], [])
  else (com, ((ctl.dropWhile (!isSep ·)).dropWhile isSep).takeWhile fun c => c != '\r' && c != '\n')

def ACLVersion : Text := ['A', 'C', 'L', '-', 'V', 'e', 'r', 's', 'i', 'o', 'n']
def AdminClass : Text := ['A', 'd', 'm', 'i', 'n', '-', 'C', 'l', 'a', 's', 's']
def BaseURL : Text := ['B', 'a', 's', 'e', '-', 'U', 'R', 'L']
def anonymous : Text := ['a', 'n', 'o', 'n', 'y', 'm', 'o', 'u', 's']

/-- What a line of the control list does: it ends the processing with a result, or it goes on, and
may change the file of a group. -/
inductive Step
  | stop (result : Int)
  | next (c : Ctl) (edit : Option Edit)

/-- The line `com: arg`, behind the commands that describe the list. -/
def controlStep (e : Env) (add : Bool) (c next : Ctl) (com arg : Text) : Step :=
  if c.Ver = [] then .stop (-1)
  else
    let AdmClass := if c.AdmClass = [] then anonymous else c.AdmClass
    let next := { next with AdmClass }
    if ACL_MAXLINES < c.nl then .stop (c.errors + 1)
    else if strcaseeq com ['O', 'n'] || strcaseeq com ['O', 'f', 'f'] then
      let next := { next with cnl := c.cnl + 1 }
      if add ∧ ACLMAX < next.cnl then .stop (c.errors + 1)
      else if add ∧ e.ckfunc c.Base arg then .next { next with errors := c.errors + 1 } none
      else .next next (some ⟨com, arg, AdmClass⟩)
    else .next next none

/-- One turn of the loop over the control list. -/
def ctlStep (e : Env) (add : Bool) (c : Ctl) (ctl : Text) : Step :=
  let c := { c with bytes := c.bytes + ctl.length }
  let next := { c with nl := c.nl + 1 }
  let (com, arg) := scanCtl (beforeChr '#' ctl)
  if ACL_MAXBYTES < c.bytes then .stop (c.errors + 1)
  else if com = [] then .next next none
  else if strcaseeq com ACLVersion then .next { next with Ver := arg.take 255 } none
  else if strcaseeq com AdminClass then
    if strcaseeq arg anonymous then .next { next with AdmClass := arg.take 127 } none else .stop (-1)
  else if strcaseeq com BaseURL then
    if e.baseAllowed arg then .next { next with Base := arg.take 1023 } none else .stop (-1)
  else controlStep e add c next com arg

/-- The loop over the lines of the control list, with what the commands change. -/
def scanLoop {σ : Type} (e : Env) (add : Bool) (apply : σ → Edit → σ) :
    List Text → Ctl → σ → Int × σ
  | [], c, s => (c.errors, s)
  | ctl :: rest, c, s =>
    match ctlStep e add c ctl with
    | .stop result => (result, s)
    | .next c none => scanLoop e add apply rest c s
    | .next c (some edit) => scanLoop e add apply rest c (apply s edit)

/-- `sprintf(admid,"<%s>",aclID)` into a buffer of 2048 bytes. -/
def Env.admid (e : Env) : Text := ('<' :: (e.aclID ++ ['>'])).take 2047

/-- `%-10s` -/
def pad10 (s : Text) : Text := s ++ List.replicate (10 - s.length) ' '

/-- The line that is written: `%s %-10s %-10s %-10s %s\r\n`. -/
def Env.newLine (e : Env) (edit : Edit) : Text :=
  e.stime ++ ' ' :: (pad10 edit.com ++ ' ' :: (pad10 e.user ++ ' ' :: (pad10 edit.AdmClass ++
    ' ' :: (e.admid ++ ['\r', '\n']))))

/-- A write at an offset of a file. -/
def writeAt (file : Text) (off : Nat) (s : Text) : Text :=
  file.take off ++ s ++ file.drop (off + s.length)

/-- The lines of a file as `fgets` reads them into a buffer of 2048 bytes. -/
def fgetsAll (file : Text) : List Text := pieces '\n' 2046 file

def hasId (admid : Text) (ac1 : Text) : Bool := (strstr admid ac1).isSome

/-- What a command does to the file of its group. Without `add`, what stands from the line on is
read and written again at its offset, and the file is truncated there. -/
def editAcl (add : Bool) (admid newLine file : Text) : Text :=
  let off := offset (hasId admid) (fgetsAll file)
  if add then writeAt file off newLine
  else (writeAt file off (file.drop off)).take off

/-- The files of the groups. One that does not exist is created empty. -/
abbrev Files := Text → Text

def editFiles (e : Env) (add : Bool) (files : Files) (edit : Edit) : Files :=
  Function.update files edit.arg (editAcl add e.admid (e.newLine edit) (files edit.arg))

/-- The result, and the files afterwards. -/
def setACL (e : Env) (add : Bool) (cfp : Text) (files : Files) : Int × Files :=
  scanLoop e add (editFiles e add) (fgetsAll cfp) Ctl.start files

/-! ## What it is for -/

/-- The commands of a control list that are carried out. -/
def edits (e : Env) (add : Bool) (cfp : Text) : List Edit :=
  (scanLoop e add (fun done edit => done ++ [edit]) (fgetsAll cfp) Ctl.start []).2

/-- The first line of a kind is replaced, or the line is added behind all others. -/
def putLine (p : Text → Bool) (line : Text) : List Text → List Text
  | [] => [line]
  | l :: ls => if p l then line :: ls else l :: putLine p line ls

/-- The lines afterwards, as they are meant. -/
def updated (add : Bool) (admid newLine : Text) (lines : List Text) : List Text :=
  if add then putLine (hasId admid) newLine lines else lines.eraseP (hasId admid)

/-- A file of lines. -/
structure AclFile where
  lines : List Text
  line : ∀ l ∈ lines, Line '\n' l
  text : ∀ l ∈ lines, '\x00' ∉ l

/-- When a file is changed as it is meant: if there is a line of the administrator, its identifier
stands in the part that is read into the buffer; to be removed, the line is the last one; to be
replaced, it has the length of the new line, or it is the last one and is not longer. -/
def Fits (add : Bool) (admid newLine : Text) (lines : List Text) : Prop :=
  ∀ pre l post, lines = pre ++ l :: post → (∀ x ∈ pre, hasId admid x = false) →
    hasId admid l = true → hasId admid (l.take 2047) = true ∧
      if add then l.length = newLine.length ∨ (post = [] ∧ l.length ≤ newLine.length) else post = []

/-! ## The control list -/

/-- The files are changed by the commands that are carried out, one after another. -/
theorem scanLoop_edits {σ : Type} (e : Env) (add : Bool) (apply : σ → Edit → σ) (ctls : List Text)
    (c : Ctl) (s : σ) (done : List Edit) :
    ∃ more, (scanLoop e add (fun done edit => done ++ [edit]) ctls c done).2 = done ++ more ∧
      (scanLoop e add apply ctls c s).2 = more.foldl apply s := by
  induction ctls generalizing c s done with
  | nil => exact ⟨[], (List.append_nil done).symm, rfl⟩
  | cons ctl ctls ih =>
    rw [scanLoop, scanLoop]
    match ctlStep e add c ctl with
    | .stop result => exact ⟨[], (List.append_nil done).symm, rfl⟩
    | .next c none => exact ih c s done
    | .next c (some edit) =>
      obtain ⟨more, hdone, hs⟩ := ih c (apply s edit) (done ++ [edit])
      exact ⟨edit :: more, by rw [hdone, List.append_assoc]; rfl, hs⟩

theorem setACL_files (e : Env) (add : Bool) (cfp : Text) (files : Files) :
    (setACL e add cfp files).2 = (edits e add cfp).foldl (editFiles e add) files := by
  obtain ⟨more, hdone, hs⟩ :=
    scanLoop_edits e add (editFiles e add) (fgetsAll cfp) Ctl.start files []
  rw [List.nil_append] at hdone
  rw [setACL, hs, edits, hdone]

/-- The file of a group that is named once is changed once. -/
theorem foldl_editFiles {e : Env} {add : Bool} {es : List Edit} {g : Text} {edit : Edit}
    (h : es.filter (fun x => x.arg = g) = [edit]) (files : Files) :
    es.foldl (editFiles e add) files g = editAcl add e.admid (e.newLine edit) (files g) := by
  have hother : ∀ (es : List Edit) (files : Files), (∀ x ∈ es, x.arg ≠ g) →
      es.foldl (editFiles e add) files g = files g := by
    intro es
    induction es with
    | nil => exact fun _ _ => rfl
    | cons x es ih =>
      intro files hes
      have hx : g ≠ x.arg := Ne.symm (hes x List.mem_cons_self)
      rw [List.foldl_cons, ih _ fun y hy => hes y (List.mem_cons_of_mem _ hy), editFiles,
        Function.update_of_ne hx]
  induction es generalizing files with
  | nil => cases h
  | cons x es ih =>
    by_cases hx : x.arg = g
    · have hfilter : (x :: es).filter (fun x => x.arg = g) = x :: es.filter (fun x => x.arg = g) := by
        simp [hx]
      rw [hfilter] at h
      obtain ⟨rfl, hnil⟩ := List.cons.inj h
      rw [List.foldl_cons, hother]
      · rw [editFiles, hx, Function.update_self]
      · intro y hy hyg
        have hmem : y ∈ es.filter (fun x => x.arg = g) :=
          List.mem_filter.mpr ⟨hy, decide_eq_true hyg⟩
        rw [hnil] at hmem
        cases hmem
    · have hfilter : (x :: es).filter (fun x => x.arg = g) = es.filter (fun x => x.arg = g) := by
        simp [hx]
      rw [hfilter] at h
      rw [List.foldl_cons, ih h, editFiles, Function.update_of_ne (Ne.symm hx)]

/-! ## The new line -/

theorem scanCtl_line (ctl : Text) : '\n' ∉ (scanCtl ctl).1 ∧ '\n' ∉ (scanCtl ctl).2 := by
  have hcom : '\n' ∉ ctl.takeWhile (!isSep ·) := by
    intro hmem
    have hsep := List.mem_takeWhile_imp hmem
    simp [isSep] at hsep
  have harg : ∀ s : Text, '\n' ∉ s.takeWhile fun c => c != '\r' && c != '\n' := by
    intro s hmem
    have hend := List.mem_takeWhile_imp hmem
    simp at hend
  unfold scanCtl
  dsimp only
  split
  · exact ⟨List.not_mem_nil, List.not_mem_nil⟩
  · exact ⟨hcom, harg _⟩

/-- The texts of a step have no newline. -/
theorem ctlStep_line {e : Env} {add : Bool} {c c' : Ctl} {ctl : Text} {edit : Option Edit}
    (hc : '\n' ∉ c.AdmClass) (h : ctlStep e add c ctl = .next c' edit) :
    '\n' ∉ c'.AdmClass ∧ ∀ x ∈ edit, '\n' ∉ x.com ∧ '\n' ∉ x.AdmClass := by
  obtain ⟨hcom, harg⟩ := scanCtl_line (beforeChr '#' ctl)
  have hanon : '\n' ∉ (if c.AdmClass = [] then anonymous else c.AdmClass) := by
    split
    · simp [anonymous]
    · exact hc
  have hcontrol : ∀ c₁ next : Ctl, c₁.AdmClass = c.AdmClass →
      controlStep e add c₁ next (scanCtl (beforeChr '#' ctl)).1 (scanCtl (beforeChr '#' ctl)).2 =
        .next c' edit →
      '\n' ∉ c'.AdmClass ∧ ∀ x ∈ edit, '\n' ∉ x.com ∧ '\n' ∉ x.AdmClass := by
    intro c₁ next hclass hstep
    unfold controlStep at hstep
    rw [hclass] at hstep
    dsimp only at hstep
    generalize (if c.AdmClass = [] then anonymous else c.AdmClass) = A at hanon hstep
    split_ifs at hstep <;> cases hstep
    · exact ⟨hanon, by simp⟩
    · refine ⟨hanon, ?_⟩
      intro x hx
      rw [Option.mem_some_iff] at hx
      subst hx
      exact ⟨hcom, hanon⟩
    · exact ⟨hanon, by simp⟩
  unfold ctlStep at h
  dsimp only at h
  by_cases hbytes : ACL_MAXBYTES < c.bytes + ctl.length
  · rw [if_pos hbytes] at h
    cases h
  rw [if_neg hbytes] at h
  split_ifs at h
  all_goals first
    | exact hcontrol _ _ rfl h
    | cases h
  · exact ⟨hc, by simp⟩
  · exact ⟨hc, by simp⟩
  · exact ⟨fun hmem => harg (List.mem_of_mem_take hmem), by simp⟩
  · exact ⟨hc, by simp⟩

theorem edits_line (e : Env) (add : Bool) (cfp : Text) :
    ∀ x ∈ edits e add cfp, '\n' ∉ x.com ∧ '\n' ∉ x.AdmClass := by
  have hloop : ∀ (ctls : List Text) (c : Ctl) (done : List Edit), '\n' ∉ c.AdmClass →
      (∀ x ∈ done, '\n' ∉ x.com ∧ '\n' ∉ x.AdmClass) →
      ∀ x ∈ (scanLoop e add (fun done edit => done ++ [edit]) ctls c done).2,
        '\n' ∉ x.com ∧ '\n' ∉ x.AdmClass := by
    intro ctls
    induction ctls with
    | nil => exact fun _ _ _ hdone => hdone
    | cons ctl ctls ih =>
      intro c done hc hdone
      rw [scanLoop]
      cases hstep : ctlStep e add c ctl with
      | stop result => exact hdone
      | next c' edit =>
        obtain ⟨hc', hedit⟩ := ctlStep_line hc hstep
        cases edit with
        | none => exact ih c' done hc' hdone
        | some edit =>
          apply ih c' _ hc'
          intro x hx
          rcases List.mem_append.mp hx with hx | hx
          · exact hdone x hx
          · rw [List.mem_singleton.mp hx]
            exact hedit edit rfl
  exact hloop _ _ _ List.not_mem_nil (by simp)

theorem newLine_line (e : Env) {edit : Edit} (hcom : '\n' ∉ edit.com)
    (hclass : '\n' ∉ edit.AdmClass) : Line '\n' (e.newLine edit) := by
  have hpad : ∀ s : Text, '\n' ∉ s → '\n' ∉ pad10 s := by
    intro s hs hmem
    rcases List.mem_append.mp hmem with hmem | hmem
    · exact hs hmem
    · exact absurd (List.eq_of_mem_replicate hmem) (by decide)
  have hadmid : '\n' ∉ e.admid := by
    intro hmem
    have hid := e.aclID_line
    have hin := List.mem_of_mem_take hmem
    simp [hid] at hin
  refine ⟨e.stime ++ ' ' :: (pad10 edit.com ++ ' ' :: (pad10 e.user ++ ' ' ::
    (pad10 edit.AdmClass ++ ' ' :: (e.admid ++ ['\r'])))), ?_, ?_⟩
  · simp [e.stime_line, hpad _ hcom, hpad _ hclass, hpad _ e.user_line, hadmid]
  · simp [Env.newLine]

/-! ## The file of a group -/

section
variable {p : Text → Bool} {n : Nat} {l new : Text} {pre post : List Text}

/-- The identifier is found in a line if it is found in a part of it. -/
theorem hasId_of_infix {admid a b : Text} (h : a <:+: b) (ha : hasId admid a = true) :
    hasId admid b = true :=
  strstr_isSome_iff.mpr ((strstr_isSome_iff.mp ha).trans h)

/-- Where the search of a text ends that begins with a line. -/
theorem offset_line (p : Text → Bool) (n : Nat) (hl : Line '\n' l) (s : Text) :
    (p (l.take (n + 1)) = true ∧ offset p (pieces '\n' n (l ++ s)) = 0) ∨
      (p (l.take (n + 1)) = false ∧ 0 < offset p (pieces '\n' n (l ++ s)) ∧
        (offset p (pieces '\n' n (l ++ s)) < l.length ∨
          offset p (pieces '\n' n (l ++ s)) = l.length + offset p (pieces '\n' n s))) := by
  have hpieces := pieces_line n hl s
  have hpos := @length_piece_pos Char _ '\n' n _ hl.ne_nil
  rw [pieces_of_ne hl.ne_nil, hl.first_self] at hpieces
  rw [hl.first_self] at hpos
  by_cases hp : p (l.take (n + 1)) = true
  · rw [hpieces, List.cons_append, offset]
    exact .inl ⟨hp, if_pos hp⟩
  · have hcases := offset_append_cases p (pieces '\n' n l)
      (fun c hc => ne_nil_of_mem_pieces hc) (pieces '\n' n s)
    rw [← pieces_line n hl s, flatten_pieces] at hcases
    refine .inr ⟨Bool.eq_false_of_not_eq_true hp, ?_, hcases⟩
    rw [hpieces, List.cons_append, offset, if_neg hp]
    omega

/-- When the search passes the begin of the line, cutting the file does not remove the line. -/
theorem take_offset_ne (hl : Line '\n' l) (hp : p (l.take (n + 1)) = false)
    (hpost : ∀ x ∈ post, Line '\n' x) :
    (l ++ post.flatten).take (offset p (pieces '\n' n (l ++ post.flatten))) ≠ post.flatten := by
  induction post with
  | nil =>
    rcases offset_line p n hl [].flatten with ⟨hyes, -⟩ | ⟨-, hpos, -⟩
    · rw [hp] at hyes
      cases hyes
    · intro heq
      have hlen := congrArg List.length heq
      have hlpos := List.length_pos_iff.mpr hl.ne_nil
      rw [List.length_take, List.length_append, List.flatten_nil] at hlen
      rw [List.flatten_nil] at hpos
      simp only [List.length_nil] at hlen
      omega
  | cons x post ih =>
    have hx := hpost x List.mem_cons_self
    rcases offset_line p n hl (x :: post).flatten with ⟨hyes, -⟩ | ⟨-, hpos, hcases⟩
    · rw [hp] at hyes
      cases hyes
    generalize hk : offset p (pieces '\n' n (l ++ (x :: post).flatten)) = k at hpos hcases ⊢
    intro heq
    rcases hcases with hlt | hge
    · have hnone := hl.not_mem_take hlt
      rw [List.take_append_of_le_length (by omega)] at heq
      apply hnone
      obtain ⟨body, -, rfl⟩ := hx
      rw [heq]
      simp
    · rw [hge, List.take_length_add_append] at heq
      have hfirst := congrArg (first '\n') heq
      rw [hl.first_append, List.flatten_cons, hx.first_append] at hfirst
      subst hfirst
      rw [List.flatten_cons] at heq
      exact ih (fun y hy => hpost y (List.mem_cons_of_mem _ hy)) (List.append_cancel_left heq)

/-- When the search passes the begin of the line, the new line does not take its place. -/
theorem write_offset_ne (hl : Line '\n' l) (hp : p (l.take (n + 1)) = false)
    (hnew : Line '\n' new) (s : Text) :
    writeAt (l ++ s) (offset p (pieces '\n' n (l ++ s))) new ≠ new ++ s := by
  intro heq
  rcases offset_line p n hl s with ⟨hyes, -⟩ | ⟨-, hpos, hlt | hge⟩
  · rw [hp] at hyes
    cases hyes
  · have hfirst := congrArg (first '\n') heq
    rw [writeAt, List.take_append_of_le_length (by omega), List.append_assoc,
      first_append_line (hl.not_mem_take hlt) hnew, hnew.first_append] at hfirst
    have hlen := congrArg List.length hfirst
    rw [List.length_append, List.length_take] at hlen
    omega
  · have hspec := @offset_pieces Char _ '\n' p n s
    generalize offset p (pieces '\n' n s) = k at hge hspec
    have hfirst := congrArg (first '\n') heq
    rw [writeAt, hge, List.take_length_add_append, List.append_assoc, List.append_assoc,
      hl.first_append, hnew.first_append] at hfirst
    subst hfirst
    rw [writeAt, hge, List.take_length_add_append, Nat.add_assoc, List.drop_length_add_append,
      List.append_assoc, List.append_assoc] at heq
    have hrest := List.append_cancel_left heq
    have hdrop : l ++ s.drop (k + l.length) = s.drop k := by
      apply @List.append_cancel_left _ (s.take k)
      rw [List.take_append_drop]
      exact hrest
    rcases hspec with hend | hfound
    · rw [hend, List.drop_length, List.drop_of_length_le (by omega), List.append_nil] at hdrop
      exact hl.ne_nil hdrop
    · rw [← hdrop, hl.first_append, hp] at hfound
      cases hfound

/-- What the new line takes the place of. -/
theorem writeAt_zero_iff (s : Text) : writeAt (l ++ s) 0 new = new ++ s ↔
    l.length = new.length ∨ (s = [] ∧ l.length ≤ new.length) := by
  rw [writeAt, List.take_zero, List.nil_append, Nat.zero_add, List.append_cancel_left_eq]
  constructor
  · intro heq
    have hlen := congrArg List.length heq
    rw [List.length_drop, List.length_append] at hlen
    by_cases hs : s = []
    · subst hs
      right
      refine ⟨rfl, ?_⟩
      rw [List.length_nil] at hlen
      omega
    · have hpos := List.length_pos_iff.mpr hs
      left
      omega
  · rintro (heq | ⟨rfl, hle⟩)
    · rw [← heq, List.drop_left]
    · rw [List.append_nil, List.drop_of_length_le hle]

theorem cut_take (file : Text) (off : Nat) : (writeAt file off (file.drop off)).take off =
    file.take off := by
  have hsame : file.take off ++ file.drop off = file := List.take_append_drop off file
  have hend : file.drop (off + (file.drop off).length) = [] := by
    apply List.drop_of_length_le
    rw [List.length_drop]
    omega
  rw [writeAt, hend, List.append_nil, hsame]

/-- The search passes the lines that do not have the identifier. -/
theorem offset_before {admid : Text} (hlines : ∀ x ∈ pre, Line '\n' x)
    (hpre : ∀ x ∈ pre, hasId admid x = false) (s : Text) :
    offset (hasId admid) (fgetsAll (pre.flatten ++ s)) =
      pre.flatten.length + offset (hasId admid) (fgetsAll s) := by
  have hnone : ∀ c ∈ pieces '\n' 2046 pre.flatten, hasId admid c = false := by
    induction pre with
    | nil =>
      rw [List.flatten_nil, pieces_nil]
      exact fun c hc => absurd hc List.not_mem_nil
    | cons x pre ih =>
      rw [List.flatten_cons, pieces_line _ (hlines x List.mem_cons_self)]
      intro c hc
      rcases List.mem_append.mp hc with hc | hc
      · by_contra hid
        rw [Bool.not_eq_false] at hid
        have hx := hasId_of_infix (infix_of_mem_pieces hc) hid
        rw [hpre x List.mem_cons_self] at hx
        cases hx
      · exact ih (fun y hy => hlines y (List.mem_cons_of_mem _ hy))
          (fun y hy => hpre y (List.mem_cons_of_mem _ hy)) c hc
  rw [fgetsAll, pieces_lines _ hlines, offset_append hnone, flatten_pieces]
  rfl

theorem updated_split {add : Bool} {admid : Text} (hpre : ∀ x ∈ pre, hasId admid x = false)
    (hl : hasId admid l = true) :
    (updated add admid new (pre ++ l :: post)).flatten =
      pre.flatten ++ (if add then new else []) ++ post.flatten := by
  have hput : putLine (hasId admid) new (pre ++ l :: post) = pre ++ new :: post := by
    induction pre with
    | nil => exact if_pos hl
    | cons x pre ih =>
      have hx : ¬hasId admid x = true := by
        rw [hpre x List.mem_cons_self]
        exact Bool.false_ne_true
      rw [List.cons_append, putLine, if_neg hx, ih fun y hy => hpre y (List.mem_cons_of_mem _ hy)]
      rfl
  have herase : (pre ++ l :: post).eraseP (hasId admid) = pre ++ post := by
    rw [List.eraseP_append_right _ (fun x hx => by rw [hpre x hx]; exact Bool.false_ne_true),
      List.eraseP_cons_of_pos hl]
  unfold updated
  cases add with
  | true =>
    rw [if_pos rfl, if_pos rfl, hput, List.flatten_append, List.flatten_cons, List.append_assoc]
  | false =>
    rw [if_neg Bool.false_ne_true, if_neg Bool.false_ne_true, herase, List.flatten_append,
      List.append_nil]

/-- What becomes of a file whose first line with the identifier is known. -/
theorem editAcl_split_iff {add : Bool} {admid : Text} (hnew : Line '\n' new)
    (hlines : ∀ x ∈ pre ++ l :: post, Line '\n' x) (hpre : ∀ x ∈ pre, hasId admid x = false)
    (hl : hasId admid l = true) :
    editAcl add admid new (pre ++ l :: post).flatten =
        (updated add admid new (pre ++ l :: post)).flatten ↔
      hasId admid (l.take 2047) = true ∧
        if add then l.length = new.length ∨ (post = [] ∧ l.length ≤ new.length) else post = [] := by
  have hline : Line '\n' l := hlines l (by simp)
  have hpost : ∀ x ∈ post, Line '\n' x := fun x hx => hlines x (by simp [hx])
  have hoff := offset_before (fun x hx => hlines x (by simp [hx])) hpre (l ++ post.flatten)
  rw [updated_split hpre hl, List.flatten_append, List.flatten_cons, editAcl, hoff, fgetsAll]
  have hpartial := offset_line (hasId admid) 2046 hline post.flatten
  have hcases := fun hno => take_offset_ne (p := hasId admid) (n := 2046) hline hno hpost
  have hwrite := fun hno => write_offset_ne (p := hasId admid) (n := 2046) hline hno hnew post.flatten
  cases add with
  | true =>
    rw [if_pos rfl, if_pos rfl, if_pos rfl]
    have hbehind : ∀ k, writeAt (pre.flatten ++ (l ++ post.flatten)) (pre.flatten.length + k) new =
        pre.flatten ++ writeAt (l ++ post.flatten) k new := by
      intro k
      simp only [writeAt, List.take_length_add_append, Nat.add_assoc, List.drop_length_add_append,
        List.append_assoc]
    rw [hbehind, List.append_assoc, List.append_cancel_left_eq]
    rcases hpartial with ⟨hyes, hzero⟩ | ⟨hno, -, -⟩
    · rw [hzero, writeAt_zero_iff, flatten_eq_nil hpost, hyes]
      simp
    · rw [hno]
      constructor
      · intro heq
        exact absurd heq (hwrite hno)
      · rintro ⟨hyes, -⟩
        cases hyes
  | false =>
    rw [if_neg Bool.false_ne_true, if_neg Bool.false_ne_true, if_neg Bool.false_ne_true, cut_take,
      List.append_nil, List.take_length_add_append, List.append_cancel_left_eq]
    rcases hpartial with ⟨hyes, hzero⟩ | ⟨hno, -, -⟩
    · rw [hzero, List.take_zero, hyes, eq_comm, flatten_eq_nil hpost]
      simp
    · rw [hno]
      constructor
      · intro heq
        exact absurd heq (hcases hno)
      · rintro ⟨hyes, -⟩
        cases hyes

/-- What becomes of any file of lines. -/
theorem editAcl_iff (add : Bool) (admid : Text) (hnew : Line '\n' new) (f : AclFile) :
    editAcl add admid new f.lines.flatten = (updated add admid new f.lines).flatten ↔
      Fits add admid new f.lines := by
  constructor
  · intro heq pre l post hsplit hpre hl
    have hlines := f.line
    rw [hsplit] at heq hlines
    exact (editAcl_split_iff hnew hlines hpre hl).mp heq
  · intro hfits
    cases hfind : f.lines.find? (hasId admid) with
    | none =>
      have hnone : ∀ x ∈ f.lines, hasId admid x = false := by
        intro x hx
        exact Bool.eq_false_of_not_eq_true (List.find?_eq_none.mp hfind x hx)
      have hoff := offset_before f.line hnone []
      have hnil : offset (hasId admid) (fgetsAll []) = 0 := by
        rw [fgetsAll, pieces_nil]
        rfl
      rw [List.append_nil, hnil, Nat.add_zero] at hoff
      have hput : putLine (hasId admid) new f.lines = f.lines ++ [new] := by
        generalize f.lines = ls at hnone
        induction ls with
        | nil => rfl
        | cons x ls ih =>
          have hx : ¬hasId admid x = true := by
            rw [hnone x List.mem_cons_self]
            exact Bool.false_ne_true
          rw [putLine, if_neg hx, ih fun y hy => hnone y (List.mem_cons_of_mem _ hy)]
          rfl
      have herase : f.lines.eraseP (hasId admid) = f.lines :=
        List.eraseP_of_forall_not fun x hx => by
          rw [hnone x hx]
          exact Bool.false_ne_true
      unfold editAcl updated
      rw [hoff]
      cases add with
      | true =>
        rw [if_pos rfl, if_pos rfl, writeAt, List.take_length, List.drop_of_length_le (by omega),
          List.append_nil, hput, List.flatten_append, List.flatten_singleton]
      | false =>
        rw [if_neg Bool.false_ne_true, if_neg Bool.false_ne_true, cut_take, List.take_length,
          herase]
    | some l =>
      obtain ⟨hl, pre, post, hsplit, hpre⟩ := List.find?_eq_some_iff_append.mp hfind
      have hpre' : ∀ x ∈ pre, hasId admid x = false := by
        intro x hx
        simpa using hpre x hx
      have hlines := f.line
      have hcond := hfits pre l post hsplit hpre' hl
      rw [hsplit] at hlines ⊢
      exact (editAcl_split_iff hnew hlines hpre' hl).mpr hcond

end

/-! ## One group -/

/-- For a group that the control list names once, the file is changed as it is meant if and only if
it fits. -/
theorem setACL_own_line_iff (e : Env) (add : Bool) (cfp : Text) (files : Files) (g : Text)
    (edit : Edit) (hnamed : (edits e add cfp).filter (fun x => x.arg = g) = [edit]) (f : AclFile)
    (hfile : files g = f.lines.flatten) :
    (setACL e add cfp files).2 g = (updated add e.admid (e.newLine edit) f.lines).flatten ↔
      Fits add e.admid (e.newLine edit) f.lines := by
  have hmem : edit ∈ edits e add cfp := by
    have hin : edit ∈ (edits e add cfp).filter (fun x => x.arg = g) := by
      rw [hnamed]
      exact List.mem_singleton_self _
    exact (List.mem_filter.mp hin).1
  obtain ⟨hcom, hclass⟩ := edits_line e add cfp edit hmem
  rw [setACL_files, foldl_editFiles hnamed, hfile]
  exact editAcl_iff add e.admid (newLine_line e hcom hclass) f

/-- One administrator, and a control list that names one group. -/
def oneAdmin : Env where
  stime := ['s']
  user := ['u']
  aclID := ['a']
  baseAllowed _ := true
  ckfunc _ _ := false
  stime_line := by decide
  user_line := by decide
  aclID_line := by decide

def oneGroup : Text := ACLVersion ++ [':', '1', '\n', 'O', 'n', ':', 'g', '\n']

theorem edits_oneGroup (add : Bool) :
    edits oneAdmin add oneGroup = [⟨['O', 'n'], ['g'], anonymous⟩] := by
  have hpieces : fgetsAll oneGroup =
      [ACLVersion ++ [':', '1', '\n'], ['O', 'n', ':', 'g', '\n']] := by
    simp [fgetsAll, oneGroup, ACLVersion, pieces, first]
  rw [edits, hpieces]
  cases add <;> rfl

theorem edits_named (add : Bool) : (edits oneAdmin add oneGroup).filter (fun x => x.arg = ['g']) =
    [⟨['O', 'n'], ['g'], anonymous⟩] := by
  rw [edits_oneGroup]
  rfl

/-- The line of the administrator, and a line of another one. -/
def twoLines : AclFile where
  lines := [['<', 'a', '>', '\n'], ['<', 'b', '>', '\n']]
  line := by
    intro l hl
    rcases List.mem_pair.mp hl with rfl | rfl
    · exact ⟨['<', 'a', '>'], by decide, rfl⟩
    · exact ⟨['<', 'b', '>'], by decide, rfl⟩
  text := by decide

/-- A line of another one, and that of the administrator. -/
def ownLast : AclFile where
  lines := [['<', 'b', '>', '\n'], ['<', 'a', '>', '\n']]
  line := by
    intro l hl
    rcases List.mem_pair.mp hl with rfl | rfl
    · exact ⟨['<', 'b', '>'], by decide, rfl⟩
    · exact ⟨['<', 'a', '>'], by decide, rfl⟩
  text := by decide

theorem fits_ownLast (add : Bool) :
    Fits add oneAdmin.admid (oneAdmin.newLine ⟨['O', 'n'], ['g'], anonymous⟩) ownLast.lines := by
  intro pre l post hsplit _ hid
  rcases pre with _ | ⟨x, _ | ⟨y, pre⟩⟩
  · -- the first line is the other one's
    obtain ⟨rfl, -⟩ := List.cons.inj hsplit
    exact absurd hid (by decide)
  · obtain ⟨rfl, hrest⟩ := List.cons.inj hsplit
    obtain ⟨rfl, rfl⟩ := List.cons.inj hrest
    refine ⟨by decide, ?_⟩
    cases add with
    | false => rfl
    | true => exact .inr ⟨rfl, by decide⟩
  · have hlen := congrArg List.length hsplit
    simp [ownLast] at hlen

/-- The line of the administrator is replaced, or removed, and that of the other one stays. -/
theorem setACL_own_last :
    (setACL oneAdmin true oneGroup fun _ => ownLast.lines.flatten).2 ['g'] =
        ['<', 'b', '>', '\n'] ++ oneAdmin.newLine ⟨['O', 'n'], ['g'], anonymous⟩ ∧
      (setACL oneAdmin false oneGroup fun _ => ownLast.lines.flatten).2 ['g'] =
        ['<', 'b', '>', '\n'] := by
  constructor
  · have hadd := setACL_own_line_iff oneAdmin true oneGroup (fun _ => ownLast.lines.flatten) ['g'] _
      (edits_named true) ownLast rfl
    exact hadd.mpr (fits_ownLast true)
  · have hremove := setACL_own_line_iff oneAdmin false oneGroup (fun _ => ownLast.lines.flatten)
      ['g'] _ (edits_named false) ownLast rfl
    exact hremove.mpr (fits_ownLast false)

/-- The file of the group is not changed as it is meant. -/
def Spoiled (add : Bool) : Prop :=
  ∃ edit, (edits oneAdmin add oneGroup).filter (fun x => x.arg = ['g']) = [edit] ∧
    (setACL oneAdmin add oneGroup fun _ => twoLines.lines.flatten).2 ['g'] ≠
      (updated add oneAdmin.admid (oneAdmin.newLine edit) twoLines.lines).flatten

theorem spoiled_twoLines (add : Bool) : Spoiled add := by
  refine ⟨_, edits_named add, ?_⟩
  have hnew : Line '\n' (oneAdmin.newLine ⟨['O', 'n'], ['g'], anonymous⟩) :=
    newLine_line oneAdmin (by decide) (by decide)
  rw [setACL_files, foldl_editFiles (edits_named add), ne_eq, editAcl_iff add _ hnew twoLines]
  intro hfits
  have hfit := (hfits [] ['<', 'a', '>', '\n'] [['<', 'b', '>', '\n']] rfl (by simp) rfl).2
  cases add with
  | false => simp at hfit
  | true => simp [Env.newLine, oneAdmin, pad10, anonymous, Env.admid] at hfit

/-- The line behind that of the administrator is lost, and a new line is written over it. -/
theorem setACL_other_line_lost : Spoiled false ∧ Spoiled true :=
  ⟨spoiled_twoLines false, spoiled_twoLines true⟩

end delegate.gacl
