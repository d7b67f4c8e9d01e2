-- The table of cron entries (`sched_create` and `sched_append`,
-- rary/sched.cpp): how a specification is parsed into a slot of the table.
-- The buffers for the texts are taken to be large enough.
import Delegate.HostCompile

open ctext

namespace delegate.sched

/-! ## Units of time -/

def CSEC : Nat := 0
def SEC : Nat := 1
def MiN : Nat := 2
def HOUR : Nat := 3
def MDAY : Nat := 4
def MON : Nat := 5
def YEAR : Nat := 6
def WDAY : Nat := 7

/-- `turange`: the least and the largest value of a unit. -/
def turange (ti : Nat) : Int × Int :=
  [(0, 99), (0, 59), (0, 59), (0, 23), (1, 31), (1, 12), (0, 128), (0, 6)].getD ti (0, 0)

/-- A value of a unit. Both fields have eight bits. -/
structure Tunit where
  fmt : Nat
  inc : Nat
  deriving DecidableEq, Repr

def TMU_EVERY : Nat := 255
def TMU_INC : Nat := 254

/-- An entry. A field that was not parsed yet is a null pointer. -/
structure CronEnt where
  c_cronspec : Text
  c_timespec : Text
  c_tfv : Nat → Option (List Tunit)
  c_relative : Bool
  c_maxtime : Int
  c_action : Text

structure CronTab where
  st_cronvec : List CronEnt
  st_cronmax : Nat
  st_numcron : Nat

/-- An entry as `calloc` leaves it. -/
def CronEnt.zero : CronEnt := ⟨[], [], fun _ => none, false, 0, []⟩

def sched_create : CronTab := ⟨List.replicate 32 .zero, 32, 0⟩

/-! ## Values -/

def Wdays : List Text :=
  ["Sun".toList, "Mon".toList, "Tue".toList, "Wed".toList, "Thu".toList, "Fri".toList, "Sat".toList]

def WDays : List Text :=
  ["Sunday".toList, "Monday".toList, "Tuesday".toList, "Wednesday".toList, "Thursday".toList,
    "Friday".toList, "Saturday".toList]

/-- `wdaytoi` -/
def wdaytoi (wday : Text) : Int :=
  let two := if wday.length = 2 then Wdays.findIdx? fun wd => strcaseeq (wd.take 2) wday else none
  match two with
  | some i => i
  | none =>
    match Wdays.idxOf? wday with
    | some i => i
    | none =>
      match WDays.idxOf? wday with
      | some i => i
      | none => -1

/-- The value begins with a plus sign. -/
def plus (tf1 : Text) : Bool := tf1.head? == some '+'

/-- The value of a text, if it is in the range of the unit. -/
def unitOf (ti : Nat) (tf1 : Text) : Option Tunit :=
  if plus tf1 then
    let inc := atoi tf1.tail
    some ⟨TMU_INC, ((if inc = 0 then 1 else inc) % 256).toNat⟩
  else if tf1 = [] ∨ tf1 = ['*'] then some ⟨TMU_EVERY, 1⟩
  else
    let fmt := if ti = WDAY ∧ (tf1.headD ' ').isDigit = false then wdaytoi tf1 else atoi tf1
    if fmt < (turange ti).1 ∨ (turange ti).2 < fmt then none
    else some ⟨(fmt % 256).toNat, 0⟩

/-- `timeunit1`. The first of the `mac` elements of the vector has the count. -/
def timeunit1 (tf1 : Text) (ti mac : Nat) (tuv : List Tunit) : Int × List Tunit :=
  match unitOf ti tf1 with
  | none => (-1, tuv)
  | some u => if mac ≤ tuv.length + 1 then (-1, tuv) else (0, tuv ++ [u])

/-- The elements of a comma list. -/
def elems (list : Text) : List Text := (hostlist.scan_ListX ',' list).map hostlist.Elem.text

/-- `scan_commaList` with `timeunit1`: the code, the values, and whether `c_relative` was set. -/
structure Scanned where
  rcode : Int
  tuv : List Tunit
  relative : Bool

def scanUnits (ti mac : Nat) : List Text → List Tunit → Bool → Scanned
  | [], tuv, rel => ⟨0, tuv, rel⟩
  | tf1 :: tfs, tuv, rel =>
    let p := timeunit1 tf1 ti mac tuv
    if p.1 ≠ 0 then ⟨p.1, p.2, rel || plus tf1⟩
    else scanUnits ti mac tfs p.2 (rel || plus tf1)

/-! ## Forms of a specification -/

/-- `stoV(abuf,mac,av,sep)`: at most `mac` words, the last one up to the end. -/
def stoV (sep : Char) : Nat → Text → List Text
  | 0, _ => []
  | mac + 1, s =>
    if s = [] then []
    else if mac = 0 then [s]
    else
      match afterChr sep s with
      | none => [s]
      | some r => beforeChr sep s :: stoV sep mac r

/-- `scan_timeform2`: the texts of the units, and the action. -/
def scan_timeform2 (cronspec : Text) : Option (List Text × Text) :=
  match stoV ':' 8 cronspec with
  | [w, y, m, d, hour, min, sec, action] => some (["0".toList, sec, min, hour, d, m, y, w], action)
  | _ =>
    match stoV ' ' 6 cronspec with
    | [min, hour, d, m, w] => some (["0".toList, "0".toList, min, hour, d, m, "*".toList, w], [])
    | [min, hour, d, m, w, action] =>
      some (["0".toList, "0".toList, min, hour, d, m, "*".toList, w], action)
    | _ => none

/-- The unit of an element of the form with letters. -/
def letterUnit (c : Char) : Option Nat :=
  match c with
  | 'C' => some CSEC
  | 'S' => some SEC
  | 'M' => some MiN
  | 'H' => some HOUR
  | 'd' => some MDAY
  | 'm' => some WDAY
  | 'y' => some YEAR
  | _ => none

/-- `scan_commaList` with `tmform1`, which passes over values that are out of range. -/
def scanForms : List Text → (Nat → List Tunit) → Option (Nat → List Tunit)
  | [], tuv => some tuv
  | tfm :: tfms, tuv =>
    match tfm with
    | [] => none
    | c :: tf1 =>
      match letterUnit c with
      | none => none
      | some ti => scanForms tfms (Function.update tuv ti (timeunit1 tf1 ti 64 (tuv ti)).2)

/-- A unit of the normalized form. -/
def putUnit (tuv : List Tunit) : Text :=
  match tuv with
  | [] => ['*']
  | u :: _ =>
    if u.fmt = TMU_EVERY then ['*']
    else if u.fmt = TMU_INC then '+' :: dec u.inc
    else [','].intercalate (tuv.map fun v => dec v.fmt)

/-- `scan_timeform1`. Where an element has no known letter, `cronspecc` stays as it was. -/
def scan_timeform1 (cronspec cronspecc : Text) : Text :=
  let stop : Char → Bool := fun c => c == ':' || c == ' ' || c == '\t'
  let action := (cronspec.dropWhile fun c => !stop c).tail
  match scanForms (elems (cronspec.takeWhile fun c => !stop c)) fun _ => [] with
  | none => cronspecc
  | some tuv =>
    ([WDAY, YEAR, MON, MDAY, HOUR, MiN, SEC].flatMap fun ti => putUnit (tuv ti) ++ [':']) ++ action

/-! ## The entry -/

/-- The loop over the units. The slot of the entry is written while they are parsed. -/
def fillUnits : Nat → List Text → CronEnt → Int × CronEnt
  | _, [], cep => (0, cep)
  | ti, tf :: tfs, cep =>
    let s := scanUnits ti 100 (elems tf) [] false
    let cep := { cep with c_relative := cep.c_relative || s.relative }
    if s.rcode ≠ 0 then (s.rcode, cep)
    else fillUnits (ti + 1) tfs { cep with c_tfv := Function.update cep.c_tfv ti (some s.tuv) }

/-- The last value of a unit that a time of the entry can have. -/
def lastOf (ti : Nat) (tuv : List Tunit) : Int :=
  tuv.foldl (fun max u =>
    if u.fmt = TMU_EVERY ∨ u.fmt = TMU_INC then (turange ti).2
    else if max < u.fmt then u.fmt else max) (turange ti).1

/-- `lasttime`, with the clock of a date as a parameter. -/
def lasttime (toclockLocal : Int → Int → Int → Int → Int → Int → Int) (cep : CronEnt) : Int :=
  let tv := fun ti => lastOf ti ((cep.c_tfv ti).getD [])
  toclockLocal (tv YEAR) (tv MON) (tv MDAY) (tv HOUR) (tv MiN) (tv SEC)

/-- `c_timespec` of the texts of the units. -/
def timespecOf (tf : List Text) : Text := [':'].intercalate tf.tail.reverse

/-- The specification as it is parsed and kept: the form with letters is normalized first. -/
def specOf (cronspec cronspecc : Text) : Text :=
  if cronspec.head? = some '@' then scan_timeform1 cronspec.tail cronspecc else cronspec

/-- The fields that are set when all units are parsed. -/
def finish (toclockLocal : Int → Int → Int → Int → Int → Int → Int) (cronspec : Text)
    (tf : List Text) (cep : CronEnt) : CronEnt :=
  { cep with
    c_maxtime := lasttime toclockLocal cep
    c_cronspec := cronspec
    c_timespec := timespecOf tf }

/-- `sched_append(Cron,cronspec)`, where `cronspecc` is what the buffer on the stack has. There is
no result if it writes outside of the vector. -/
def sched_append (toclockLocal : Int → Int → Int → Int → Int → Int → Int) (Cron : CronTab)
    (cronspec cronspecc : Text) : Option (Int × CronTab) :=
  if (Cron.st_cronvec.take Cron.st_numcron).any fun e =>
      (strstr e.c_cronspec cronspec).isSome then some (0, Cron)
  else
    let ci := Cron.st_numcron
    match scan_timeform2 (specOf cronspec cronspecc) with
    | none => some (-1, Cron)
    | some (tf, action) =>
      match Cron.st_cronvec[ci]? with
      | none => none
      | some cep =>
        let p := fillUnits 0 tf { cep with c_action := action }
        if p.1 ≠ 0 then some (p.1, { Cron with st_cronvec := Cron.st_cronvec.set ci p.2 })
        else
          let cep := finish toclockLocal (specOf cronspec cronspecc) tf p.2
          some (0, { Cron with
            st_cronvec := Cron.st_cronvec.set ci cep
            st_numcron := ci + 1 })

/-! ## The values of a specification -/

/-- A value in its place: the unit, the index in the list of the unit, and the text. -/
structure Value where
  ti : Nat
  idx : Nat
  text : Text

def listValues (ti : Nat) : Nat → List Text → List Value
  | _, [] => []
  | k, t :: ts => ⟨ti, k, t⟩ :: listValues ti (k + 1) ts

/-- The values in the order in which they are parsed. -/
def valuesOf : Nat → List Text → List Value
  | _, [] => []
  | ti, tf :: tfs => listValues ti 0 (elems tf) ++ valuesOf (ti + 1) tfs

/-- The value is in its range, and the vector has room for it. -/
def Value.ok (v : Value) : Bool := (unitOf v.ti v.text).isSome && decide (v.idx < 99)

def Value.plus (v : Value) : Bool := sched.plus v.text

/-- A list of values with its first bad one. -/
structure BadAt (vs pre : List Value) (bad : Value) : Prop where
  split : ∃ post, vs = pre ++ bad :: post
  good : ∀ v ∈ pre, v.ok = true
  bad : bad.ok = false

theorem timeunit1_ok (ti : Nat) (tf1 : Text) (tuv : List Tunit) :
    (timeunit1 tf1 ti 100 tuv).1 = 0 ∧ (timeunit1 tf1 ti 100 tuv).2.length = tuv.length + 1 ∧
        (Value.mk ti tuv.length tf1).ok = true ∨
      (timeunit1 tf1 ti 100 tuv).1 ≠ 0 ∧ (Value.mk ti tuv.length tf1).ok = false := by
  unfold timeunit1 Value.ok
  cases hu : unitOf ti tf1 with
  | none => simp
  | some u =>
    by_cases hroom : 100 ≤ tuv.length + 1
    · have hfull : ¬tuv.length < 99 := by omega
      simp [hroom, hfull]
    · have hlt : tuv.length < 99 := by omega
      simp [hroom, hlt]

/-- A list of values is parsed up to its first bad value. -/
theorem scanUnits_spec (ti : Nat) (ts : List Text) (tuv : List Tunit) (rel : Bool) :
    (scanUnits ti 100 ts tuv rel).rcode = 0 ∧
        (∀ v ∈ listValues ti tuv.length ts, v.ok = true) ∧
        (scanUnits ti 100 ts tuv rel).relative =
          (rel || (listValues ti tuv.length ts).any Value.plus) ∨
      (scanUnits ti 100 ts tuv rel).rcode ≠ 0 ∧
        ∃ pre bad, BadAt (listValues ti tuv.length ts) pre bad ∧
          (scanUnits ti 100 ts tuv rel).relative = (rel || (pre ++ [bad]).any Value.plus) := by
  induction ts generalizing tuv rel with
  | nil => exact .inl ⟨rfl, by simp [listValues], by simp [scanUnits, listValues]⟩
  | cons t ts ih =>
    unfold scanUnits listValues
    dsimp only
    rcases timeunit1_ok ti t tuv with ⟨hcode, hlen, hok⟩ | ⟨hcode, hbad⟩
    · rw [if_neg (not_not.mpr hcode)]
      have hrest := ih (timeunit1 t ti 100 tuv).2 (rel || plus t)
      rw [hlen] at hrest
      rcases hrest with ⟨hz, hgood, hrel⟩ | ⟨hnz, pre, bad, hsplit, hrel⟩
      · refine .inl ⟨hz, ?_, ?_⟩
        · simp only [List.forall_mem_cons]
          exact ⟨hok, hgood⟩
        · rw [hrel, List.any_cons, Bool.or_assoc]
          rfl
      · obtain ⟨⟨post, hpost⟩, hgood, hbad⟩ := hsplit
        refine .inr ⟨hnz, ⟨ti, tuv.length, t⟩ :: pre, bad, ⟨⟨post, by rw [hpost]; rfl⟩, ?_, hbad⟩, ?_⟩
        · simp only [List.forall_mem_cons]
          exact ⟨hok, hgood⟩
        · rw [hrel, List.cons_append, List.any_cons, Bool.or_assoc]
          rfl
    · rw [if_pos hcode]
      refine .inr ⟨hcode, [], ⟨ti, tuv.length, t⟩, ⟨⟨_, rfl⟩, by simp, hbad⟩, ?_⟩
      simp [Value.plus]

/-! ## The slot while it is filled -/

/-- The slots agree in what parsing leaves in them, where the units below `ti` were parsed. -/
structure Alike (ti : Nat) (cep cep' : CronEnt) : Prop where
  relative : cep.c_relative = cep'.c_relative
  action : cep.c_action = cep'.c_action
  units : ∀ j, j < ti ∨ 8 ≤ j → cep.c_tfv j = cep'.c_tfv j

/-- Parsing does the same to slots that agree. -/
theorem fillUnits_alike {ti : Nat} {tfs : List Text} {cep cep' : CronEnt}
    (hlen : ti + tfs.length = 8) (h : Alike ti cep cep') :
    (fillUnits ti tfs cep).1 = (fillUnits ti tfs cep').1 ∧
      ((fillUnits ti tfs cep).1 = 0 → Alike 8 (fillUnits ti tfs cep).2 (fillUnits ti tfs cep').2) ∧
      Alike 0 (fillUnits ti tfs cep).2 (fillUnits ti tfs cep').2 := by
  induction tfs generalizing ti cep cep' with
  | nil =>
    have hti : ti = 8 := hlen
    subst hti
    exact ⟨rfl, fun _ => h, ⟨h.relative, h.action, fun j _ => h.units j (by omega)⟩⟩
  | cons tf tfs ih =>
    rw [List.length_cons] at hlen
    unfold fillUnits
    dsimp only
    split
    · refine ⟨rfl, fun hz => absurd hz ‹_›, ⟨?_, h.action, fun j hj => h.units j (by omega)⟩⟩
      rw [h.relative]
    · apply ih (by omega)
      refine ⟨?_, h.action, ?_⟩
      · dsimp only
        rw [h.relative]
      · intro j hj
        by_cases hjt : j = ti
        · subst hjt
          simp
        · simp only [Function.update_of_ne hjt]
          exact h.units j (by omega)

theorem finish_alike (toclockLocal : Int → Int → Int → Int → Int → Int → Int) (cronspec : Text)
    (tf : List Text) {cep cep' : CronEnt} (h : Alike 8 cep cep') :
    finish toclockLocal cronspec tf cep = finish toclockLocal cronspec tf cep' := by
  have hunits : cep.c_tfv = cep'.c_tfv := by
    funext j
    exact h.units j (by omega)
  unfold finish lasttime
  rw [hunits, h.relative, h.action]

/-- What a specification in error leaves in the slot. -/
theorem fillUnits_spec {ti : Nat} {tfs : List Text} {cep : CronEnt} (hlen : ti + tfs.length = 8) :
    (∀ j, 8 ≤ j → (fillUnits ti tfs cep).2.c_tfv j = cep.c_tfv j) ∧
      ((fillUnits ti tfs cep).1 = 0 ∧ (∀ v ∈ valuesOf ti tfs, v.ok = true) ∨
        (fillUnits ti tfs cep).1 ≠ 0 ∧ ∃ pre bad, BadAt (valuesOf ti tfs) pre bad ∧
          (fillUnits ti tfs cep).2.c_relative =
            (cep.c_relative || (pre ++ [bad]).any Value.plus)) := by
  induction tfs generalizing ti cep with
  | nil => exact ⟨fun _ _ => rfl, .inl ⟨rfl, by simp [valuesOf]⟩⟩
  | cons tf tfs ih =>
    rw [List.length_cons] at hlen
    unfold fillUnits valuesOf
    dsimp only
    rcases scanUnits_spec ti (elems tf) [] false with ⟨hz, hgood, hrel⟩ | ⟨hnz, pre, bad, hbad, hrel⟩
    · rw [if_neg (not_not.mpr hz)]
      obtain ⟨hunits, hrest⟩ := @ih (ti + 1) { cep with
        c_relative := cep.c_relative || (scanUnits ti 100 (elems tf) [] false).relative
        c_tfv := Function.update cep.c_tfv ti
          (some (scanUnits ti 100 (elems tf) [] false).tuv) } (by omega)
      refine ⟨?_, ?_⟩
      · intro j hj
        rw [hunits j hj]
        exact Function.update_of_ne (by omega) _ _
      · rcases hrest with ⟨hz', hgood'⟩ | ⟨hnz', pre, bad, ⟨⟨post, hpost⟩, hpre, hbad⟩, hrel'⟩
        · refine .inl ⟨hz', ?_⟩
          intro v hv
          rcases List.mem_append.mp hv with hv | hv
          · exact hgood v hv
          · exact hgood' v hv
        · refine .inr ⟨hnz', listValues ti 0 (elems tf) ++ pre, bad, ⟨⟨post, ?_⟩, ?_, hbad⟩, ?_⟩
          · rw [hpost, List.append_assoc]
          · intro v hv
            rcases List.mem_append.mp hv with hv | hv
            · exact hgood v hv
            · exact hpre v hv
          · rw [hrel', hrel, List.length_nil]
            simp [Bool.or_assoc]
    · rw [if_pos hnz]
      obtain ⟨⟨post, hpost⟩, hpre, hbad⟩ := hbad
      refine ⟨fun _ _ => rfl, .inr ⟨hnz, pre, bad, ⟨⟨post ++ valuesOf (ti + 1) tfs, ?_⟩, hpre, hbad⟩, ?_⟩⟩
      · rw [List.length_nil] at hpost
        rw [hpost, List.append_assoc]
        rfl
      · rw [hrel, Bool.false_or]

/-! ## The table -/

/-- A call: the specification, and what the buffer on the stack has. -/
structure Call where
  cronspec : Text
  cronspecc : Text

def Call.spec (c : Call) : Text := specOf c.cronspec c.cronspecc

/-- The entries of the table. -/
def CronTab.entries (T : CronTab) : List CronEnt := T.st_cronvec.take T.st_numcron

/-- The tables agree in their entries, and in what parsing leaves in the other slots. -/
structure Agree (T T' : CronTab) : Prop where
  num : T.st_numcron = T'.st_numcron
  length : T.st_cronvec.length = T'.st_cronvec.length
  same : ∀ i < T.st_numcron, T.st_cronvec[i]? = T'.st_cronvec[i]?
  slot : ∀ (i : Nat) cep cep', T.st_cronvec[i]? = some cep → T'.st_cronvec[i]? = some cep' →
    cep.c_relative = cep'.c_relative ∧ ∀ j, 8 ≤ j → cep.c_tfv j = cep'.c_tfv j

theorem Agree.refl (T : CronTab) : Agree T T := by
  refine ⟨rfl, rfl, fun _ _ => rfl, ?_⟩
  intro i cep cep' h h'
  rw [h] at h'
  cases h'
  exact ⟨rfl, fun _ _ => rfl⟩

theorem Agree.entries {T T' : CronTab} (h : Agree T T') : T.entries = T'.entries := by
  unfold CronTab.entries
  apply List.ext_getElem?
  intro i
  rw [List.getElem?_take, List.getElem?_take, ← h.num]
  split
  · exact h.same i ‹_›
  · rfl

section
variable (toclockLocal : Int → Int → Int → Int → Int → Int → Int)

theorem scan_timeform2_length {cronspec : Text} {tf : List Text} {action : Text}
    (h : scan_timeform2 cronspec = some (tf, action)) : tf.length = 8 := by
  unfold scan_timeform2 at h
  split at h
  · cases h
    rfl
  · split at h
    · cases h
      rfl
    · cases h
      rfl
    · cases h

/-- The same slot of both tables is replaced. -/
theorem Agree.set {T T' : CronTab} (h : Agree T T') (cep cep' : CronEnt)
    (hrel : cep.c_relative = cep'.c_relative) (hunits : ∀ j, 8 ≤ j → cep.c_tfv j = cep'.c_tfv j)
    (num : Nat) (hnum : num = T.st_numcron ∨ num = T.st_numcron + 1 ∧ cep = cep') :
    Agree { T with st_cronvec := T.st_cronvec.set T.st_numcron cep, st_numcron := num }
      { T' with st_cronvec := T'.st_cronvec.set T'.st_numcron cep', st_numcron := num } := by
  refine ⟨rfl, ?_, ?_, ?_⟩
  · simp only [List.length_set]
    exact h.length
  · intro i hi
    change i < num at hi
    dsimp only
    rw [← h.num]
    by_cases hit : i = T.st_numcron
    · rcases hnum with hnum | ⟨-, heq⟩
      · omega
      · rw [hit, heq]
        by_cases hlt : T.st_numcron < T.st_cronvec.length
        · rw [List.getElem?_set_self hlt, List.getElem?_set_self (h.length ▸ hlt)]
        · rw [List.getElem?_eq_none (by rw [List.length_set]; omega),
            List.getElem?_eq_none (by rw [List.length_set, ← h.length]; omega)]
    · rw [List.getElem?_set_ne (Ne.symm hit), List.getElem?_set_ne (Ne.symm hit)]
      exact h.same i (by omega)
  · intro i c c' hc hc'
    dsimp only at hc hc'
    rw [← h.num] at hc'
    by_cases hit : i = T.st_numcron
    · subst hit
      obtain ⟨hlt, -⟩ := List.getElem?_eq_some_iff.mp hc
      rw [List.length_set] at hlt
      rw [List.getElem?_set_self hlt] at hc
      rw [List.getElem?_set_self (h.length ▸ hlt)] at hc'
      cases hc
      cases hc'
      exact ⟨hrel, hunits⟩
    · rw [List.getElem?_set_ne (Ne.symm hit)] at hc hc'
      exact h.slot i c c' hc hc'

/-- A call does the same to tables that agree. -/
theorem Agree.append {T T' : CronTab} (h : Agree T T') (c : Call) :
    sched_append toclockLocal T c.cronspec c.cronspecc = none ∧
        sched_append toclockLocal T' c.cronspec c.cronspecc = none ∨
      ∃ rcode T1 T1', sched_append toclockLocal T c.cronspec c.cronspecc = some (rcode, T1) ∧
        sched_append toclockLocal T' c.cronspec c.cronspecc = some (rcode, T1') ∧ Agree T1 T1' := by
  have hentries := h.entries
  unfold CronTab.entries at hentries
  unfold sched_append
  rw [← hentries]
  split
  · exact .inr ⟨0, T, T', rfl, rfl, h⟩
  · dsimp only
    cases hform : scan_timeform2 (specOf c.cronspec c.cronspecc) with
    | none => exact .inr ⟨-1, T, T', rfl, rfl, h⟩
    | some p =>
      obtain ⟨tf, action⟩ := p
      dsimp only
      have hlen := scan_timeform2_length hform
      cases hcep : T.st_cronvec[T.st_numcron]? with
      | none =>
        have hnone : T'.st_cronvec[T'.st_numcron]? = none := by
          rw [List.getElem?_eq_none_iff] at hcep ⊢
          rw [← h.num, ← h.length]
          exact hcep
        rw [hnone]
        exact .inl ⟨rfl, rfl⟩
      | some cep =>
        obtain ⟨hlt, -⟩ := List.getElem?_eq_some_iff.mp hcep
        have hlt' : T'.st_numcron < T'.st_cronvec.length := by
          rw [← h.num, ← h.length]
          exact hlt
        have hcep' : T'.st_cronvec[T'.st_numcron]? = some T'.st_cronvec[T'.st_numcron] :=
          List.getElem?_eq_getElem hlt'
        generalize T'.st_cronvec[T'.st_numcron] = cep' at hcep'
        rw [hcep']
        have hslot := h.slot T.st_numcron cep cep' hcep (by rw [h.num]; exact hcep')
        have halike : Alike 0 { cep with c_action := action } { cep' with c_action := action } :=
          ⟨hslot.1, rfl, fun j hj => hslot.2 j (by omega)⟩
        have hlen0 : 0 + tf.length = 8 := by omega
        obtain ⟨hcode, hdone, hrest⟩ := fillUnits_alike hlen0 halike
        dsimp only
        rw [← hcode]
        split
        · refine .inr ⟨_, _, _, rfl, rfl, ?_⟩
          have hset := h.set _ _ hrest.relative (fun j hj => hrest.units j (.inr hj)) T.st_numcron
            (.inl rfl)
          simpa only [h.num] using hset
        · rename_i hok
          refine .inr ⟨0, _, _, rfl, rfl, ?_⟩
          have hfin := finish_alike toclockLocal (specOf c.cronspec c.cronspecc) tf
            (hdone (not_not.mp hok))
          rw [← hfin]
          generalize finish toclockLocal (specOf c.cronspec c.cronspecc) tf _ = e
          have hset := h.set e e rfl (fun _ _ => rfl) (T.st_numcron + 1) (.inr ⟨rfl, rfl⟩)
          simpa only [h.num] using hset

/-- The calls one after another, with their results. -/
def run : CronTab → List Call → Option (List Int × CronTab)
  | T, [] => some ([], T)
  | T, c :: cs =>
    (sched_append toclockLocal T c.cronspec c.cronspecc).bind fun p =>
      (run p.2 cs).map fun q => (p.1 :: q.1, q.2)

/-- The results of the calls, and the fields of the entries after them. -/
def outcome (T : CronTab) (cs : List Call) :
    Option (List Int × List (Bool × (Nat → Option (List Tunit)) × Text)) :=
  (run toclockLocal T cs).map fun p =>
    (p.1, p.2.entries.map fun e => (e.c_relative, e.c_tfv, e.c_action))

theorem Agree.outcome {T T' : CronTab} (h : Agree T T') (cs : List Call) :
    outcome toclockLocal T cs = outcome toclockLocal T' cs := by
  unfold sched.outcome
  induction cs generalizing T T' with
  | nil =>
    unfold run
    simp [h.entries]
  | cons c cs ih =>
    unfold run
    rcases h.append toclockLocal c with ⟨hn, hn'⟩ | ⟨rcode, T1, T1', h1, h1', hagree⟩
    · rw [hn, hn']
    · have hrest := congrArg (Option.map fun p : List Int × List (Bool × (Nat → Option (List Tunit)) ×
        Text) => (rcode :: p.1, p.2)) (ih hagree)
      rw [h1, h1']
      simpa [Function.comp_def] using hrest

/-! ## One call -/

/-- The vector has as many slots as the table says, and no more entries. -/
structure Inv (T : CronTab) : Prop where
  length : T.st_cronvec.length = T.st_cronmax
  num : T.st_numcron ≤ T.st_cronmax

/-- What a call does to a table. -/
structure Kept (T : CronTab) (c : Call) (rcode : Int) (T' : CronTab) : Prop where
  inv : Inv T'
  kept : rcode = 0 → (∃ e, e.c_cronspec = c.spec ∧ T'.entries = T.entries ++ [e]) ∨
    T' = T ∧ ∃ e ∈ T.entries, e.c_cronspec = c.cronspec
  undone : rcode ≠ 0 → ∀ later, outcome toclockLocal T' later = outcome toclockLocal T later

/-- The values of a specification in error, up to the first bad one, with one that begins with a
plus sign. -/
def Marks (tf : List Text) : Prop :=
  ∃ pre bad, BadAt (valuesOf 0 tf) pre bad ∧ (pre ++ [bad]).any Value.plus = true

/-- The call is one that the table can bear: no entry's specification is a proper part of the new
one, and if it is not there, the table has room for it, and it does not set `c_relative` before it
turns out to be in error. -/
structure Fine (T : CronTab) (c : Call) : Prop where
  whole : ∀ e ∈ T.entries, e.c_cronspec <:+: c.cronspec → e.c_cronspec = c.cronspec
  room : (∀ e ∈ T.entries, ¬e.c_cronspec <:+: c.cronspec) → (scan_timeform2 c.spec).isSome = true →
    T.st_numcron < T.st_cronmax
  clean : (∀ e ∈ T.entries, ¬e.c_cronspec <:+: c.cronspec) →
    ∀ tf action, scan_timeform2 c.spec = some (tf, action) → ¬Marks tf

theorem entries_set {T : CronTab} (h : T.st_numcron < T.st_cronvec.length) (e : CronEnt) :
    CronTab.entries { T with
      st_cronvec := T.st_cronvec.set T.st_numcron e, st_numcron := T.st_numcron + 1 } =
      T.entries ++ [e] := by
  unfold CronTab.entries
  dsimp only
  rw [List.take_add_one, List.getElem?_set_self h, List.take_set_of_le (Nat.le_refl _)]
  rfl

/-- A slot that is no entry was written. -/
theorem agree_slot {T : CronTab} {cep e : CronEnt} (h : T.st_cronvec[T.st_numcron]? = some cep)
    (hrel : e.c_relative = cep.c_relative) (hunits : ∀ j, 8 ≤ j → e.c_tfv j = cep.c_tfv j) :
    Agree { T with st_cronvec := T.st_cronvec.set T.st_numcron e } T := by
  have hset := (Agree.refl T).set e cep hrel hunits T.st_numcron (.inl rfl)
  have hsame : T.st_cronvec.set T.st_numcron cep = T.st_cronvec := by
    obtain ⟨hlt, rfl⟩ := List.getElem?_eq_some_iff.mp h
    exact List.set_getElem_self hlt
  rw [hsame] at hset
  exact hset

theorem append_kept {T : CronTab} {c : Call} (hinv : Inv T) (hfine : Fine T c) :
    ∃ rcode T', sched_append toclockLocal T c.cronspec c.cronspecc = some (rcode, T') ∧
      Kept toclockLocal T c rcode T' := by
  unfold sched_append
  by_cases hdup : (T.st_cronvec.take T.st_numcron).any fun e =>
      (strstr e.c_cronspec c.cronspec).isSome
  · rw [if_pos hdup]
    obtain ⟨e, he, hin⟩ := List.any_eq_true.mp hdup
    refine ⟨0, T, rfl, hinv, fun _ => .inr ⟨rfl, e, he, ?_⟩, fun h => absurd rfl h⟩
    exact hfine.whole e he (strstr_isSome_iff.mp hin)
  · have hnew : ∀ e ∈ T.entries, ¬e.c_cronspec <:+: c.cronspec := by
      intro e he hin
      exact hdup (List.any_eq_true.mpr ⟨e, he, strstr_isSome_iff.mpr hin⟩)
    rw [if_neg hdup]
    dsimp only
    cases hform : scan_timeform2 (specOf c.cronspec c.cronspecc) with
    | none =>
      refine ⟨-1, T, rfl, hinv, fun h => ?_, fun _ _ => rfl⟩
      cases h
    | some p =>
      obtain ⟨tf, action⟩ := p
      dsimp only
      have hroom := hfine.room hnew (by unfold Call.spec; rw [hform]; rfl)
      have hclean := hfine.clean hnew tf action hform
      have hlen : 0 + tf.length = 8 := by
        rw [Nat.zero_add]
        exact scan_timeform2_length hform
      have hlt : T.st_numcron < T.st_cronvec.length := by
        rw [hinv.length]
        exact hroom
      rw [List.getElem?_eq_getElem hlt]
      dsimp only
      have hslot : T.st_cronvec[T.st_numcron]? = some T.st_cronvec[T.st_numcron] :=
        List.getElem?_eq_getElem hlt
      generalize T.st_cronvec[T.st_numcron] = cep at *
      obtain ⟨hunits, hcode⟩ := @fillUnits_spec 0 tf { cep with c_action := action } hlen
      have hset : ∀ e, (T.st_cronvec.set T.st_numcron e).length = T.st_cronmax := by
        intro e
        rw [List.length_set]
        exact hinv.length
      rcases hcode with ⟨hz, -⟩ | ⟨hnz, pre, bad, hbad, hrel⟩
      · rw [if_neg (not_not.mpr hz)]
        generalize hfin : finish toclockLocal (specOf c.cronspec c.cronspecc) tf _ = e
        have hspec : e.c_cronspec = c.spec := by
          rw [← hfin]
          rfl
        exact ⟨0, _, rfl, ⟨hset e, hroom⟩, fun _ => .inl ⟨e, hspec, entries_set hlt e⟩,
          fun h => absurd rfl h⟩
      · rw [if_pos hnz]
        refine ⟨_, _, rfl, ⟨hset _, hinv.num⟩, fun h => absurd h hnz, fun _ later => ?_⟩
        apply Agree.outcome
        have hplus : (pre ++ [bad]).any Value.plus = false := by
          by_contra h
          exact hclean ⟨pre, bad, hbad, Bool.of_not_eq_false h⟩
        rw [hplus, Bool.or_false] at hrel
        exact agree_slot hslot hrel hunits

/-! ## Runs -/

/-- Every call of the run keeps the table sound. -/
def Sound : CronTab → List Call → Prop
  | _, [] => True
  | T, c :: cs => ∃ rcode T', sched_append toclockLocal T c.cronspec c.cronspecc = some (rcode, T') ∧
      Kept toclockLocal T c rcode T' ∧ Sound T' cs

/-- Every call of the run is one that the table before it can bear. -/
def Borne : CronTab → List Call → Prop
  | _, [] => True
  | T, c :: cs => Fine T c ∧
      ∀ rcode T', sched_append toclockLocal T c.cronspec c.cronspecc = some (rcode, T') → Borne T' cs

theorem sound_of_borne {T : CronTab} (hinv : Inv T) {cs : List Call}
    (h : Borne toclockLocal T cs) : Sound toclockLocal T cs := by
  induction cs generalizing T with
  | nil => trivial
  | cons c cs ih =>
    obtain ⟨hfine, hrest⟩ := h
    obtain ⟨rcode, T', happend, hkept⟩ := append_kept toclockLocal hinv hfine
    exact ⟨rcode, T', happend, hkept, ih hkept.inv (hrest rcode T' happend)⟩

end

/-- The table stays sound in a run from `sched_create` whose calls it can bear. -/
theorem sched_append_sound (toclockLocal : Int → Int → Int → Int → Int → Int → Int)
    (cs : List Call) (h : Borne toclockLocal sched_create cs) :
    Sound toclockLocal sched_create cs :=
  sound_of_borne toclockLocal ⟨rfl, Nat.zero_le _⟩ h

/-- `*:*:*:*:*:*:0:-exit` -/
def exitCall : Call := ⟨"*:*:*:*:*:*:0:-exit".toList, []⟩

/-- The same with another action, of which the first is a part. -/
def exit2Call : Call := ⟨"*:*:*:*:*:*:0:-exit2".toList, []⟩

theorem not_marks {tf : List Text} (h : ∀ v ∈ valuesOf 0 tf, v.plus = false) : ¬Marks tf := by
  rintro ⟨pre, bad, ⟨⟨post, hpost⟩, -, -⟩, hplus⟩
  obtain ⟨v, hv, hvplus⟩ := List.any_eq_true.mp hplus
  have hmem : v ∈ valuesOf 0 tf := by
    rw [hpost]
    rcases List.mem_append.mp hv with hv | hv
    · exact List.mem_append_left _ hv
    · rw [List.mem_singleton.mp hv]
      simp
  rw [h v hmem] at hvplus
  cases hvplus

/-- A second that there is not. -/
def lateCall : Call := ⟨"*:*:*:*:*:*:61:-exit".toList, []⟩

/-- A specification that is there changes nothing. -/
theorem sched_append_there (toclockLocal : Int → Int → Int → Int → Int → Int → Int) {T : CronTab}
    {c : Call} {e : CronEnt} (he : e ∈ T.entries) (hspec : e.c_cronspec <:+: c.cronspec) :
    sched_append toclockLocal T c.cronspec c.cronspecc = some (0, T) := by
  unfold sched_append
  apply if_pos
  exact List.any_eq_true.mpr ⟨e, he, strstr_isSome_iff.mpr hspec⟩

/-- What the first call leaves. -/
theorem append_exit {rcode : Int} {T : CronTab}
    (h : sched_append (fun _ _ _ _ _ _ => 0) sched_create exitCall.cronspec exitCall.cronspecc =
      some (rcode, T)) :
    T.st_numcron = 1 ∧ T.st_cronmax = 32 ∧ ∃ e, e.c_cronspec = exitCall.cronspec ∧ T.entries = [e] := by
  have hview : (sched_append (fun _ _ _ _ _ _ => 0) sched_create exitCall.cronspec
      exitCall.cronspecc).map (fun p => (p.2.st_numcron, p.2.st_cronmax,
        p.2.entries.map CronEnt.c_cronspec)) = some (1, 32, [exitCall.cronspec]) := by
    decide +kernel
  rw [h, Option.map_some, Option.some.injEq, Prod.mk.injEq, Prod.mk.injEq] at hview
  obtain ⟨hnum, hmax, hentries⟩ := hview
  obtain ⟨e, hone, hspec⟩ := List.map_eq_singleton_iff.mp hentries
  exact ⟨hnum, hmax, e, hspec, hone⟩

/-- A specification, the same once more, and one in error. -/
theorem sched_append_sound_exit :
    (run (fun _ _ _ _ _ _ => 0) sched_create [exitCall, exitCall, lateCall]).map Prod.fst =
        some [0, 0, -1] ∧
      Sound (fun _ _ _ _ _ _ => 0) sched_create [exitCall, exitCall, lateCall] := by
  refine ⟨by decide +kernel, sched_append_sound _ _ ⟨⟨?_, ?_, ?_⟩, fun rcode T happend => ?_⟩⟩
  · intro e he
    cases he
  · intro _ _
    decide
  · intro _ tf action hform
    have hexit : scan_timeform2 exitCall.spec =
        some (["0", "0", "*", "*", "*", "*", "*", "*"].map String.toList, "-exit".toList) := by
      decide +kernel
    rw [hexit] at hform
    cases hform
    apply not_marks
    decide +kernel
  obtain ⟨hnum, hmax, e, hspec, hentries⟩ := append_exit happend
  have hin : e ∈ T.entries := by
    rw [hentries]
    exact List.mem_singleton_self e
  have hthere : e.c_cronspec <:+: exitCall.cronspec := by
    rw [hspec]
  refine ⟨⟨?_, fun hnew => absurd hthere (hnew e hin), fun hnew => absurd hthere (hnew e hin)⟩, ?_⟩
  · intro e' he' _
    rw [hentries, List.mem_singleton] at he'
    rw [he', hspec]
  intro rcode' T' happend'
  rw [sched_append_there _ hin hthere] at happend'
  cases happend'
  refine ⟨⟨?_, ?_, ?_⟩, fun _ _ _ => trivial⟩
  · intro e' he' hpart
    rw [hentries, List.mem_singleton] at he'
    rw [he', hspec] at hpart
    exact absurd hpart (by decide +kernel)
  · intro _ _
    rw [hnum, hmax]
    decide
  · intro _ tf action hform
    have hlate : scan_timeform2 lateCall.spec =
        some (["0", "61", "*", "*", "*", "*", "*", "*"].map String.toList, "-exit".toList) := by
      decide +kernel
    rw [hlate] at hform
    cases hform
    apply not_marks
    decide +kernel

theorem sched_append_drops : ¬Sound (fun _ _ _ _ _ _ => 0) sched_create [exitCall, exit2Call] := by
  rintro ⟨rcode, T, happend, hkept, rcode', T', happend', hkept', -⟩
  obtain ⟨-, -, e, he, hT⟩ := append_exit happend
  have hin : e ∈ T.entries := by
    rw [hT]
    exact List.mem_singleton_self e
  have hpart : e.c_cronspec <:+: exit2Call.cronspec := by
    rw [he]
    decide +kernel
  rw [sched_append_there _ hin hpart, Option.some.injEq, Prod.mk.injEq] at happend'
  obtain ⟨rfl, rfl⟩ := happend'
  rcases hkept'.kept rfl with ⟨e', -, hT'⟩ | ⟨-, e', he', hspec⟩
  · have hlen := congrArg List.length hT'
    rw [List.length_append, List.length_singleton] at hlen
    omega
  · rw [hT, List.mem_singleton] at he'
    rw [he', he] at hspec
    exact absurd hspec (by decide +kernel)

end delegate.sched
