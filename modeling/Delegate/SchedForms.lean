-- The two forms of a specification that `sched_append` takes (rary/sched.cpp):
-- the one with letters after an `@`, and the canonical one with a field for
-- each unit. The first is printed as the second and parsed again.
import Delegate.SchedAppend

open ctext

namespace delegate.sched

/-! ## The two forms -/

/-- The letters of the units in the list of the time events. -/
inductive Letter
  | S | M | H | d | m | y
  deriving DecidableEq, Repr

def Letter.chr : Letter → Char
  | S => 'S'
  | M => 'M'
  | H => 'H'
  | d => 'd'
  | m => 'm'
  | y => 'y'

/-- The unit that the list gives for a letter. -/
def Letter.unit : Letter → Nat
  | S => SEC
  | M => MiN
  | H => HOUR
  | d => MDAY
  | m => MON
  | y => YEAR

def InRange (ti n : Nat) : Prop := (turange ti).1 ≤ n ∧ (n : Int) ≤ (turange ti).2

instance instDecidableInRange (ti n : Nat) : Decidable (InRange ti n) :=
  inferInstanceAs (Decidable (_ ∧ _))

/-- A letter with a value of its unit. -/
structure Item where
  letter : Letter
  value : Nat
  inRange : InRange letter.unit value

def Item.text (it : Item) : Text := it.letter.chr :: dec it.value

/-- `@timespec action` -/
def atSpec (items : List Item) (sep : Char) (action : Text) : Text :=
  '@' :: ([','].intercalate (items.map Item.text) ++ sep :: action)

/-- The values given for a unit, in order. -/
def values (items : List Item) (ti : Nat) : List Nat :=
  (items.filter fun it => decide (it.letter.unit = ti)).map Item.value

/-- A field of the canonical form. -/
def field (vs : List Nat) : Text := if vs = [] then ['*'] else [','].intercalate (vs.map dec)

/-- `Wday:y:m:d:H:M:S:action` -/
def formOf (vals : Nat → List Nat) (action : Text) : Text :=
  ([WDAY, YEAR, MON, MDAY, HOUR, MiN, SEC].flatMap fun ti => field (vals ti) ++ [':']) ++ action

def canonSpec (items : List Item) (action : Text) : Text := formOf (values items) action

/-! ## Lists of plain texts -/

/-- A text that stands in a comma list as it is. -/
def Plain (t : Text) : Prop := t ≠ [] ∧ ∀ c ∈ t, c ≠ ',' ∧ c ≠ '\\' ∧ c ≠ '{' ∧ c ≠ '}'

/-- One character that is no brace and no backslash. -/
theorem scanElem_char {c : Char} (h1 : c ≠ '\\') (h2 : c ≠ '{') (h3 : c ≠ '}') (s acc : Text) :
    hostlist.scanElem ',' (c :: s) 0 false acc =
      if c = ',' then (⟨acc, s⟩, s) else hostlist.scanElem ',' s 0 false (acc ++ [c]) := by
  rw [hostlist.scanElem.eq_def]
  simp [h1, h2, h3]

theorem scanElem_plain {t : Text} (ht : ∀ c ∈ t, c ≠ ',' ∧ c ≠ '\\' ∧ c ≠ '{' ∧ c ≠ '}')
    (s acc : Text) :
    hostlist.scanElem ',' (t ++ s) 0 false acc = hostlist.scanElem ',' s 0 false (acc ++ t) := by
  induction t generalizing acc with
  | nil => simp
  | cons c t ih =>
    obtain ⟨h1, h2, h3, h4⟩ := ht c (by simp)
    rw [List.cons_append, scanElem_char h2 h3 h4, if_neg h1,
      ih (fun x hx => ht x (List.mem_cons_of_mem _ hx)), List.append_assoc]
    rfl

theorem scanElem_comma (s acc : Text) :
    hostlist.scanElem ',' (',' :: s) 0 false acc = (⟨acc, s⟩, s) := by
  rw [scanElem_char (by decide) (by decide) (by decide), if_pos rfl]

theorem scanElems_plain {ts : List Text} (h : ∀ t ∈ ts, Plain t) (n : Nat)
    (hn : ([','].intercalate ts).length ≤ n) :
    (hostlist.scanElems ',' n ([','].intercalate ts)).map hostlist.Elem.text = ts := by
  induction ts generalizing n with
  | nil => cases n <;> simp [hostlist.scanElems]
  | cons t ts ih =>
    obtain ⟨hne, ht⟩ := h t (by simp)
    rcases n with _ | n
    · rcases ts with _ | ⟨u, ts⟩ <;> simp [hne] at hn
    rcases ts with _ | ⟨u, ts⟩
    · rw [List.intercalate_singleton] at hn ⊢
      have hscan := scanElem_plain ht [] []
      rw [List.append_nil, List.nil_append, hostlist.scanElem] at hscan
      obtain ⟨c, t', rfl⟩ := List.exists_cons_of_ne_nil hne
      rw [hostlist.scanElems, hscan]
      · cases n <;> simp [hostlist.scanElems]
      · simp
    · rw [List.intercalate_cons_cons] at hn ⊢
      have hscan := scanElem_plain ht (',' :: [','].intercalate (u :: ts)) []
      rw [scanElem_comma, List.nil_append] at hscan
      obtain ⟨c, t', rfl⟩ := List.exists_cons_of_ne_nil hne
      have hrest := ih (fun x hx => h x (List.mem_cons_of_mem _ hx)) n (by simp at hn; omega)
      rw [List.append_assoc, List.singleton_append, List.cons_append, hostlist.scanElems]
      · rw [List.cons_append] at hscan
        rw [hscan]
        simpa using hrest
      · simp

theorem elems_plain {ts : List Text} (h : ∀ t ∈ ts, Plain t) :
    elems ([','].intercalate ts) = ts :=
  scanElems_plain h _ (le_refl _)

theorem dec_plain (n : Nat) : Plain (dec n) := by
  refine ⟨dec_ne_nil n, fun c hc => ?_⟩
  have hd := isDigit_of_mem_dec hc
  refine ⟨?_, ?_, ?_, ?_⟩ <;>
  · rintro rfl
    simp at hd

/-- A character of a list is a comma or stands in one of the texts. -/
theorem mem_intercalate {ts : List Text} {c : Char} (h : c ∈ [','].intercalate ts) :
    c = ',' ∨ ∃ t ∈ ts, c ∈ t := by
  induction ts with
  | nil => simp at h
  | cons t ts ih =>
    rcases ts with _ | ⟨u, ts⟩
    · rw [List.intercalate_singleton] at h
      exact .inr ⟨t, by simp, h⟩
    · rw [List.intercalate_cons_cons, List.mem_append, List.mem_append,
        List.mem_singleton] at h
      rcases h with (h | h) | h
      · exact .inr ⟨t, by simp, h⟩
      · exact .inl h
      · rcases ih h with h | ⟨x, hx, hc⟩
        · exact .inl h
        · exact .inr ⟨x, List.mem_cons_of_mem _ hx, hc⟩

/-! ## Values -/

/-- A value without a sign. -/
def unit (n : Nat) : Tunit := ⟨n, 0⟩

theorem turange_le {ti n : Nat} (h : InRange ti n) : n ≤ 128 := by
  obtain ⟨-, h⟩ := h
  have hmax : (turange ti).2 ≤ 128 := by
    unfold turange
    rcases Nat.lt_or_ge ti 8 with hlt | hge
    · interval_cases ti <;> simp
    · rw [List.getD_eq_default _ _ (by simpa using hge)]
      simp
  omega

theorem unitOf_dec {ti n : Nat} (hn : n ≤ 128) :
    unitOf ti (dec n) = if InRange ti n then some (unit n) else none := by
  obtain ⟨c, s, hcs⟩ := List.exists_cons_of_ne_nil (dec_ne_nil n)
  have hd : c.isDigit = true := isDigit_of_mem_dec (by rw [hcs]; simp : c ∈ dec n)
  have hplus : plus (dec n) = false := by
    rw [hcs, plus]
    simp only [List.head?_cons, Option.some_beq_some, beq_eq_false_iff_ne]
    rintro rfl
    simp at hd
  have hstar : ¬ (dec n = [] ∨ dec n = ['*']) := by
    rw [hcs]
    rintro (h | h)
    · cases h
    · cases h
      simp at hd
  have hhead : ((dec n).headD ' ').isDigit = true := by rw [hcs]; exact hd
  have hatoi : atoi (dec n) = n := atoi_dec (by omega)
  have hname : ¬ (ti = WDAY ∧ ((dec n).headD ' ').isDigit = false) := by
    rintro ⟨-, h⟩
    rw [hhead] at h
    cases h
  have hmod : ((n : Int) % 256).toNat = n := by omega
  unfold unitOf
  rw [hplus, if_neg (by simp), if_neg hstar]
  dsimp only
  rw [if_neg hname, hatoi, hmod]
  by_cases hr : InRange ti n
  · obtain ⟨h1, h2⟩ := id hr
    rw [if_neg (by omega), if_pos hr]
    rfl
  · rw [if_pos, if_neg hr]
    unfold InRange at hr
    omega

/-! ## The canonical form -/

/-- What a field is compiled to. -/
def unitsOf (vs : List Nat) : List Tunit := if vs = [] then [⟨TMU_EVERY, 1⟩] else vs.map unit

theorem unitsOf_inj {a b : List Nat} (ha : ∀ n ∈ a, n ≤ 128) (hb : ∀ n ∈ b, n ≤ 128) :
    unitsOf a = unitsOf b ↔ a = b := by
  have hunit : Function.Injective unit := fun x y h => by
    simpa [unit] using h
  have hevery : ∀ c : List Nat, (∀ n ∈ c, n ≤ 128) → c.map unit ≠ [⟨TMU_EVERY, 1⟩] := by
    intro c hc h
    obtain ⟨n, hn, he⟩ := List.mem_map.mp (by rw [h]; simp : (⟨TMU_EVERY, 1⟩ : Tunit) ∈ c.map unit)
    simp [unit] at he
  unfold unitsOf
  by_cases h1 : a = [] <;> by_cases h2 : b = []
  · simp [h1, h2]
  · rw [if_pos h1, if_neg h2]
    exact iff_of_false (fun h => hevery b hb h.symm) (fun h => h2 (h ▸ h1))
  · rw [if_neg h1, if_pos h2]
    exact iff_of_false (hevery a ha) (fun h => h1 (h ▸ h2))
  · rw [if_neg h1, if_neg h2]
    exact (List.map_injective_iff.mpr hunit).eq_iff

theorem field_ne_nil (vs : List Nat) : field vs ≠ [] := by
  unfold field
  rcases vs with _ | ⟨n, _ | ⟨k, vs⟩⟩
  · simp
  · simp [dec_ne_nil]
  · simp [List.intercalate_cons_cons]

theorem mem_field {vs : List Nat} {c : Char} (h : c ∈ field vs) :
    c = '*' ∨ c = ',' ∨ c.isDigit = true := by
  unfold field at h
  split at h
  · exact .inl (List.mem_singleton.mp h)
  · rcases mem_intercalate h with h | ⟨t, ht, hc⟩
    · exact .inr (.inl h)
    · obtain ⟨n, -, rfl⟩ := List.mem_map.mp ht
      exact .inr (.inr (isDigit_of_mem_dec hc))

theorem elems_field (vs : List Nat) :
    elems (field vs) = if vs = [] then [['*']] else vs.map dec := by
  unfold field
  split
  · decide
  · refine elems_plain fun t ht => ?_
    obtain ⟨n, -, rfl⟩ := List.mem_map.mp ht
    exact dec_plain n

/-- The values of a field, of which a vector has room for 99. -/
theorem scanUnits_dec {ti : Nat} {vs : List Nat} (hvs : ∀ n ∈ vs, InRange ti n)
    (tuv : List Tunit) (rel : Bool) (htuv : tuv.length ≤ 99) :
    if tuv.length + vs.length ≤ 99 then
      (scanUnits ti 100 (vs.map dec) tuv rel).rcode = 0 ∧
        (scanUnits ti 100 (vs.map dec) tuv rel).tuv = tuv ++ vs.map unit
    else (scanUnits ti 100 (vs.map dec) tuv rel).rcode ≠ 0 := by
  induction vs generalizing tuv rel with
  | nil => simp [scanUnits, htuv]
  | cons n vs ih =>
    have hn := hvs n (by simp)
    have hunit : unitOf ti (dec n) = some (unit n) := by
      rw [unitOf_dec (turange_le hn), if_pos hn]
    rw [List.map_cons, List.length_cons]
    by_cases hroom : tuv.length + 1 ≤ 99
    · have hone : timeunit1 (dec n) ti 100 tuv = (0, tuv ++ [unit n]) := by
        unfold timeunit1
        rw [hunit]
        exact if_neg (by omega)
      have hrest := ih (fun k hk => hvs k (List.mem_cons_of_mem _ hk)) (tuv ++ [unit n])
        (rel || plus (dec n)) (by simpa using hroom)
      rw [scanUnits, hone]
      simp only [ne_eq, not_true_eq_false, if_false]
      rw [List.length_append, List.length_singleton, Nat.add_assoc, Nat.add_comm 1,
        List.append_assoc] at hrest
      exact hrest
    · have hone : timeunit1 (dec n) ti 100 tuv = (-1, tuv) := by
        unfold timeunit1
        rw [hunit]
        exact if_pos (by omega)
      rw [if_neg (by omega), scanUnits, hone]
      simp

theorem scanUnits_field {ti : Nat} {vs : List Nat} (hvs : ∀ n ∈ vs, InRange ti n) :
    if vs.length ≤ 99 then
      (scanUnits ti 100 (elems (field vs)) [] false).rcode = 0 ∧
        (scanUnits ti 100 (elems (field vs)) [] false).tuv = unitsOf vs
    else (scanUnits ti 100 (elems (field vs)) [] false).rcode ≠ 0 := by
  rw [elems_field]
  unfold unitsOf
  by_cases h : vs = []
  · subst h
    have hstar : unitOf ti ['*'] = some ⟨TMU_EVERY, 1⟩ := by simp [unitOf, plus]
    simp [scanUnits, timeunit1, hstar]
  · rw [if_neg h, if_neg h]
    simpa using scanUnits_dec hvs [] false (by simp)

/-- The fields of `k` units from `ti` on are compiled, if none has more than
99 values. -/
theorem fillUnits_fields {vals : Nat → List Nat} (k ti : Nat) (cep : CronEnt)
    (hvals : ∀ i, ti ≤ i → i < ti + k → ∀ n ∈ vals i, InRange i n) :
    ((∀ i, ti ≤ i → i < ti + k → (vals i).length ≤ 99) →
      (fillUnits ti ((List.range' ti k).map fun i => field (vals i)) cep).1 = 0 ∧
      (fillUnits ti ((List.range' ti k).map fun i => field (vals i)) cep).2.c_tfv = fun j =>
        if ti ≤ j ∧ j < ti + k then some (unitsOf (vals j)) else cep.c_tfv j) ∧
    ((∃ i, ti ≤ i ∧ i < ti + k ∧ 99 < (vals i).length) →
      (fillUnits ti ((List.range' ti k).map fun i => field (vals i)) cep).1 ≠ 0) := by
  induction k generalizing ti cep with
  | zero =>
    refine ⟨fun _ => ⟨rfl, ?_⟩, fun ⟨i, h1, h2, _⟩ => by omega⟩
    funext j
    exact (if_neg (by omega)).symm
  | succ k ih =>
    rw [List.range'_succ, List.map_cons, fillUnits]
    have hone := scanUnits_field (hvals ti (le_refl _) (by omega))
    by_cases hlen : (vals ti).length ≤ 99
    · rw [if_pos hlen] at hone
      obtain ⟨hcode, htuv⟩ := hone
      obtain ⟨hok, hbad⟩ := ih (ti + 1) { cep with
        c_relative := cep.c_relative || (scanUnits ti 100 (elems (field (vals ti))) [] false).relative
        c_tfv := Function.update cep.c_tfv ti
          (some (scanUnits ti 100 (elems (field (vals ti))) [] false).tuv) }
        (fun i h1 h2 => hvals i (by omega) (by omega))
      dsimp only
      rw [if_neg (not_not.mpr hcode)]
      refine ⟨fun hall => ?_, fun ⟨i, h1, h2, h3⟩ => hbad ⟨i, ?_, by omega, h3⟩⟩
      · obtain ⟨h0, hvec⟩ := hok (fun i h1 h2 => hall i (by omega) (by omega))
        refine ⟨h0, ?_⟩
        rw [hvec]
        funext j
        dsimp only
        by_cases hj : j = ti
        · subst hj
          rw [if_neg (by omega), if_pos (by omega), Function.update_self, htuv]
        · rw [Function.update_of_ne hj]
          exact if_congr (by omega) rfl rfl
      · rcases Nat.eq_or_lt_of_le h1 with rfl | h1
        · omega
        · exact h1
    · rw [if_neg hlen] at hone
      dsimp only
      rw [if_pos hone]
      exact ⟨fun hall => absurd (hall ti (le_refl _) (by omega)) hlen, fun _ => hone⟩

/-- The values of the units of a form. The hundredths of a second are 0. -/
def withCsec (vals : Nat → List Nat) (ti : Nat) : List Nat := if ti = CSEC then [0] else vals ti

theorem stoV_word {w r : Text} (hw : ':' ∉ w) (mac : Nat) :
    stoV ':' (mac + 2) (w ++ ':' :: r) = w :: stoV ':' (mac + 1) r := by
  rw [stoV, if_neg (by simp), if_neg (by omega), afterChr_append hw, beforeChr_append hw]

theorem colon_field (vs : List Nat) : ':' ∉ field vs := by
  intro h
  rcases mem_field h with h | h | h <;> simp at h

theorem formOf_eq (vals : Nat → List Nat) (action : Text) :
    formOf vals action = field (vals WDAY) ++ ':' :: (field (vals YEAR) ++ ':' ::
      (field (vals MON) ++ ':' :: (field (vals MDAY) ++ ':' :: (field (vals HOUR) ++ ':' ::
        (field (vals MiN) ++ ':' :: (field (vals SEC) ++ ':' :: action)))))) := by
  simp [formOf]

theorem stoV_form (vals : Nat → List Nat) (action : Text) :
    stoV ':' 8 (formOf vals action) = [field (vals WDAY), field (vals YEAR), field (vals MON),
      field (vals MDAY), field (vals HOUR), field (vals MiN), field (vals SEC)] ++
      if action = [] then [] else [action] := by
  rw [formOf_eq, stoV_word (colon_field _) 6, stoV_word (colon_field _) 5,
    stoV_word (colon_field _) 4, stoV_word (colon_field _) 3, stoV_word (colon_field _) 2,
    stoV_word (colon_field _) 1, stoV_word (colon_field _) 0, stoV, if_pos rfl]
  rfl

/-- A form is taken apart into its fields. -/
theorem scan_timeform2_form (vals : Nat → List Nat) {action : Text} (h : action ≠ []) :
    scan_timeform2 (formOf vals action) =
      some ((List.range' 0 8).map (fun i => field (withCsec vals i)), action) := by
  have hzero : field [0] = "0".toList := by decide
  unfold scan_timeform2
  rw [stoV_form, if_neg h]
  simp [withCsec, hzero, CSEC, SEC, MiN, HOUR, MDAY, MON, YEAR, WDAY, List.range']

/-- Without an action it has a field too few, and no blank either. -/
theorem scan_timeform2_empty (vals : Nat → List Nat) : scan_timeform2 (formOf vals []) = none := by
  have hblank : ' ' ∉ formOf vals [] := by
    intro h
    unfold formOf at h
    rw [List.append_nil, List.mem_flatMap] at h
    obtain ⟨ti, -, h⟩ := h
    rw [List.mem_append, List.mem_singleton] at h
    rcases h with h | h
    · rcases mem_field h with h | h | h <;> simp at h
    · cases h
  have hne : formOf vals [] ≠ [] := by
    rw [formOf_eq]
    simp
  have hone : stoV ' ' 6 (formOf vals []) = [formOf vals []] := by
    rw [stoV, if_neg hne, if_neg (by omega), afterChr_eq_none hblank]
  unfold scan_timeform2
  rw [stoV_form, if_pos rfl, hone]
  rfl

/-! ## What a form is compiled to -/

/-- What `sched_append` returns, and the vectors of the entries after it. -/
def compiled (toclockLocal : Int → Int → Int → Int → Int → Int → Int) (T : CronTab)
    (cronspec cronspecc : Text) : Option (Int × List (Nat → Option (List Tunit))) :=
  (sched_append toclockLocal T cronspec cronspecc).map fun p =>
    (p.1, p.2.entries.map CronEnt.c_tfv)

/-- No entry's specification is a part of the new one. -/
def Fresh (T : CronTab) (cronspec : Text) : Prop :=
  ∀ e ∈ T.entries, ¬ e.c_cronspec <:+: cronspec

section
variable {toclockLocal : Int → Int → Int → Int → Int → Int → Int} {T : CronTab}
  {cronspec cronspecc action : Text} {vals : Nat → List Nat}

theorem not_dup (h : Fresh T cronspec) :
    ¬ ((T.st_cronvec.take T.st_numcron).any fun e => (strstr e.c_cronspec cronspec).isSome) = true := by
  intro hdup
  obtain ⟨e, he, hin⟩ := List.any_eq_true.mp hdup
  exact h e he (strstr_isSome_iff.mp hin)

/-- A form without an action is refused. -/
theorem compiled_empty (hfresh : Fresh T cronspec)
    (hspec : specOf cronspec cronspecc = formOf vals []) :
    compiled toclockLocal T cronspec cronspecc = some (-1, T.entries.map CronEnt.c_tfv) := by
  unfold compiled sched_append
  rw [if_neg (not_dup hfresh), hspec, scan_timeform2_empty]
  rfl

/-- What the loop over the units gives is what `sched_append` gives. -/
theorem compiled_of_units (hfresh : Fresh T cronspec) {cep : CronEnt}
    (hcep : T.st_cronvec[T.st_numcron]? = some cep) {tf : List Text}
    (hform : scan_timeform2 (specOf cronspec cronspecc) = some (tf, action)) :
    ((fillUnits 0 tf { cep with c_action := action }).1 = 0 →
      compiled toclockLocal T cronspec cronspecc = some (0, T.entries.map CronEnt.c_tfv ++
        [(fillUnits 0 tf { cep with c_action := action }).2.c_tfv])) ∧
    ((fillUnits 0 tf { cep with c_action := action }).1 ≠ 0 →
      ∃ rcode es, rcode ≠ 0 ∧ compiled toclockLocal T cronspec cronspecc = some (rcode, es)) := by
  have hlt := (List.getElem?_eq_some_iff.mp hcep).1
  unfold compiled sched_append
  rw [if_neg (not_dup hfresh)]
  dsimp only
  rw [hform]
  dsimp only
  rw [hcep]
  dsimp only
  constructor
  · intro hcode
    rw [if_neg (not_not.mpr hcode), Option.map_some]
    dsimp only
    rw [entries_set hlt, List.map_append, List.map_singleton]
    rfl
  · intro hcode
    rw [if_pos hcode, Option.map_some]
    exact ⟨_, _, hcode, rfl⟩

/-- A form with an action is compiled field by field. -/
theorem compiled_form (hfresh : Fresh T cronspec) {cep : CronEnt}
    (hcep : T.st_cronvec[T.st_numcron]? = some cep)
    (hspec : specOf cronspec cronspecc = formOf vals action) (h : action ≠ [])
    (hvals : ∀ i < 8, ∀ n ∈ withCsec vals i, InRange i n) :
    ((∀ i < 8, (withCsec vals i).length ≤ 99) →
      compiled toclockLocal T cronspec cronspecc = some (0, T.entries.map CronEnt.c_tfv ++
        [fun j => if j < 8 then some (unitsOf (withCsec vals j)) else cep.c_tfv j])) ∧
    ((∃ i < 8, 99 < (withCsec vals i).length) →
      ∃ rcode es, rcode ≠ 0 ∧ compiled toclockLocal T cronspec cronspecc = some (rcode, es)) := by
  obtain ⟨hok, hbad⟩ := fillUnits_fields 8 0 { cep with c_action := action }
    (fun i _ hi => hvals i (by omega))
  have hform := scan_timeform2_form vals h
  rw [← hspec] at hform
  obtain ⟨hdone, hfail⟩ := @compiled_of_units toclockLocal _ _ _ _ hfresh _ hcep _ hform
  constructor
  · intro hall
    obtain ⟨hcode, hvec⟩ := hok (fun i _ hi => hall i (by omega))
    rw [hdone hcode, hvec]
    simp
  · rintro ⟨i, hi, hlen⟩
    exact hfail (hbad ⟨i, by omega, by omega, hlen⟩)

end

/-! ## The form with letters -/

/-- The values that `tmform1` takes for a unit, before the vector is full. -/
def taken (items : List Item) (ti : Nat) : List Nat :=
  (items.filter fun it =>
    decide (letterUnit it.letter.chr = some ti ∧ InRange ti it.value)).map Item.value

/-- A vector of the form with letters, of which 63 elements are values. -/
def fill (tuv : List Tunit) (vs : List Nat) : List Tunit := (tuv ++ vs.map unit).take 63

theorem fill_nil {tuv : List Tunit} (h : tuv.length ≤ 63) : fill tuv [] = tuv := by
  unfold fill
  rw [List.map_nil, List.append_nil, List.take_of_length_le h]

theorem fill_full {tuv : List Tunit} (h : tuv.length = 63) (vs : List Nat) : fill tuv vs = tuv := by
  unfold fill
  rw [List.take_append_of_le_length (by omega), List.take_of_length_le (by omega)]

theorem fill_cons {tuv : List Tunit} (h : tuv.length ≤ 63) (n : Nat) (vs : List Nat) :
    fill (fill tuv [n]) vs = fill tuv (n :: vs) := by
  by_cases hfull : tuv.length = 63
  · rw [fill_full hfull, fill_full hfull, fill_full hfull]
  · have hone : fill tuv [n] = tuv ++ [unit n] := by
      unfold fill
      rw [List.take_of_length_le (by simp; omega)]
      rfl
    rw [hone]
    unfold fill
    rw [List.append_assoc]
    rfl

theorem length_fill (tuv : List Tunit) (vs : List Nat) : (fill tuv vs).length ≤ 63 := by
  unfold fill
  rw [List.length_take]
  exact Nat.min_le_left _ _

/-- `tmform1` of one item: a value that is not in the range of the unit is
passed over, and so is one behind the end of the vector. -/
theorem timeunit1_fill {ti n : Nat} (hn : n ≤ 128) {tuv : List Tunit} (h : tuv.length ≤ 63) :
    (timeunit1 (dec n) ti 64 tuv).2 = fill tuv (if InRange ti n then [n] else []) := by
  unfold timeunit1
  rw [unitOf_dec hn]
  by_cases hr : InRange ti n
  · rw [if_pos hr, if_pos hr]
    dsimp only
    by_cases hfull : tuv.length = 63
    · rw [if_pos (by omega), fill_full hfull]
    · have hlen : (tuv ++ [n].map unit).length ≤ 63 := by
        simp
        omega
      unfold fill
      rw [if_neg (by omega), List.take_of_length_le hlen]
      rfl
  · rw [if_neg hr, if_neg hr, fill_nil h]

theorem letterUnit_isSome (l : Letter) : ∃ ti, letterUnit l.chr = some ti := by
  cases l
  · exact ⟨SEC, rfl⟩
  · exact ⟨MiN, rfl⟩
  · exact ⟨HOUR, rfl⟩
  · exact ⟨MDAY, rfl⟩
  · exact ⟨WDAY, rfl⟩
  · exact ⟨YEAR, rfl⟩

theorem scanForms_items (items : List Item) (tuv : Nat → List Tunit)
    (htuv : ∀ ti, (tuv ti).length ≤ 63) :
    scanForms (items.map Item.text) tuv = some fun ti => fill (tuv ti) (taken items ti) := by
  induction items generalizing tuv with
  | nil =>
    rw [List.map_nil, scanForms, Option.some.injEq]
    funext ti
    exact (fill_nil (htuv ti)).symm
  | cons it items ih =>
    obtain ⟨ti, hti⟩ := letterUnit_isSome it.letter
    have hone := @timeunit1_fill ti _ (turange_le it.inRange) _ (htuv ti)
    rw [List.map_cons, Item.text, scanForms, hti]
    dsimp only
    rw [hone, ih]
    · rw [Option.some.injEq]
      funext j
      by_cases hj : j = ti
      · subst hj
        rw [Function.update_self]
        by_cases hr : InRange j it.value
        · rw [if_pos hr, fill_cons (htuv j)]
          simp [taken, hti, hr]
        · rw [if_neg hr, fill_nil (htuv j)]
          simp [taken, hr]
      · rw [Function.update_of_ne hj]
        have hne : ¬ (letterUnit it.letter.chr = some j ∧ InRange j it.value) := by
          rw [hti]
          rintro ⟨h, -⟩
          cases h
          exact hj rfl
        simp [taken, hne]
    · intro j
      by_cases hj : j = ti
      · subst hj
        rw [Function.update_self]
        exact length_fill _ _
      · rw [Function.update_of_ne hj]
        exact htuv j

/-- The vectors are printed as the fields of the canonical form. -/
theorem putUnit_fill {vs : List Nat} (hvs : ∀ n ∈ vs, n ≤ 128) :
    putUnit (fill [] vs) = field (vs.take 63) := by
  have hfill : fill [] vs = (vs.take 63).map unit := by
    rw [fill, List.nil_append, List.map_take]
  have hle : ∀ n ∈ vs.take 63, n ≤ 128 := fun n hn => hvs n (List.mem_of_mem_take hn)
  rw [hfill]
  unfold field
  generalize vs.take 63 = ws at hle ⊢
  rcases ws with _ | ⟨n, ws⟩
  · rfl
  · have hn := hle n (by simp)
    have hevery : (unit n).fmt ≠ TMU_EVERY := by
      unfold unit TMU_EVERY
      dsimp only
      omega
    have hinc : (unit n).fmt ≠ TMU_INC := by
      unfold unit TMU_INC
      dsimp only
      omega
    rw [if_neg (by simp), List.map_cons, putUnit, if_neg hevery, if_neg hinc, ← List.map_cons,
      List.map_map]
    rfl

theorem taken_le (items : List Item) (ti : Nat) : ∀ n ∈ taken items ti, n ≤ 128 := by
  intro n hn
  unfold taken at hn
  obtain ⟨it, -, rfl⟩ := List.mem_map.mp hn
  exact turange_le it.inRange

theorem values_inRange (items : List Item) (ti : Nat) : ∀ n ∈ values items ti, InRange ti n := by
  intro n hn
  unfold values at hn
  obtain ⟨it, hit, rfl⟩ := List.mem_map.mp hn
  rw [List.mem_filter, decide_eq_true_eq] at hit
  exact hit.2 ▸ it.inRange

theorem item_plain (it : Item) : Plain it.text := by
  refine ⟨by simp [Item.text], fun c hc => ?_⟩
  rcases List.mem_cons.mp hc with rfl | hc
  · cases it.letter <;> decide
  · exact (dec_plain it.value).2 c hc

/-- The characters at which the list of the items ends. -/
def stopChr (c : Char) : Bool := c == ':' || c == ' ' || c == '\t'

theorem items_go_on (items : List Item) :
    ∀ c ∈ [','].intercalate (items.map Item.text), (!stopChr c) = true := by
  intro c hc
  rcases mem_intercalate hc with rfl | ⟨t, ht, hc⟩
  · decide
  · obtain ⟨it, -, rfl⟩ := List.mem_map.mp ht
    rcases List.mem_cons.mp hc with rfl | hc
    · cases it.letter <;> decide
    · have hd := isDigit_of_mem_dec hc
      simp only [stopChr, Bool.not_eq_true', Bool.or_eq_false_iff, beq_eq_false_iff_ne]
      refine ⟨⟨?_, ?_⟩, ?_⟩ <;>
      · rintro rfl
        simp at hd

/-- The values of the form with letters, as they are printed. -/
def printed (items : List Item) (ti : Nat) : List Nat := (taken items ti).take 63

/-- The form with letters is printed as a canonical one. -/
theorem specOf_atSpec (items : List Item) {sep : Char} (hsep : stopChr sep = true)
    (action cronspecc : Text) :
    specOf (atSpec items sep action) cronspecc = formOf (printed items) action := by
  have hhead : ∀ c ∈ (sep :: action).head?, (!stopChr c) = false := by
    intro c hc
    simp only [List.head?_cons, Option.mem_some_iff] at hc
    subst hc
    rw [hsep]
    rfl
  obtain ⟨htake, hdrop⟩ := while_append (items_go_on items) hhead
  have helems : elems ([','].intercalate (items.map Item.text)) = items.map Item.text :=
    elems_plain fun t ht => by
      obtain ⟨it, -, rfl⟩ := List.mem_map.mp ht
      exact item_plain it
  have hscan : scan_timeform1 ([','].intercalate (items.map Item.text) ++ sep :: action) cronspecc =
      formOf (printed items) action := by
    unfold scan_timeform1
    dsimp only
    rw [show (fun c => !(c == ':' || c == ' ' || c == '\t')) = fun c => !stopChr c from rfl, htake,
      hdrop, helems, scanForms_items items (fun _ => []) (fun _ => by simp)]
    dsimp only
    unfold formOf
    simp only [putUnit_fill (taken_le items _), printed, List.tail_cons]
  have hat : (atSpec items sep action).head? = some '@' := rfl
  unfold specOf
  rw [if_pos hat]
  exact hscan

theorem specOf_canonSpec (items : List Item) (action cronspecc : Text) :
    specOf (canonSpec items action) cronspecc = formOf (values items) action := by
  have hat : (canonSpec items action).head? ≠ some '@' := by
    unfold canonSpec
    rw [formOf_eq]
    obtain ⟨c, s, hcs⟩ := List.exists_cons_of_ne_nil (field_ne_nil (values items WDAY))
    have hc : c ∈ field (values items WDAY) := by simp [hcs]
    rw [hcs, List.cons_append, List.head?_cons, ne_eq, Option.some.injEq]
    rintro rfl
    rcases mem_field hc with h | h | h <;> simp at h
  unfold specOf
  rw [if_neg hat]
  rfl

/-! ## Where the forms agree -/

def NoMonth (items : List Item) : Prop := ∀ it ∈ items, it.letter ≠ .m

/-- No letter has more values than the form with letters has room for. -/
def Few (items : List Item) : Prop :=
  ∀ l, (items.filter fun it => decide (it.letter = l)).length ≤ 63

theorem unit_inj {l l' : Letter} (h : l.unit = l'.unit) : l = l' := by
  cases l <;> cases l' <;> first | rfl | cases h

/-- `tmform1` has the unit of the list for each letter but one. -/
theorem letterUnit_chr (l : Letter) :
    letterUnit l.chr = if l = .m then some WDAY else some l.unit := by
  cases l <;> rfl

theorem values_length (items : List Item) (l : Letter) :
    (values items l.unit).length = (items.filter fun it => decide (it.letter = l)).length := by
  unfold values
  rw [List.length_map]
  have hcongr : (fun it : Item => decide (it.letter.unit = l.unit)) =
      fun it => decide (it.letter = l) := by
    funext it
    rw [decide_eq_decide]
    exact ⟨unit_inj, fun h => h ▸ rfl⟩
  rw [hcongr]

theorem values_month (items : List Item) : values items MON = [] ↔ NoMonth items := by
  unfold values NoMonth
  rw [List.map_eq_nil_iff, List.filter_eq_nil_iff]
  refine forall₂_congr fun it _ => ?_
  rw [decide_eq_true_eq, not_iff_not]
  exact ⟨fun h => @unit_inj _ .m h, fun h => h ▸ rfl⟩

theorem values_of_no_letter {items : List Item} {ti : Nat} (h : ∀ l : Letter, l.unit ≠ ti) :
    values items ti = [] := by
  unfold values
  rw [List.map_eq_nil_iff, List.filter_eq_nil_iff]
  intro it _
  rw [decide_eq_true_eq]
  exact h it.letter

/-- No letter stands for the month. -/
theorem printed_month (items : List Item) : printed items MON = [] := by
  have hnil : taken items MON = [] := by
    unfold taken
    rw [List.map_eq_nil_iff, List.filter_eq_nil_iff]
    intro it _
    rw [decide_eq_true_eq, letterUnit_chr]
    rintro ⟨h, -⟩
    split at h
    · cases h
    · rename_i hm
      exact hm (@unit_inj _ .m (Option.some.inj h))
  unfold printed
  rw [hnil, List.take_nil]

theorem taken_eq_values {items : List Item} (h : NoMonth items) (ti : Nat) :
    taken items ti = values items ti := by
  unfold taken values
  congr 1
  refine List.filter_congr fun it hit => ?_
  rw [decide_eq_decide, letterUnit_chr, if_neg (h it hit), Option.some.injEq]
  exact ⟨fun h => h.1, fun h => ⟨h, h ▸ it.inRange⟩⟩

theorem length_printed (items : List Item) (ti : Nat) : (printed items ti).length ≤ 63 := by
  unfold printed
  rw [List.length_take]
  exact Nat.min_le_left _ _

/-- The printed values are the given ones. -/
theorem printed_iff (items : List Item) :
    (∀ ti < 8, withCsec (printed items) ti = withCsec (values items) ti) ↔
      NoMonth items ∧ Few items := by
  constructor
  · intro h
    have hmonth : NoMonth items := by
      rw [← values_month, ← printed_month items]
      exact (h MON (by decide)).symm
    refine ⟨hmonth, fun l => ?_⟩
    have hunit : l.unit < 8 ∧ l.unit ≠ CSEC := by cases l <;> decide
    have hl := h l.unit hunit.1
    unfold withCsec at hl
    rw [if_neg hunit.2, if_neg hunit.2] at hl
    rw [← values_length, ← hl]
    exact length_printed items l.unit
  · rintro ⟨hmonth, hfew⟩ ti -
    unfold withCsec printed
    rw [taken_eq_values hmonth, List.take_of_length_le]
    by_cases hl : ∃ l : Letter, l.unit = ti
    · obtain ⟨l, rfl⟩ := hl
      rw [values_length]
      exact hfew l
    · push Not at hl
      rw [values_of_no_letter hl]
      simp

theorem printed_inRange (items : List Item) : ∀ i < 8, ∀ n ∈ withCsec (printed items) i,
    InRange i n := by
  intro i _ n hn
  unfold withCsec at hn
  split at hn
  · rename_i hi
    rw [hi, List.mem_singleton.mp hn]
    decide
  · have hmem := List.mem_of_mem_take hn
    unfold taken at hmem
    obtain ⟨it, hit, rfl⟩ := List.mem_map.mp hmem
    rw [List.mem_filter, decide_eq_true_eq] at hit
    exact hit.2.2

theorem given_inRange (items : List Item) : ∀ i < 8, ∀ n ∈ withCsec (values items) i,
    InRange i n := by
  intro i _ n hn
  unfold withCsec at hn
  split at hn
  · rename_i hi
    rw [hi, List.mem_singleton.mp hn]
    decide
  · exact values_inRange items i n hn

/-- Both forms are compiled to the same vectors when and only when there is
no month among the items, and no more than 63 values for a letter; or there
is no action, and both are refused. -/
theorem timespec_forms_iff (toclockLocal : Int → Int → Int → Int → Int → Int → Int) (T : CronTab)
    (items : List Item) (sep : Char) (action cronspecc cronspecc' : Text)
    (hsep : stopChr sep = true) (hroom : T.st_numcron < T.st_cronvec.length)
    (hat : Fresh T (atSpec items sep action)) (hcanon : Fresh T (canonSpec items action)) :
    compiled toclockLocal T (atSpec items sep action) cronspecc =
        compiled toclockLocal T (canonSpec items action) cronspecc' ↔
      action = [] ∨ NoMonth items ∧ Few items := by
  have hat' := specOf_atSpec items hsep action cronspecc
  have hcanon' := specOf_canonSpec items action cronspecc'
  by_cases haction : action = []
  · rw [haction] at hat' hcanon' hat hcanon ⊢
    rw [compiled_empty hat hat', compiled_empty hcanon hcanon']
    simp
  obtain ⟨cep, hcep⟩ : ∃ cep, T.st_cronvec[T.st_numcron]? = some cep :=
    ⟨_, List.getElem?_eq_getElem hroom⟩
  have hfirst := (@compiled_form toclockLocal _ _ _ _ _ hat _ hcep hat' haction
    (printed_inRange items)).1 (fun i _ => by
      unfold withCsec
      split
      · simp
      · have := length_printed items i
        omega)
  obtain ⟨hok, hbad⟩ := @compiled_form toclockLocal _ _ _ _ _ hcanon _ hcep hcanon' haction
    (given_inRange items)
  rw [hfirst, or_iff_right haction, ← printed_iff]
  by_cases hall : ∀ i < 8, (withCsec (values items) i).length ≤ 99
  · rw [hok hall, Option.some.injEq, Prod.mk.injEq, List.append_cancel_left_eq]
    simp only [true_and, List.cons.injEq, and_true]
    constructor
    · intro h ti hti
      have hti' := congrFun h ti
      rw [if_pos hti, if_pos hti, Option.some.injEq, unitsOf_inj] at hti'
      · exact hti'
      · exact fun n hn => turange_le (printed_inRange items ti hti n hn)
      · exact fun n hn => turange_le (given_inRange items ti hti n hn)
    · intro h
      funext ti
      by_cases hti : ti < 8
      · rw [if_pos hti, if_pos hti, h ti hti]
      · rw [if_neg hti, if_neg hti]
  · push Not at hall
    obtain ⟨i, hi, hlen⟩ := hall
    obtain ⟨rcode, es, hcode, hres⟩ := hbad ⟨i, hi, hlen⟩
    rw [hres]
    refine iff_of_false (fun h => ?_) fun h => ?_
    · rw [Option.some.injEq, Prod.mk.injEq] at h
      exact hcode h.1.symm
    · rw [← h i hi] at hlen
      unfold withCsec at hlen
      split at hlen
      · simp at hlen
      · have := length_printed items i
        omega

theorem fresh_create (cronspec : Text) : Fresh sched_create cronspec := by
  intro e he
  cases he

/-- `@m3 -exit` and `*:*:3:*:*:*:*:-exit` -/
theorem month_item_differs :
    ¬ compiled (fun _ _ _ _ _ _ => 0) sched_create
        (atSpec [⟨.m, 3, by decide⟩] ' ' "-exit".toList) [] =
      compiled (fun _ _ _ _ _ _ => 0) sched_create
        (canonSpec [⟨.m, 3, by decide⟩] "-exit".toList) [] := by
  intro h
  have hmonth := congrArg (Option.map fun p => p.2.map fun tfv => tfv MON) h
  revert hmonth
  decide +kernel

/-- `@H3,M0,M30 -exit` -/
theorem timespec_forms_half_past :
    (stopChr ' ' = true ∧ sched_create.st_numcron < sched_create.st_cronvec.length ∧
      Fresh sched_create (atSpec [⟨.H, 3, by decide⟩, ⟨.M, 0, by decide⟩, ⟨.M, 30, by decide⟩] ' '
        "-exit".toList) ∧
      Fresh sched_create (canonSpec [⟨.H, 3, by decide⟩, ⟨.M, 0, by decide⟩, ⟨.M, 30, by decide⟩]
        "-exit".toList)) ∧
    (compiled (fun _ _ _ _ _ _ => 0) sched_create
        (atSpec [⟨.H, 3, by decide⟩, ⟨.M, 0, by decide⟩, ⟨.M, 30, by decide⟩] ' '
          "-exit".toList) [] =
      compiled (fun _ _ _ _ _ _ => 0) sched_create
        (canonSpec [⟨.H, 3, by decide⟩, ⟨.M, 0, by decide⟩, ⟨.M, 30, by decide⟩]
          "-exit".toList) [] ↔
      "-exit".toList = [] ∨
        NoMonth [⟨.H, 3, by decide⟩, ⟨.M, 0, by decide⟩, ⟨.M, 30, by decide⟩] ∧
        Few [⟨.H, 3, by decide⟩, ⟨.M, 0, by decide⟩, ⟨.M, 30, by decide⟩]) :=
  ⟨⟨rfl, by decide, fresh_create _, fresh_create _⟩,
    timespec_forms_iff _ sched_create _ ' ' _ [] [] rfl (by decide) (fresh_create _)
      (fresh_create _)⟩

end delegate.sched
