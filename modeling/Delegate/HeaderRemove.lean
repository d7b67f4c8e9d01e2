-- Removing fields from a header (mimekit/rfc822.cpp): `removeFields` filters
-- the text once, `rmField` searches and removes one line each time, and leaves
-- the lines that continue it.
import Delegate.Rfc822

open ctext segs

namespace delegate.rfc822

/-! ## Headers as lists of fields -/

/-- A field: its first line and the lines that continue it. -/
structure Field where
  line : Text
  conts : List Text

def Field.lines (f : Field) : List Text := f.line :: f.conts

/-- A header, which may begin with lines that continue nothing. -/
structure Header where
  lead : List Text
  fields : List Field

def Header.lines (h : Header) : List Text := h.lead ++ h.fields.flatMap Field.lines

def Header.text (h : Header) : Text := flat '\n' h.lines

/-- The lines of a header: none is empty, and those that continue a field begin with a blank. -/
structure Header.Wf (h : Header) : Prop where
  no_end : ∀ l ∈ h.lines, '\n' ∉ l
  lead : ∀ l ∈ h.lead, isCont l = true
  first : ∀ f ∈ h.fields, f.line ≠ [] ∧ isCont f.line = false
  conts : ∀ f ∈ h.fields, ∀ l ∈ f.conts, isCont l = true

/-- The field begins with the name as it is spelled, and the colon. -/
def Field.named (field : Text) (f : Field) : Bool := (field ++ [':']).isPrefixOf f.line

/-- The header without the fields of the name. -/
def Header.without (h : Header) (field : Text) : Header :=
  { h with fields := h.fields.filter fun f => !f.named field }

/-! ## One pass -/

/-- The name is at the begin of the line as it is spelled. -/
def spelledAt (l field : Text) : Bool :=
  field.isPrefixOf l &&
    ((l.drop field.length).head? == some ':' || (l.drop field.length).head? == some ' ')

theorem atField_of_spelledAt {l field : Text} (h : spelledAt l field = true) :
    atField l field = true := by
  unfold spelledAt at h
  rw [Bool.and_eq_true] at h
  obtain ⟨t, rfl⟩ := List.isPrefixOf_iff_prefix.mp h.1
  unfold atField strncaseeq strcaseeq
  rw [List.take_left, List.take_length, h.2]
  simp

theorem spelledAt_line {l field rest : Text} (h : '\n' ∉ field) :
    spelledAt (l ++ '\n' :: rest) field = spelledAt l field := by
  have hpre : field.isPrefixOf (l ++ '\n' :: rest) = field.isPrefixOf l := by
    rw [Bool.eq_iff_iff, List.isPrefixOf_iff_prefix, List.isPrefixOf_iff_prefix]
    refine ⟨fun hpre => ?_, fun hpre => hpre.trans (List.prefix_append l _)⟩
    rcases List.prefix_or_prefix_of_prefix hpre (List.prefix_append l ('\n' :: rest)) with
      hshort | ⟨t, ht⟩
    · exact hshort
    · rw [← ht] at hpre h ⊢
      rw [List.prefix_append_right_inj] at hpre
      cases t with
      | nil => simp
      | cons c t =>
        rw [List.cons_prefix_cons] at hpre
        exact absurd (by simp [hpre.1]) h
  unfold spelledAt
  rw [hpre]
  cases hpref : field.isPrefixOf l with
  | false => rfl
  | true =>
    obtain ⟨t, rfl⟩ := List.isPrefixOf_iff_prefix.mp hpref
    rw [List.append_assoc, List.drop_left, List.drop_left]
    cases t with
    | nil => simp
    | cons c t => rfl

/-- In a line there is no other field. -/
theorem loop_rest (field : Text) {l : Text} (rest : Text) (skip : Bool) (nrem : Nat)
    (hl : '\n' ∉ l) :
    removeFields.loop field false false skip nrem (l ++ '\n' :: rest) =
      let r := removeFields.loop field false true skip nrem rest
      (if skip then r.1 else l ++ '\n' :: r.1, r.2) := by
  induction l with
  | nil =>
    rw [List.nil_append, removeFields.loop]
    simp
  | cons c l ih =>
    obtain ⟨hc, hl⟩ := List.ne_and_not_mem_of_not_mem_cons hl
    have hnl : (c == '\n') = false := by simpa using Ne.symm hc
    rw [List.cons_append, removeFields.loop]
    simp only [Bool.false_and, Bool.false_eq_true, if_false, false_and, hnl, ih hl]
    cases skip <;> rfl

/-- A line is skipped if it is of the name, or continues what is skipped. -/
def skips (field : Text) (skip : Bool) (l : Text) : Bool :=
  spelledAt l field || (isCont l && skip)

/-- A line is skipped or kept as a whole. -/
theorem removeFields_line {field l : Text} (rest : Text) (skip : Bool) (nrem : Nat)
    (h : FieldName field) (hl : '\n' ∉ l) (hne : l ≠ []) :
    removeFields.loop field false true skip nrem (l ++ '\n' :: rest) =
      let r := removeFields.loop field false true (skips field skip l)
        (if spelledAt l field then nrem + 1 else nrem) rest
      (if skips field skip l then r.1 else l ++ '\n' :: r.1, r.2) := by
  have hnl : '\n' ∉ field := fun hmem => (h.chars _ hmem).2.2.2 rfl
  have hspelled := @spelledAt_line l field rest hnl
  obtain ⟨c, l, rfl⟩ := List.exists_cons_of_ne_nil hne
  obtain ⟨hc, hl⟩ := List.ne_and_not_mem_of_not_mem_cons hl
  have hcnl : (c == '\n') = false := by simpa using Ne.symm hc
  have hhit : (true && field.isPrefixOf (c :: (l ++ '\n' :: rest)) &&
      (false || ((c :: (l ++ '\n' :: rest)).drop field.length).head? == some ':' ||
        ((c :: (l ++ '\n' :: rest)).drop field.length).head? == some ' ')) =
      spelledAt (c :: l) field := by
    rw [← hspelled]
    rfl
  have hskip : (if spelledAt (c :: l) field = true then true
      else if true = true ∧ c ≠ ' ' ∧ c ≠ '\t' then false else skip) =
      skips field skip (c :: l) := by
    unfold skips isCont
    cases spelledAt (c :: l) field
    · by_cases hblank : c = ' ' ∨ c = '\t'
      · rcases hblank with rfl | rfl <;> simp
      · rw [not_or] at hblank
        simp [hblank]
    · rfl
  rw [List.cons_append, removeFields.loop]
  dsimp only
  rw [hhit, hskip, hcnl, loop_rest field rest _ _ hl]
  cases skips field skip (c :: l) <;> rfl

/-- The lines that are left, and the number of fields. -/
def pass (field : Text) : Bool → List Text → List Text × Nat
  | _, [] => ([], 0)
  | skip, l :: ls =>
    let r := pass field (skips field skip l) ls
    (if skips field skip l then r.1 else l :: r.1, r.2 + if spelledAt l field then 1 else 0)

theorem removeFields_flat {field : Text} {ls : List Text} (h : FieldName field)
    (hls : ∀ l ∈ ls, '\n' ∉ l ∧ l ≠ []) (skip : Bool) (nrem : Nat) :
    removeFields.loop field false true skip nrem (flat '\n' ls) =
      (flat '\n' (pass field skip ls).1, nrem + (pass field skip ls).2) := by
  induction ls generalizing skip nrem with
  | nil => rfl
  | cons l ls ih =>
    obtain ⟨hl, hne⟩ := hls l List.mem_cons_self
    rw [flat_cons, removeFields_line _ _ _ h hl hne, pass]
    dsimp only
    rw [ih fun x hx => hls x (List.mem_cons_of_mem _ hx)]
    congr 1
    · split
      · rfl
      · rw [flat_cons]
    · dsimp only
      split
      · omega
      · omega

theorem spelledAt_cont {l field : Text} (h : FieldName field) (hl : isCont l = true) :
    spelledAt l field = false := by
  cases hs : spelledAt l field with
  | false => rfl
  | true =>
    have hat := atField_of_spelledAt hs
    rw [atField_cont h hl] at hat
    cases hat

/-- Lines that continue a field are all skipped or all kept. -/
theorem pass_conts {field : Text} (h : FieldName field) {ls : List Text}
    (hls : ∀ l ∈ ls, isCont l = true) (skip : Bool) (rest : List Text) :
    pass field skip (ls ++ rest) =
      (if skip then (pass field skip rest).1 else ls ++ (pass field skip rest).1,
        (pass field skip rest).2) := by
  induction ls with
  | nil => cases skip <;> rfl
  | cons l ls ih =>
    have hl := hls l List.mem_cons_self
    have hskip : skips field skip l = skip := by
      unfold skips
      rw [spelledAt_cont h hl, hl]
      simp
    rw [List.cons_append, pass, hskip, ih fun x hx => hls x (List.mem_cons_of_mem _ hx),
      spelledAt_cont h hl]
    cases skip <;> rfl

/-- The pass removes the fields that are spelled so, with the lines that continue them. -/
theorem pass_fields {field : Text} (h : FieldName field) {fs : List Field}
    (hfirst : ∀ f ∈ fs, f.line ≠ [] ∧ isCont f.line = false)
    (hconts : ∀ f ∈ fs, ∀ l ∈ f.conts, isCont l = true) (skip : Bool) :
    pass field skip (fs.flatMap Field.lines) =
      ((fs.filter fun f => !spelledAt f.line field).flatMap Field.lines,
        fs.countP fun f => spelledAt f.line field) := by
  induction fs generalizing skip with
  | nil => rfl
  | cons f fs ih =>
    have hskip : skips field skip f.line = spelledAt f.line field := by
      unfold skips
      rw [(hfirst f List.mem_cons_self).2]
      simp
    have hrest := ih (fun g hg => hfirst g (List.mem_cons_of_mem _ hg))
      fun g hg => hconts g (List.mem_cons_of_mem _ hg)
    rw [List.flatMap_cons, Field.lines, List.cons_append, pass, hskip,
      pass_conts h (hconts f List.mem_cons_self), hrest, List.countP_cons]
    cases hs : spelledAt f.line field with
    | false =>
      rw [List.filter_cons_of_pos (by simp [hs]), List.flatMap_cons]
      rfl
    | true =>
      rw [List.filter_cons_of_neg (by simp [hs])]
      rfl

/-! ## Both ways -/

theorem spelledAt_of_named {field : Text} {f : Field} (h : f.named field = true) :
    spelledAt f.line field = true := by
  obtain ⟨t, ht⟩ := List.isPrefixOf_iff_prefix.mp h
  unfold spelledAt
  rw [← ht, List.append_assoc, List.drop_left, Bool.and_eq_true, List.isPrefixOf_iff_prefix]
  exact ⟨List.prefix_append _ _, rfl⟩

theorem atField_of_named {field : Text} {f : Field} (h : f.named field = true) :
    atField f.line field = true := atField_of_spelledAt (spelledAt_of_named h)

/-- Where two counts are the same, and what is counted first is counted second, both count the
same. -/
theorem countP_eq_imp {α : Type} {p q : α → Bool} {ls : List α} (h : ∀ x ∈ ls, p x = true → q x = true)
    (hcount : ls.countP p = ls.countP q) : ∀ x ∈ ls, q x = p x := by
  induction ls with
  | nil => simp
  | cons x ls ih =>
    have hle := List.countP_mono_left (l := ls) fun y hy => h y (List.mem_cons_of_mem _ hy)
    have hx := h x List.mem_cons_self
    rw [List.countP_cons, List.countP_cons] at hcount
    have hsame : q x = p x ∧ ls.countP p = ls.countP q := by
      cases hp : p x <;> cases hq : q x <;> simp_all
    rw [List.forall_mem_cons]
    exact ⟨hsame.1, ih (fun y hy => h y (List.mem_cons_of_mem _ hy)) hsame.2⟩

/-- The lines that `rmField` leaves of a field. -/
def Field.left (field : Text) (f : Field) : List Text :=
  if atField f.line field then f.conts else f.lines

theorem filter_lines {field : Text} (h : FieldName field) {ls : List Text}
    (hls : ∀ l ∈ ls, isCont l = true) : (ls.filter fun l => !atField l field) = ls := by
  rw [List.filter_eq_self]
  intro l hl
  rw [atField_cont h (hls l hl)]
  rfl

theorem rmField_text {field : Text} (h : FieldName field) {hdr : Header} (hwf : hdr.Wf) :
    rmField hdr.text field =
      (flat '\n' (hdr.lead ++ hdr.fields.flatMap (Field.left field)),
        hdr.fields.countP fun f => atField f.line field) := by
  have hfields : ∀ fs : List Field, (∀ f ∈ fs, ∀ l ∈ f.conts, isCont l = true) →
      ((fs.flatMap Field.lines).filter fun l => !atField l field) =
          fs.flatMap (Field.left field) ∧
        (fs.flatMap Field.lines).countP (atField · field) =
          fs.countP fun f => atField f.line field := by
    intro fs hfs
    induction fs with
    | nil => exact ⟨rfl, rfl⟩
    | cons f fs ih =>
      obtain ⟨hkeep, hcount⟩ := ih fun g hg => hfs g (List.mem_cons_of_mem _ hg)
      have hconts := filter_lines h (hfs f List.mem_cons_self)
      have hzero : f.conts.countP (atField · field) = 0 := by
        rw [List.countP_eq_zero]
        intro l hl
        rw [atField_cont h (hfs f List.mem_cons_self l hl)]
        simp
      rw [List.flatMap_cons, List.flatMap_cons, List.filter_append, List.countP_append, hkeep, hcount,
        List.countP_cons, Field.lines, List.countP_cons, hzero]
      constructor
      · congr 1
        unfold Field.left Field.lines
        cases hat : atField f.line field with
        | false => rw [List.filter_cons_of_pos (by simp [hat]), hconts]; rfl
        | true => rw [List.filter_cons_of_neg (by simp [hat]), hconts]; rfl
      · omega
  obtain ⟨hkeep, hcount⟩ := hfields hdr.fields hwf.conts
  have hzero : hdr.lead.countP (atField · field) = 0 := by
    rw [List.countP_eq_zero]
    intro l hl
    rw [atField_cont h (hwf.lead l hl)]
    simp
  unfold Header.text
  rw [rmField_flat h hwf.no_end, Header.lines, List.filter_append, List.countP_append, hkeep, hcount,
    filter_lines h hwf.lead, hzero, Nat.zero_add]

theorem removeFields_text {field : Text} (h : FieldName field) {hdr : Header} (hwf : hdr.Wf) :
    removeFields hdr.text field false =
      (flat '\n' (hdr.lead ++
          (hdr.fields.filter fun f => !spelledAt f.line field).flatMap Field.lines),
        hdr.fields.countP fun f => spelledAt f.line field) := by
  have hne : ∀ l ∈ hdr.lines, l ≠ [] := by
    intro l hl
    have hcont : ∀ {l : Text}, isCont l = true → l ≠ [] := by
      rintro l hl rfl
      cases hl
    rcases List.mem_append.mp hl with hlead | hfields
    · exact hcont (hwf.lead l hlead)
    · obtain ⟨f, hf, hmem⟩ := List.mem_flatMap.mp hfields
      rcases List.mem_cons.mp hmem with rfl | hmem
      · exact (hwf.first f hf).1
      · exact hcont (hwf.conts f hf l hmem)
  unfold removeFields Header.text
  rw [removeFields_flat h fun l hl => ⟨hwf.no_end l hl, hne l hl⟩, Header.lines,
    pass_conts h hwf.lead, pass_fields h hwf.first hwf.conts]
  simp

/-- What `rmField` leaves: the fields of other names, and the lines that continue the others. -/
theorem length_left {field : Text} {fs : List Field}
    (hsame : ∀ f ∈ fs, atField f.line field = f.named field) :
    (fs.flatMap (Field.left field)).length =
      ((fs.filter fun f => !f.named field).flatMap Field.lines).length +
        ((fs.filter (Field.named field)).flatMap Field.conts).length := by
  induction fs with
  | nil => rfl
  | cons f fs ih =>
    have hf := hsame f List.mem_cons_self
    have hrest := ih fun g hg => hsame g (List.mem_cons_of_mem _ hg)
    rw [List.flatMap_cons, List.length_append, hrest, Field.left, hf]
    cases hn : f.named field with
    | false =>
      rw [List.filter_cons_of_pos (by simp [hn]), List.filter_cons_of_neg (by simp [hn]),
        List.flatMap_cons, List.length_append, if_neg (by simp)]
      omega
    | true =>
      rw [List.filter_cons_of_neg (by simp [hn]), List.filter_cons_of_pos hn, List.flatMap_cons,
        List.length_append, if_pos rfl]
      omega

/-- Texts of lines are the same only if the lines are. -/
theorem flat_inj {a b : List Text} (ha : ∀ l ∈ a, '\n' ∉ l) (hb : ∀ l ∈ b, '\n' ∉ l)
    (h : flat '\n' a = flat '\n' b) : a = b := by
  have hsa := split_flat ha []
  have hsb := split_flat hb []
  rw [h, hsb, Prod.mk.injEq] at hsa
  simpa [split] using hsa.1.symm

/-- Both ways remove the fields of a name exactly where no field of the name is folded, and no line of
another name is taken for one. -/
theorem remove_same_iff {field : Text} (h : FieldName field) {hdr : Header} (hwf : hdr.Wf) :
    (rmField hdr.text field = ((hdr.without field).text, hdr.fields.countP (Field.named field)) ∧
      removeFields hdr.text field false =
        ((hdr.without field).text, hdr.fields.countP (Field.named field))) ↔
      ∀ f ∈ hdr.fields, atField f.line field = true → f.named field = true ∧ f.conts = [] := by
  have hfields : ∀ f ∈ hdr.fields, ∀ l ∈ f.lines, '\n' ∉ l := fun f hf l hl =>
    hwf.no_end l (List.mem_append_right _ (List.mem_flatMap.mpr ⟨f, hf, hl⟩))
  have hlead : ∀ l ∈ hdr.lead, '\n' ∉ l := fun l hl => hwf.no_end l (List.mem_append_left _ hl)
  rw [rmField_text h hwf, removeFields_text h hwf]
  unfold Header.text Header.without Header.lines
  constructor
  · rintro ⟨hrm, -⟩
    rw [Prod.mk.injEq] at hrm
    have hsame := countP_eq_imp (fun f _ => atField_of_named) hrm.2.symm
    have hlines := flat_inj (List.forall_mem_append.mpr ⟨hlead, fun l hl => ?_⟩)
      (List.forall_mem_append.mpr ⟨hlead, fun l hl => ?_⟩) hrm.1
    · have hlen := congrArg List.length (List.append_cancel_left hlines)
      rw [length_left hsame] at hlen
      dsimp only at hlen
      have hnil : (hdr.fields.filter (Field.named field)).flatMap Field.conts = [] := by
        rw [← List.length_eq_zero_iff]
        omega
      rw [List.flatMap_eq_nil_iff] at hnil
      intro f hf hat
      rw [hsame f hf] at hat
      exact ⟨hat, hnil f (List.mem_filter.mpr ⟨hf, hat⟩)⟩
    · obtain ⟨f, hf, hmem⟩ := List.mem_flatMap.mp hl
      refine hfields f hf l ?_
      unfold Field.left at hmem
      split at hmem
      · exact List.mem_cons_of_mem _ hmem
      · exact hmem
    · obtain ⟨f, hf, hmem⟩ := List.mem_flatMap.mp hl
      exact hfields f (List.mem_of_mem_filter hf) l hmem
  · intro hcond
    have hsame : ∀ f ∈ hdr.fields, atField f.line field = f.named field := by
      intro f hf
      rw [Bool.eq_iff_iff]
      exact ⟨fun hat => (hcond f hf hat).1, atField_of_named⟩
    have hspelled : ∀ f ∈ hdr.fields, spelledAt f.line field = f.named field := by
      intro f hf
      rw [Bool.eq_iff_iff]
      exact ⟨fun hs => (hcond f hf (atField_of_spelledAt hs)).1, spelledAt_of_named⟩
    have hleft : hdr.fields.flatMap (Field.left field) =
        (hdr.fields.filter fun f => !f.named field).flatMap Field.lines := by
      have hfs : ∀ f ∈ hdr.fields, atField f.line field = f.named field ∧
          (f.named field = true → f.conts = []) := fun f hf =>
        ⟨hsame f hf, fun hn => (hcond f hf (atField_of_named hn)).2⟩
      generalize hdr.fields = fs at hfs
      induction fs with
      | nil => rfl
      | cons f fs ih =>
        obtain ⟨hf, hconts⟩ := hfs f List.mem_cons_self
        rw [List.flatMap_cons, ih fun g hg => hfs g (List.mem_cons_of_mem _ hg), Field.left, hf]
        cases hn : f.named field with
        | false => rw [List.filter_cons_of_pos (by simp [hn]), if_neg (by simp), List.flatMap_cons]
        | true =>
          rw [List.filter_cons_of_neg (by simp [hn]), if_pos rfl, hconts hn, List.nil_append]
    have hcount : (hdr.fields.countP fun f => atField f.line field) =
        hdr.fields.countP (Field.named field) :=
      List.countP_congr fun f hf => by rw [hsame f hf]
    have hcount' : (hdr.fields.countP fun f => spelledAt f.line field) =
        hdr.fields.countP (Field.named field) :=
      List.countP_congr fun f hf => by rw [hspelled f hf]
    have hfilter : (hdr.fields.filter fun f => !spelledAt f.line field) =
        hdr.fields.filter fun f => !f.named field :=
      List.filter_congr fun f hf => by rw [hspelled f hf]
    rw [hleft, hcount, hcount', hfilter]
    exact ⟨rfl, rfl⟩

/-- Two fields, the second of which is folded. -/
def folded : Header := ⟨[], [⟨"A: x".toList, []⟩, ⟨"B: y".toList, [" z".toList]⟩]⟩

theorem folded_wf : folded.Wf :=
  ⟨by decide, by decide, by decide, by decide⟩

theorem remove_same_A :
    (rmField folded.text ['A'] =
        ((folded.without ['A']).text, folded.fields.countP (Field.named ['A'])) ∧
      removeFields folded.text ['A'] false =
        ((folded.without ['A']).text, folded.fields.countP (Field.named ['A']))) ↔
      ∀ f ∈ folded.fields, atField f.line ['A'] = true → f.named ['A'] = true ∧ f.conts = [] :=
  remove_same_iff ⟨by simp, by simp⟩ folded_wf

/-- The second line of the field `B` stays, and continues the field `A`. -/
theorem folded_line_stays :
    rmField folded.text ['B'] ≠
        ((folded.without ['B']).text, folded.fields.countP (Field.named ['B'])) := by
  rw [rmField_text ⟨by simp, by simp⟩ folded_wf]
  decide

end delegate.rfc822
