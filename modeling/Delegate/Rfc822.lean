-- The fields of a message header (mimekit/rfc822.cpp): where a field is found,
-- its value, and where it ends.
import Delegate.CText
import Delegate.Segments

open ctext segs

namespace delegate.rfc822

/-! ## The pure model -/

/-- `strncasecmp(a,b,n) == 0` -/
def strncaseeq (a b : Text) (n : Nat) : Bool := strcaseeq (a.take n) (b.take n)

/-- The name of a field is at `csp`. -/
def atField (csp field : Text) : Bool :=
  strncaseeq csp field field.length &&
    ((csp.drop field.length).head? == some ':' || (csp.drop field.length).head? == some ' ')

/-- The value, after the colon and the blanks around it. -/
def valueAt (csp : Text) : Text :=
  let csp := csp.dropWhile (· = ' ')
  let csp := if csp.head? = some ':' then csp.tail else csp
  csp.dropWhile (· = ' ')

theorem afterChr_length {c : Char} {s t : Text} (h : afterChr c s = some t) :
    t.length < s.length := by
  induction s with
  | nil => cases h
  | cons d s ih =>
    unfold afterChr at h
    split at h
    · cases h
      simp
    · have hlt := ih h
      simp only [List.length_cons]
      omega

/-- The loop of `findField`, for a name. -/
def findField.loop (field csp : Text) : Option (Text × Text) :=
  if csp = [] then none
  else if atField csp field then some (csp, valueAt (csp.drop field.length))
  else
    match _h : afterChr '\n' csp with
    | some nsp => findField.loop field nsp
    | none => none
termination_by csp.length
decreasing_by exact afterChr_length _h

/-- `findField`: the text from the field on, and from its value on. -/
def findField (head field : Text) : Option (Text × Text) :=
  if field = [] then
    let csp := head.dropWhile fun c => c ≠ ':' ∧ c ≠ ' '
    if csp = [] then none else some (head, valueAt csp)
  else findField.loop field head

/-- What is before a place in the text. -/
def upto (head p : Text) : Text := head.take (head.length - p.length)

/-- The loop of `rmField`. Each turn removes a character at least. -/
def rmField.loop (field : Text) : Nat → Text → Nat → Text × Nat
  | 0, head, nf => (head, nf)
  | n + 1, head, nf =>
    match findField head field with
    | none => (head, nf)
    | some (fp, _) =>
      match afterChr '\n' fp with
      | some np => rmField.loop field n (upto head fp ++ np) (nf + 1)
      | none => rmField.loop field n (upto head fp) (nf + 1)

/-- `rmField`: the text that is left, and the number of fields. -/
def rmField (head field : Text) : Text × Nat := rmField.loop field (head.length + 1) head 0

/-- The loop of `removeFields`. -/
def removeFields.loop (field : Text) (wild : Bool) : Bool → Bool → Nat → Text → Text × Nat
  | _, _, nrem, [] => ([], nrem)
  | top, skip, nrem, ch :: sp =>
    let hit := top && field.isPrefixOf (ch :: sp) &&
      (wild || ((ch :: sp).drop field.length).head? == some ':' ||
        ((ch :: sp).drop field.length).head? == some ' ')
    let skip := if hit then true else if top = true ∧ ch ≠ ' ' ∧ ch ≠ '\t' then false else skip
    let rest := removeFields.loop field wild (ch == '\n') skip (if hit then nrem + 1 else nrem) sp
    (if skip then rest.1 else ch :: rest.1, rest.2)

/-- `removeFields`: the text that is left, and the number of fields. -/
def removeFields (head field : Text) (wild : Bool) : Text × Nat :=
  removeFields.loop field wild true false 0 head

/-! ## Lines -/

/-- The name of a field: neither empty, nor with a colon, a blank or a line end. -/
structure FieldName (field : Text) : Prop where
  nonempty : field ≠ []
  chars : ∀ c ∈ field, c ≠ ':' ∧ c ≠ ' ' ∧ c ≠ '\t' ∧ c ≠ '\n'

/-- A line of a header is not empty. -/
structure Line (l : Text) : Prop where
  nonempty : l ≠ []
  no_end : '\n' ∉ l

/-- A line that continues a field. -/
def isCont (l : Text) : Bool := l.head? == some ' ' || l.head? == some '\t'

theorem toLower_eq_newline {c : Char} (h : c.toLower = '\n') : c = '\n' :=
  eq_of_toLower_eq rfl h

theorem newline_not_mem_map {field : Text} (h : FieldName field) :
    '\n' ∉ field.map Char.toLower := by
  intro hmem
  obtain ⟨c, hc, hlow⟩ := List.mem_map.mp hmem
  exact (h.chars c hc).2.2.2 (toLower_eq_newline hlow)

/-- A name is compared with the characters of the line only. -/
theorem atField_line {l field rest : Text} (h : FieldName field) :
    atField (l ++ '\n' :: rest) field = atField l field := by
  unfold atField strncaseeq
  by_cases hlen : field.length < l.length
  · have hne : l.drop field.length ≠ [] := by
      rw [← List.length_pos_iff, List.length_drop]
      omega
    rw [List.take_append_of_le_length (by omega), List.drop_append_of_le_length (by omega),
      List.head?_append_of_ne_nil _ hne]
  · have hnil : l.drop field.length = [] := List.drop_eq_nil_of_le (by omega)
    rw [hnil]
    by_cases heq : field.length = l.length
    · rw [heq, List.drop_left]
      simp
    · have hmem : '\n' ∈ ((l ++ '\n' :: rest).take field.length).map Char.toLower := by
        refine List.mem_map.mpr ⟨'\n', ?_, rfl⟩
        obtain ⟨k, hk⟩ : ∃ k, field.length = l.length + (k + 1) :=
          ⟨field.length - l.length - 1, by omega⟩
        rw [hk, List.take_length_add_append, List.take_succ_cons]
        simp
      have hno : strcaseeq ((l ++ '\n' :: rest).take field.length) (field.take field.length) =
          false := by
        unfold strcaseeq
        rw [List.take_length, beq_eq_false_iff_ne]
        intro hcase
        rw [hcase] at hmem
        exact newline_not_mem_map h hmem
      rw [hno]
      simp

theorem atField_nil {field : Text} (h : FieldName field) : atField [] field = false := by
  obtain ⟨c, f, rfl⟩ := List.exists_cons_of_ne_nil h.nonempty
  rfl

/-- A line that continues a field is of no name. -/
theorem atField_cont {l field : Text} (h : FieldName field) (hl : isCont l = true) :
    atField l field = false := by
  obtain ⟨c, f, rfl⟩ := List.exists_cons_of_ne_nil h.nonempty
  obtain ⟨-, hsp, htab, -⟩ := h.chars c List.mem_cons_self
  cases l with
  | nil => cases hl
  | cons d l =>
    have hd : d = ' ' ∨ d = '\t' := by simpa [isCont] using hl
    have hne : d.toLower ≠ c.toLower := by
      rcases hd with rfl | rfl
      · exact fun heq => hsp (eq_of_toLower_eq rfl heq.symm)
      · exact fun heq => htab (eq_of_toLower_eq rfl heq.symm)
    have hno : strncaseeq (d :: l) (c :: f) (c :: f).length = false := by
      unfold strncaseeq strcaseeq
      rw [List.length_cons, List.take_succ_cons, List.take_succ_cons, List.map_cons, List.map_cons,
        beq_eq_false_iff_ne]
      exact fun heq => hne (List.cons.inj heq).1
    unfold atField
    rw [hno, Bool.false_and]

/-- A line is a field of the name, or the search goes on after it. -/
theorem loop_line {l field : Text} (rest : Text) (h : FieldName field) (hl : '\n' ∉ l) :
    findField.loop field (l ++ '\n' :: rest) =
      if atField l field then
        some (l ++ '\n' :: rest, valueAt ((l ++ '\n' :: rest).drop field.length))
      else findField.loop field rest := by
  rw [findField.loop, if_neg (by simp), atField_line h]
  split
  · rfl
  · split
    · rename_i nsp hafter
      rw [afterChr_append hl, Option.some.injEq] at hafter
      rw [hafter]
    · rename_i hafter
      rw [afterChr_append hl] at hafter
      cases hafter

theorem findField_eq {field : Text} (h : FieldName field) (head : Text) :
    findField head field = findField.loop field head := by
  unfold findField
  rw [if_neg h.nonempty]

/-- No line of the name is found. -/
theorem loop_none {field : Text} {ls : List Text} (rest : Text) (h : FieldName field)
    (hls : ∀ l ∈ ls, '\n' ∉ l) (hno : ∀ l ∈ ls, atField l field = false) :
    findField.loop field (flat '\n' ls ++ rest) = findField.loop field rest := by
  induction ls with
  | nil => rfl
  | cons l ls ih =>
    rw [flat_cons, List.append_assoc, List.cons_append, loop_line _ h (hls l List.mem_cons_self),
      if_neg (by simp [hno l List.mem_cons_self]),
      ih (fun l hl => hls l (List.mem_cons_of_mem _ hl)) fun l hl =>
        hno l (List.mem_cons_of_mem _ hl)]

/-- The first line of the name is found. -/
theorem loop_first {field l : Text} {a : List Text} (rest : Text) (h : FieldName field)
    (ha : ∀ l ∈ a, '\n' ∉ l) (hno : ∀ l ∈ a, atField l field = false) (hl : '\n' ∉ l)
    (hat : atField l field = true) :
    findField.loop field (flat '\n' a ++ (l ++ '\n' :: rest)) =
      some (l ++ '\n' :: rest, valueAt ((l ++ '\n' :: rest).drop field.length)) := by
  rw [loop_none _ h ha hno, loop_line _ h hl, if_pos hat]

/-- All elements fail, or there is a first one that does not. -/
theorem first_split {α : Type} (p : α → Bool) (ls : List α) :
    (∀ l ∈ ls, p l = false) ∨
      ∃ a l b, ls = a ++ l :: b ∧ (∀ x ∈ a, p x = false) ∧ p l = true := by
  induction ls with
  | nil => exact .inl (by simp)
  | cons x ls ih =>
    cases hx : p x with
    | true => exact .inr ⟨[], x, ls, rfl, by simp, hx⟩
    | false =>
      rcases ih with hall | ⟨a, l, b, hls, ha, hl⟩
      · exact .inl (List.forall_mem_cons.mpr ⟨hx, hall⟩)
      · exact .inr ⟨x :: a, l, b, by rw [hls]; rfl, List.forall_mem_cons.mpr ⟨hx, ha⟩, hl⟩

theorem upto_append (a b : Text) : upto (a ++ b) b = a := by
  unfold upto
  rw [List.length_append, Nat.add_sub_cancel, List.take_left]

/-- `rmField` removes the lines of the name, and nothing else. -/
theorem rmField_flat {field : Text} {ls : List Text} (h : FieldName field)
    (hls : ∀ l ∈ ls, '\n' ∉ l) :
    rmField (flat '\n' ls) field =
      (flat '\n' (ls.filter fun l => !atField l field), ls.countP (atField · field)) := by
  have hloop : ∀ (n : Nat) (ls : List Text) (nf : Nat), (∀ l ∈ ls, '\n' ∉ l) → ls.length < n →
      rmField.loop field n (flat '\n' ls) nf =
        (flat '\n' (ls.filter fun l => !atField l field), nf + ls.countP (atField · field)) := by
    intro n
    induction n with
    | zero => exact fun ls nf _ hn => absurd hn (Nat.not_lt_zero _)
    | succ n ih =>
      intro ls nf hls hn
      unfold rmField.loop
      rw [findField_eq h]
      rcases first_split (atField · field) ls with hno | ⟨a, l, b, rfl, ha, hl⟩
      · have hnone := loop_none [] h hls hno
        have hend : findField.loop field [] = none := by rw [findField.loop, if_pos rfl]
        rw [List.append_nil, hend] at hnone
        have hkeep : (ls.filter fun l => !atField l field) = ls := by
          rw [List.filter_eq_self]
          intro l hl
          rw [hno l hl]
          rfl
        have hcount : ls.countP (atField · field) = 0 := by
          rw [List.countP_eq_zero]
          intro l hl
          rw [hno l hl]
          simp
        rw [hnone, hkeep, hcount]
        rfl
      · have hla : ∀ l ∈ a, '\n' ∉ l := fun x hx => hls x (List.mem_append_left _ hx)
        have hlb : ∀ l ∈ b, '\n' ∉ l := fun x hx =>
          hls x (List.mem_append_right _ (List.mem_cons_of_mem _ hx))
        have hll : '\n' ∉ l := hls l (List.mem_append_right _ List.mem_cons_self)
        have hkeep : (a.filter fun l => !atField l field) = a := by
          rw [List.filter_eq_self]
          intro x hx
          rw [ha x hx]
          rfl
        have hcount : a.countP (atField · field) = 0 := by
          rw [List.countP_eq_zero]
          intro x hx
          rw [ha x hx]
          simp
        have hlen : (a ++ b).length < n := by
          simp only [List.length_append, List.length_cons] at hn ⊢
          omega
        rw [flat_append, flat_cons, loop_first _ h hla ha hll hl]
        dsimp only
        rw [afterChr_append hll]
        dsimp only
        rw [upto_append, ← flat_append, ih (a ++ b) (nf + 1)
          (List.forall_mem_append.mpr ⟨hla, hlb⟩) hlen]
        rw [List.filter_append, List.filter_append, List.filter_cons_of_neg (by simp [hl]),
          List.countP_append, List.countP_append, List.countP_cons_of_pos (p := (atField · field)) hl,
          hcount, hkeep]
        congr 1
        omega
  have hlen : ls.length ≤ (flat '\n' ls).length := by
    clear hls hloop
    induction ls with
    | nil => simp
    | cons l ls ih =>
      rw [flat_cons, List.length_append, List.length_cons, List.length_cons]
      omega
  unfold rmField
  rw [hloop _ ls 0 hls (by omega), Nat.zero_add]

end delegate.rfc822
