-- Entities of HTML (rary/html.cpp): the encoder finds a character in an index by
-- byte that is filled on its first use, the decoder compares the source with each
-- entity.
import Delegate.CText
import Delegate.Reads

open ctext reads

namespace delegate.html

/-! ## The pure model -/

def NUL : Char := '\x00'

def ESC : Char := '\x1b'

/-- `entities`, without the one that ends the table. -/
def entities : List (Text × Char) :=
  [(['&', 'l', 't', ';'], '<'), (['&', 'g', 't', ';'], '>'), (['&', 'a', 'm', 'p', ';'], '&'),
    (['&', 'q', 'u', 'o', 't', ';'], '"'), (['&', '#', '3', '9', ';'], '\x27')]

/-- The state after an ESC, from the character that follows it. -/
def in2byteAfter (in2byte : Bool) (next : Char) : Bool :=
  if next = '$' then true else if next = '(' then false else in2byte

/-- `strncmp(sp,ee,strlen(ee)) == 0`, which reads up to the first difference. -/
def strncmpAt (mem : Nat → Char) : Nat → Text → Scan Bool
  | _, [] => pure true
  | sp, c :: ee => do
    let ch ← peek mem sp
    if ch = c then strncmpAt mem (sp + 1) ee else pure false

/-- The loop over the entities. -/
def findEntity (mem : Nat → Char) (sp : Nat) : List (Text × Char) → Scan (Option (Text × Char))
  | [] => pure none
  | e :: es => do
    if ← strncmpAt mem sp e.1 then pure (some e) else findEntity mem sp es

/-- The loop of `decodeEntitiesX`, with room for so many characters. Each turn writes one. -/
def decodeEntitiesX.loop (mem : Nat → Char) (anywhere : Bool) : Nat → Nat → Bool → Scan Text
  | 0, sp, _ => do
    let _ ← peek mem sp
    pure []
  | room + 1, sp, in2byte => do
    let ch ← peek mem sp
    if ch = NUL then pure []
    else if ch = ESC then do
      let next ← peek mem (sp + 1)
      let rest ← decodeEntitiesX.loop mem anywhere room (sp + 1) (in2byteAfter in2byte next)
      pure (ch :: rest)
    else if (anywhere || in2byte) && ch == '&' then do
      match ← findEntity mem sp entities with
      | some e => do
        let rest ← decodeEntitiesX.loop mem anywhere room (sp + e.1.length) in2byte
        pure (e.2 :: rest)
      | none => do
        let rest ← decodeEntitiesX.loop mem anywhere room (sp + 1) in2byte
        pure (ch :: rest)
    else do
      let rest ← decodeEntitiesX.loop mem anywhere room (sp + 1) in2byte
      pure (ch :: rest)

/-- `decodeEntitiesX` on the text at 0. -/
def decodeEntitiesX (mem : Nat → Char) (siz : Nat) (anywhere : Bool) : Scan Text :=
  decodeEntitiesX.loop mem anywhere (siz - 1) 0 false

/-- The loop that fills `entx`. -/
def entx.fill : Nat → List (Text × Char) → (Nat → Int) → Nat → Int
  | _, [], entx => entx
  | ei, e :: es, entx => entx.fill (ei + 1) es (Function.update entx (e.2.toNat % 256) ei)

/-- `entx`: the index of the entity for a byte, or -1. -/
def entx : Nat → Int := entx.fill 0 entities fun _ => -1

/-- The entity that is found in `entx`. -/
def entityOf (sc : Char) : Option Text :=
  let ei := entx (sc.toNat % 256)
  if 0 ≤ ei ∧ ei < 5 then entities[ei.toNat]?.map Prod.fst else none

/-- The length of a reference by number after its `&`, or 0. -/
def formRef (sp : Text) : Nat :=
  match sp with
  | '#' :: ep =>
    let digits := ep.takeWhile Char.isDigit
    if digits ≠ [] ∧ (ep.drop digits.length).head? = some ';' then digits.length + 2 else 0
  | _ => 0

/-- The loop of `encodeEntitiesXX`: the text and the number of entities. The room is tested between
characters only. `copy` characters more belong to a reference that is copied. -/
def encodeEntitiesXX.loop (form : Bool) : Bool → Nat → Nat → Text → Text × Nat
  | _, _, _, [] => ([], 0)
  | in2byte, copy + 1, room, sc :: sp =>
    let r := encodeEntitiesXX.loop form in2byte copy (room - 1) sp
    (sc :: r.1, r.2)
  | _, 0, 0, _ :: _ => ([], 0)
  | in2byte, 0, room + 1, sc :: sp =>
    if !in2byte && form && sc == '&' && 0 < formRef sp then
      let r := encodeEntitiesXX.loop form in2byte (formRef sp) room sp
      (sc :: r.1, r.2)
    else if sc = ESC then
      let r := encodeEntitiesXX.loop form (in2byteAfter in2byte (sp.headD NUL)) 0 room sp
      (sc :: r.1, r.2)
    else
      match if in2byte then none else entityOf sc with
      | some ee =>
        let r := encodeEntitiesXX.loop form in2byte 0 (room + 1 - ee.length) sp
        (ee ++ r.1, r.2 + 1)
      | none =>
        let r := encodeEntitiesXX.loop form in2byte 0 room sp
        (sc :: r.1, r.2)

def encodeEntitiesXX (src : Text) (siz : Nat) (form : Bool) : Text × Nat :=
  encodeEntitiesXX.loop form false 0 (siz - 1) src

def encodeEntitiesX (src : Text) (siz : Nat) : Text × Nat := encodeEntitiesXX src siz false

/-! ## What decoding means -/

/-- A scan from left to right, which replaces each entity that it is at. -/
inductive Decodes : Text → Text → Prop
  | nil : Decodes [] []
  | entity {e : Text × Char} {t u : Text} : e ∈ entities → Decodes t u →
      Decodes (e.1 ++ t) (e.2 :: u)
  | char {c : Char} {t u : Text} : (∀ e ∈ entities, ¬e.1 <+: c :: t) → Decodes t u →
      Decodes (c :: t) (c :: u)

/-- No entity is the begin of another. -/
theorem entities_apart : ∀ e ∈ entities, ∀ e' ∈ entities, e.1 <+: e'.1 → e = e' := by
  decide

theorem entity_ne_nil : ∀ e ∈ entities, e.1 ≠ [] := by
  decide

theorem entity_unique {e e' : Text × Char} {s : Text} (he : e ∈ entities) (he' : e' ∈ entities)
    (h : e.1 <+: s) (h' : e'.1 <+: s) : e = e' := by
  rcases List.prefix_or_prefix_of_prefix h h' with hpre | hpre
  · exact entities_apart e he e' he' hpre
  · exact (entities_apart e' he' e he hpre).symm

theorem Decodes.entity_inv {e : Text × Char} {t u : Text} (he : e ∈ entities)
    (h : Decodes (e.1 ++ t) u) : ∃ u', u = e.2 :: u' ∧ Decodes t u' := by
  generalize hs : e.1 ++ t = s at h
  cases h with
  | nil => exact absurd (List.append_eq_nil_iff.mp hs).1 (entity_ne_nil e he)
  | @entity e' t' u' he' hu' =>
    have hpre : e.1 <+: e'.1 ++ t' := by
      rw [← hs]
      exact List.prefix_append _ _
    obtain rfl := entity_unique he he' hpre (List.prefix_append _ _)
    rw [List.append_cancel_left hs]
    exact ⟨u', rfl, hu'⟩
  | char hno _ =>
    refine absurd ?_ (hno e he)
    rw [← hs]
    exact List.prefix_append _ _

theorem Decodes.char_inv {c : Char} {t u : Text} (hno : ∀ e ∈ entities, ¬e.1 <+: c :: t)
    (h : Decodes (c :: t) u) : ∃ u', u = c :: u' ∧ Decodes t u' := by
  generalize hs : c :: t = s at h
  cases h with
  | nil => cases hs
  | @entity e' t' u' he' hu' =>
    refine absurd ?_ (hno e' he')
    rw [hs]
    exact List.prefix_append _ _
  | @char d t' u' _ hu' =>
    obtain ⟨rfl, rfl⟩ := List.cons.inj hs
    exact ⟨u', rfl, hu'⟩

/-- The scan has one result. -/
theorem Decodes.unique {s u v : Text} (hu : Decodes s u) (hv : Decodes s v) : u = v := by
  induction hu generalizing v with
  | nil =>
    generalize hs : ([] : Text) = s at hv
    cases hv with
    | nil => rfl
    | @entity e t v he hv =>
      exact absurd (List.append_eq_nil_iff.mp hs.symm).1 (entity_ne_nil e he)
    | char => cases hs
  | entity he _ ih =>
    obtain ⟨w, rfl, hw⟩ := hv.entity_inv he
    rw [ih hw]
  | char hno _ ih =>
    obtain ⟨w, rfl, hw⟩ := hv.char_inv hno
    rw [ih hw]

/-! ## The decoder -/

variable {mem : Nat → Char}

/-- Comparing with a text without NUL reads up to the end of the source at most. -/
theorem strncmpAt_spec {s ee : Text} {sp : Nat} (hmem : At mem sp (s ++ [NUL])) (hee : NUL ∉ ee) :
    (strncmpAt mem sp ee).val = ee.isPrefixOf s ∧
      Inside (sp + s.length + 1) (strncmpAt mem sp ee) := by
  induction ee generalizing s sp with
  | nil => exact ⟨by cases s <;> rfl, inside_pure _⟩
  | cons c ee ih =>
    obtain ⟨hc, hee⟩ := List.ne_and_not_mem_of_not_mem_cons hee
    unfold strncmpAt
    rw [val_bind, inside_bind, inside_peek, val_peek]
    cases s with
    | nil =>
      obtain ⟨hnul, -⟩ := at_cons.mp hmem
      rw [hnul, if_neg hc]
      exact ⟨rfl, by simp, inside_pure _⟩
    | cons d s =>
      obtain ⟨hd, hrest⟩ := at_cons.mp hmem
      rw [hd]
      by_cases heq : d = c
      · obtain ⟨hval, hin⟩ := ih hrest hee
        rw [if_pos heq, hval, heq]
        refine ⟨by simp, by simp, ?_⟩
        rw [List.length_cons, Nat.add_comm s.length, ← Nat.add_assoc]
        exact hin
      · rw [if_neg heq]
        exact ⟨by rw [List.isPrefixOf_cons_cons, beq_eq_false_iff_ne.mpr (Ne.symm heq), Bool.false_and]; rfl,
          by simp, inside_pure _⟩

theorem findEntity_spec {s : Text} {sp : Nat} {es : List (Text × Char)}
    (hmem : At mem sp (s ++ [NUL])) (hes : ∀ e ∈ es, NUL ∉ e.1) :
    (findEntity mem sp es).val = es.find? (fun e => e.1.isPrefixOf s) ∧
      Inside (sp + s.length + 1) (findEntity mem sp es) := by
  induction es with
  | nil => exact ⟨rfl, inside_pure _⟩
  | cons e es ih =>
    obtain ⟨he, hes⟩ := List.forall_mem_cons.mp hes
    obtain ⟨hval, hin⟩ := strncmpAt_spec hmem he
    unfold findEntity
    rw [val_bind, inside_bind, hval, List.find?_cons]
    cases hpre : e.1.isPrefixOf s with
    | true => exact ⟨rfl, hin, inside_pure _⟩
    | false => exact ⟨(ih hes).1, hin, (ih hes).2⟩

theorem entities_no_nul : ∀ e ∈ entities, NUL ∉ e.1 := by
  decide

theorem entities_amp : ∀ e ∈ entities, e.1.head? = some '&' := by
  decide

/-- Where no `&` is, no entity is. -/
theorem not_entity {c : Char} {t : Text} (h : c ≠ '&') : ∀ e ∈ entities, ¬e.1 <+: c :: t := by
  intro e he hpre
  obtain ⟨d, ee, hee⟩ := List.exists_cons_of_ne_nil (entity_ne_nil e he)
  have hamp := entities_amp e he
  rw [hee, List.cons_prefix_cons] at hpre
  rw [hee, hpre.1] at hamp
  exact h (Option.some.inj hamp)

/-- The loop gives what the scan gives, as far as there is room, and reads no further than the end
of the source. -/
theorem decode_loop {s : Text} {sp room : Nat} {anywhere in2byte : Bool}
    (hmem : At mem sp (s ++ [NUL])) (hs : NUL ∉ s) :
    Inside (sp + s.length + 1) (decodeEntitiesX.loop mem anywhere room sp in2byte) ∧
      (anywhere = true → ∀ u, Decodes s u →
        (decodeEntitiesX.loop mem anywhere room sp in2byte).val = u.take room) := by
  induction room generalizing s sp in2byte with
  | zero => exact ⟨by simp [decodeEntitiesX.loop], fun _ u _ => rfl⟩
  | succ room ih =>
    have hsp : sp < sp + s.length + 1 := by omega
    unfold decodeEntitiesX.loop
    rw [val_bind, inside_bind, inside_peek, val_peek]
    cases s with
    | nil =>
      obtain ⟨hnul, -⟩ := at_cons.mp hmem
      rw [if_pos hnul]
      refine ⟨⟨hsp, inside_pure _⟩, fun _ u hu => ?_⟩
      rw [hu.unique .nil]
      rfl
    | cons c t =>
      obtain ⟨hc, hrest⟩ := at_cons.mp hmem
      obtain ⟨hcn, ht⟩ := List.ne_and_not_mem_of_not_mem_cons hs
      have hend : sp + 1 + t.length + 1 = sp + (c :: t).length + 1 := by
        rw [List.length_cons]
        omega
      -- A character that is copied.
      have hcopy : ∀ in2, Inside (sp + (c :: t).length + 1) (do
            let rest ← decodeEntitiesX.loop mem anywhere room (sp + 1) in2
            pure (c :: rest)) ∧
          (anywhere = true → (∀ e ∈ entities, ¬e.1 <+: c :: t) → ∀ u, Decodes (c :: t) u →
            (do
              let rest ← decodeEntitiesX.loop mem anywhere room (sp + 1) in2
              pure (c :: rest) : Scan Text).val = u.take (room + 1)) := by
        intro in2
        obtain ⟨hin, hval⟩ := @ih t (sp + 1) in2 hrest ht
        rw [hend] at hin
        refine ⟨by rw [inside_bind]; exact ⟨hin, inside_pure _⟩, fun hany hno u hu => ?_⟩
        obtain ⟨w, rfl, hw⟩ := hu.char_inv hno
        rw [val_bind, hval hany w hw]
        rfl
      rw [hc, if_neg (Ne.symm hcn)]
      by_cases hesc : c = ESC
      · have hno := @not_entity c t (by rw [hesc]; decide)
        rw [if_pos hesc, val_bind, inside_bind, inside_peek]
        refine ⟨⟨hsp, by rw [← hend]; omega, (hcopy _).1⟩, fun hany => (hcopy _).2 hany hno⟩
      · rw [if_neg hesc]
        split
        · have hmem' : At mem sp ((c :: t) ++ [NUL]) := hmem
          obtain ⟨hfind, hin⟩ := findEntity_spec hmem' entities_no_nul
          rw [val_bind, inside_bind, hfind]
          cases hent : entities.find? fun e => e.1.isPrefixOf (c :: t) with
          | none =>
            have hno : ∀ e ∈ entities, ¬e.1 <+: c :: t := by
              intro e he hpre
              exact (List.find?_eq_none.mp hent e he) (List.isPrefixOf_iff_prefix.mpr hpre)
            exact ⟨⟨hsp, hin, (hcopy _).1⟩, fun hany => (hcopy _).2 hany hno⟩
          | some e =>
            have he := List.mem_of_find?_eq_some hent
            have hpre := List.find?_some (p := fun e : Text × Char => e.1.isPrefixOf (c :: t)) hent
            obtain ⟨t', ht'⟩ := List.isPrefixOf_iff_prefix.mp hpre
            rw [← ht', List.append_assoc] at hmem'
            have hs' : NUL ∉ t' := by
              rw [← ht'] at hs
              exact fun hmem => hs (List.mem_append_right _ hmem)
            obtain ⟨hin', hval⟩ := @ih t' (sp + e.1.length) in2byte (at_append.mp hmem').2 hs'
            have hlen : sp + e.1.length + t'.length + 1 = sp + (c :: t).length + 1 := by
              rw [← ht', List.length_append]
              omega
            rw [hlen] at hin'
            refine ⟨⟨hsp, hin, by rw [inside_bind]; exact ⟨hin', inside_pure _⟩⟩,
              fun hany u hu => ?_⟩
            rw [← ht'] at hu
            obtain ⟨w, rfl, hw⟩ := hu.entity_inv he
            dsimp only
            rw [val_bind, hval hany w hw]
            rfl
        · rename_i hamp
          refine ⟨⟨hsp, (hcopy _).1⟩, fun hany => (hcopy _).2 hany (not_entity ?_)⟩
          simpa [hany] using hamp

theorem decodeEntitiesX_inside {s : Text} (siz : Nat) (anywhere : Bool) (hmem : At mem 0 (s ++ [NUL]))
    (hs : NUL ∉ s) : Inside (s.length + 1) (decodeEntitiesX mem siz anywhere) := by
  have hin := (@decode_loop mem s 0 (siz - 1) anywhere false hmem hs).1
  rw [Nat.zero_add] at hin
  exact hin

theorem decodeEntitiesX_val {s u : Text} (siz : Nat) (hmem : At mem 0 (s ++ [NUL])) (hs : NUL ∉ s)
    (hu : Decodes s u) : (decodeEntitiesX mem siz true).val = u.take (siz - 1) :=
  (decode_loop hmem hs).2 rfl u hu

/-! ## The encoder -/

/-- A byte is found in the index exactly if an entity is for it. -/
theorem entityOf_eq {c : Char} (hc : c.toNat < 256) :
    entityOf c = (entities.find? fun e => e.2 == c).map Prod.fst := by
  have hall : ∀ e ∈ entities, entityOf e.2 = (entities.find? fun e' => e'.2 == e.2).map Prod.fst := by
    simp only [entities, List.forall_mem_cons]
    exact ⟨rfl, rfl, rfl, rfl, rfl, by simp⟩
  by_cases hspec : c ∈ entities.map Prod.snd
  · obtain ⟨e, he, rfl⟩ := List.mem_map.mp hspec
    exact hall e he
  · have hnone : (entities.find? fun e => e.2 == c) = none := by
      rw [List.find?_eq_none]
      intro e he heq
      exact hspec (List.mem_map.mpr ⟨e, he, by simpa using heq⟩)
    have hne : ∀ e ∈ entities, c.toNat ≠ e.2.toNat % 256 := by
      intro e he heq
      have hsmall : ∀ e ∈ entities, e.2.toNat % 256 = e.2.toNat := by decide
      rw [hsmall e he] at heq
      exact hspec (List.mem_map.mpr ⟨e, he, (Char.toNat_inj.mp heq).symm⟩)
    have hfill : ∀ (es : List (Text × Char)) (ei : Nat) (entx₀ : Nat → Int),
        (∀ e ∈ es, c.toNat ≠ e.2.toNat % 256) → entx.fill ei es entx₀ c.toNat = entx₀ c.toNat := by
      intro es
      induction es with
      | nil => exact fun _ _ _ => rfl
      | cons e es ih =>
        intro ei entx₀ hes
        obtain ⟨he, hes⟩ := List.forall_mem_cons.mp hes
        rw [entx.fill, ih _ _ hes, Function.update_of_ne he]
    have hentx : entx (c.toNat % 256) = -1 := by
      rw [Nat.mod_eq_of_lt hc]
      exact hfill entities 0 _ hne
    unfold entityOf
    dsimp only
    rw [hentx, hnone]
    rfl

/-- What the encoder writes for a character. -/
def escape (c : Char) : Text := (entityOf c).getD [c]

/-- An entity, or the character as it is. -/
theorem escape_cases {c : Char} (hc : c.toNat < 256) :
    (∃ e ∈ entities, e.2 = c ∧ escape c = e.1) ∨ (∀ e ∈ entities, e.2 ≠ c) ∧ escape c = [c] := by
  unfold escape
  rw [entityOf_eq hc]
  cases hfind : entities.find? fun e => e.2 == c with
  | some e =>
    have heq := List.find?_some (p := fun e : Text × Char => e.2 == c) hfind
    exact .inl ⟨e, List.mem_of_find?_eq_some hfind, by simpa using heq, rfl⟩
  | none =>
    refine .inr ⟨fun e he heq => ?_, rfl⟩
    exact List.find?_eq_none.mp hfind e he (by simpa using heq)

theorem entities_length : ∀ e ∈ entities, 1 ≤ e.1.length ∧ e.1.length ≤ 6 := by
  decide

theorem escape_length {c : Char} (hc : c.toNat < 256) :
    1 ≤ (escape c).length ∧ (escape c).length ≤ 6 := by
  rcases escape_cases hc with ⟨e, he, -, hesc⟩ | ⟨-, hesc⟩
  · rw [hesc]
    exact entities_length e he
  · rw [hesc]
    simp

/-- Without references by number, the loop writes the characters one by one as long as there is
room. -/
theorem encode_loop {s : Text} (hs : ∀ c ∈ s, c ≠ ESC ∧ c.toNat < 256) (room : Nat) :
    ∃ t, t <+: s ∧ (encodeEntitiesXX.loop false false 0 room s).1 = t.flatMap escape ∧
      ((s.flatMap escape).length ≤ room → t = s) := by
  induction s generalizing room with
  | nil => exact ⟨[], List.prefix_rfl, rfl, fun _ => rfl⟩
  | cons c s ih =>
    obtain ⟨⟨hesc, hbyte⟩, hs⟩ := List.forall_mem_cons.mp hs
    have hpos := (escape_length hbyte).1
    cases room with
    | zero =>
      refine ⟨[], List.nil_prefix, rfl, fun hlen => ?_⟩
      rw [List.flatMap_cons, List.length_append] at hlen
      omega
    | succ room =>
      obtain ⟨t, ht, hval, hall⟩ := ih hs (room + 1 - (escape c).length)
      refine ⟨c :: t, List.cons_prefix_cons.mpr ⟨rfl, ht⟩, ?_, fun hlen => ?_⟩
      · rw [List.flatMap_cons, ← hval, encodeEntitiesXX.loop]
        simp only [Bool.and_false, Bool.false_and, Bool.false_eq_true, if_false, hesc]
        unfold escape
        cases entityOf c <;> rfl
      · rw [List.flatMap_cons, List.length_append] at hlen
        rw [hall (by omega)]

theorem length_flatMap_escape {s : Text} (hs : ∀ c ∈ s, c.toNat < 256) :
    (s.flatMap escape).length ≤ 6 * s.length := by
  induction s with
  | nil => exact Nat.le_refl _
  | cons c s ih =>
    obtain ⟨hc, hs⟩ := List.forall_mem_cons.mp hs
    have hlen := (escape_length hc).2
    have hrest := ih hs
    rw [List.flatMap_cons, List.length_append, List.length_cons]
    omega

/-- The text that was encoded is what its entities are for. -/
theorem decodes_escape {s : Text} (hs : ∀ c ∈ s, c.toNat < 256) : Decodes (s.flatMap escape) s := by
  induction s with
  | nil => exact .nil
  | cons c s ih =>
    obtain ⟨hc, hs⟩ := List.forall_mem_cons.mp hs
    rw [List.flatMap_cons]
    rcases escape_cases hc with ⟨e, he, heq, hesc⟩ | ⟨hno, hesc⟩
    · rw [hesc, ← heq]
      exact .entity he (ih hs)
    · have hamp : c ≠ '&' := fun h => hno (['&', 'a', 'm', 'p', ';'], '&') (by decide) h.symm
      rw [hesc]
      exact .char (not_entity hamp) (ih hs)

/-- The characters that have no place in the text of an element or of an attribute. -/
def markup : List Char := ['<', '>', '"', '\x27']

theorem markup_not_mem_escape {c d : Char} (hc : c.toNat < 256) (hd : d ∈ markup) :
    d ∉ escape c := by
  rcases escape_cases hc with ⟨e, he, -, hesc⟩ | ⟨hno, hesc⟩
  · have hnone : ∀ d ∈ markup, ∀ e ∈ entities, d ∉ e.1 := by simp [markup, entities]
    rw [hesc]
    exact hnone d hd e he
  · have hent : ∀ d ∈ markup, ∃ e ∈ entities, e.2 = d := by simp [markup, entities]
    obtain ⟨e, he, heq⟩ := hent d hd
    rw [hesc, List.mem_singleton]
    intro hdc
    exact hno e he (heq.trans hdc)

/-! ## Both ways -/

/-- What is encoded is decoded to what it was, and has no markup even where it is cut. The decoder
reads nothing behind its source, and writes what the scan gives, as far as there is room. -/
theorem entities_round_trip {s t : Text} {mem mem' : Nat → Char} {siz dsiz : Nat}
    (hs : ∀ c ∈ s, c ≠ NUL ∧ c ≠ ESC ∧ c.toNat < 256) (ht : NUL ∉ t)
    (hmem : At mem 0 ((encodeEntitiesX s siz).1 ++ [NUL])) (hmem' : At mem' 0 (t ++ [NUL])) :
    (6 * s.length < siz → s.length < dsiz → (decodeEntitiesX mem dsiz true).val = s) ∧
      (∀ d ∈ markup, d ∉ (encodeEntitiesX s siz).1) ∧
      (∀ anywhere, Inside (t.length + 1) (decodeEntitiesX mem' dsiz anywhere)) ∧
      ∀ u, Decodes t u → (decodeEntitiesX mem' dsiz true).val = u.take (dsiz - 1) := by
  have hesc : ∀ c ∈ s, c ≠ ESC ∧ c.toNat < 256 := fun c hc => (hs c hc).2
  have hbyte : ∀ c ∈ s, c.toNat < 256 := fun c hc => (hs c hc).2.2
  obtain ⟨p, hp, hval, hall⟩ := encode_loop hesc (siz - 1)
  have henc : (encodeEntitiesX s siz).1 = p.flatMap escape := hval
  refine ⟨fun hsiz hdsiz => ?_, fun d hd hmem => ?_,
    fun anywhere => decodeEntitiesX_inside dsiz anywhere hmem' ht,
    fun u hu => decodeEntitiesX_val dsiz hmem' ht hu⟩
  · have hlen := length_flatMap_escape hbyte
    rw [henc, hall (by omega)] at hmem
    have hnul : NUL ∉ s.flatMap escape := by
      intro hnul
      obtain ⟨c, hc, hnc⟩ := List.mem_flatMap.mp hnul
      rcases escape_cases (hbyte c hc) with ⟨e, he, -, heq⟩ | ⟨-, heq⟩
      · rw [heq] at hnc
        exact entities_no_nul e he hnc
      · rw [heq, List.mem_singleton] at hnc
        exact (hs c hc).1 hnc.symm
    rw [decodeEntitiesX_val dsiz hmem hnul (decodes_escape hbyte), List.take_of_length_le (by omega)]
  · rw [henc] at hmem
    obtain ⟨c, hc, hdc⟩ := List.mem_flatMap.mp hmem
    exact markup_not_mem_escape (hbyte c (hp.subset hc)) hd hdc

/-- `a<b&c`, and `x&gt;y&` -/
theorem entities_round_trip_two :
    (decodeEntitiesX (poke (fun _ => NUL) 0
        ((encodeEntitiesX ['a', '<', 'b', '&', 'c'] 31).1 ++ [NUL])) 6 true).val =
        ['a', '<', 'b', '&', 'c'] ∧
      (∀ d ∈ markup, d ∉ (encodeEntitiesX ['a', '<', 'b', '&', 'c'] 31).1) ∧
      Inside 8 (decodeEntitiesX (poke (fun _ => NUL) 0
        ['x', '&', 'g', 't', ';', 'y', '&', NUL]) 6 true) ∧
      (decodeEntitiesX (poke (fun _ => NUL) 0 ['x', '&', 'g', 't', ';', 'y', '&', NUL]) 6 true).val =
        ['x', '>', 'y', '&'] := by
  obtain ⟨hback, hclean, hinside, hval⟩ := @entities_round_trip ['a', '<', 'b', '&', 'c']
    ['x', '&', 'g', 't', ';', 'y', '&'] _ _ 31 6 (by simp [NUL, ESC]) (by simp [NUL])
    (at_poke (fun _ => NUL) 0 _) (at_poke (fun _ => NUL) 0 _)
  have hy : Decodes ['y', '&'] ['y', '&'] := .char (by decide) (.char (by decide) .nil)
  have hgt : Decodes (['&', 'g', 't', ';'] ++ ['y', '&']) ['>', 'y', '&'] :=
    @Decodes.entity (['&', 'g', 't', ';'], '>') _ _ (by decide) hy
  exact ⟨hback (by decide) (by decide), hclean, hinside true,
    hval _ (Decodes.char (by decide) hgt)⟩

end delegate.html
