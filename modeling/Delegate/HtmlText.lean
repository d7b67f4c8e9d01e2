-- HTML to text (rary/html.cpp): `HTMLtoTEXT` reads ahead for an entity into a
-- buffer, which it clears at the next `&` even where it still has characters.
import Delegate.Entities

open ctext

namespace delegate.html

/-! ## The pure model -/

/-- `isHTMLentity` -/
def isHTMLentity (str : Text) : Option Char :=
  let off := if str.head? = some '&' then 0 else 1
  (entities.find? fun e => (e.1.drop off).isPrefixOf str).map Prod.snd

/-- `htStat` -/
inductive Stat
  | text
  | tagname
  | attrname
  | attrvalue
deriving DecidableEq, Repr

/-- `HTStat`, with the flags of `ht_tags`. The names and the value are as of the last end that was
set; `ap` and `vp` are what was put since. `inb` is the part of the buffer that is not read yet. -/
structure HTStat where
  inp : Text
  out : Text := []
  stat : Stat := .text
  inQuote : Option Char := none
  in2B : Bool := false
  tagname : Text := []
  attrname : Text := []
  ap : Text := []
  attrvalue : Text := []
  vp : Text := []
  tagPUT : Bool := false
  head : Bool := false
  pre : Bool := false
  blockquote : Bool := false
  style : Bool := false
  col : Nat := 0
  nnl : Nat := 0
  nsp : Nat := 0
  inb : Text := []
  toHTML : Bool := false
  withCR : Bool := false

/-- `Tgetc`: the next character, from the buffer or the input. -/
def Tgetc (Ht : HTStat) : Option Char × HTStat :=
  match Ht.inb with
  | ch :: inb => (some ch, { Ht with inb })
  | [] =>
    match Ht.inp with
    | ch :: inp => (some ch, { Ht with inp })
    | [] => (none, Ht)

def HTStat.fputs (Ht : HTStat) (str : Text) : HTStat := { Ht with out := Ht.out ++ str }

/-- The tags that are left in HTML. -/
def htmlTags : List Text :=
  ["b", "/b", "i", "/i", "p", "/p", "br", "/br", "pre", "/pre", "div", "/div", "font", "/font",
    "blockquote", "/blockquote"].map String.toList

/-- `setTags` -/
def setTags (Ht : HTStat) : HTStat :=
  let named : String → Bool := fun name => strcaseeq Ht.tagname name.toList
  let Ht :=
    if named "head" then { Ht with head := true }
    else if named "/head" then { Ht with head := false }
    else if named "body" then { Ht with pre := false, blockquote := false, style := false }
    else if named "pre" then
      if Ht.col ≠ 0 then
        { Ht.fputs ((if Ht.withCR then ['\r'] else []) ++ ['\n']) with pre := true, col := 0 }
      else { Ht with pre := true }
    else if named "/pre" then { Ht with pre := false }
    else if named "blockquote" then { Ht with blockquote := true }
    else if named "/blockquote" then { Ht with blockquote := false }
    else Ht
  let Ht :=
    if named "style" then { Ht with style := true }
    else if named "/style" then { Ht with style := false }
    else Ht
  if Ht.toHTML then
    if htmlTags.any fun name => strcaseeq Ht.tagname name then
      { Ht.fputs ('<' :: Ht.tagname) with tagPUT := true }
    else Ht
  else if named "br" then { Ht with inp := '\n' :: Ht.inp }
  else Ht

/-- `doneAttr` -/
def doneAttr (Ht : HTStat) : HTStat :=
  if Ht.toHTML && Ht.blockquote && strcaseeq Ht.attrname "type".toList &&
      strcaseeq Ht.attrvalue "cite".toList then
    Ht.fputs " TYPE=CITE".toList
  else Ht

/-- The branch for a character in a tag. -/
def inTag (ch : Char) (Ht : HTStat) : HTStat :=
  if ch = '>' then
    let Ht := match Ht.stat with
      | .tagname => setTags Ht
      | .attrname => { Ht with attrname := Ht.ap }
      | _ => doneAttr { Ht with attrvalue := Ht.vp }
    let Ht := { Ht with stat := .text }
    if Ht.tagPUT then { Ht.fputs ['>'] with tagPUT := false } else Ht
  else
    match Ht.stat with
    | .tagname =>
      if isspace ch then { setTags Ht with stat := .attrname, ap := [], inQuote := none }
      else { Ht with tagname := Ht.tagname ++ [ch] }
    | .attrname =>
      if Ht.inQuote = some ch ∧ ¬(Ht.ap = [] ∧ (ch = '"' ∨ ch = '\x27')) then
        { Ht with attrname := Ht.ap, inQuote := none }
      else
        let Ht :=
          if Ht.ap = [] ∧ (ch = '"' ∨ ch = '\x27') then { Ht with inQuote := some ch }
          else if Ht.inQuote.isSome then { Ht with ap := Ht.ap ++ [ch] }
          else Ht
        if Ht.inQuote = none then
          if isspace ch ∨ ch = '=' then
            let Ht := { Ht with attrname := Ht.ap, ap := [] }
            if isspace ch then Ht else { Ht with stat := .attrvalue, vp := [] }
          else { Ht with ap := Ht.ap ++ [ch] }
        else Ht
    | _ =>
      if Ht.vp = [] ∧ (ch = '"' ∨ ch = '\x27') then { Ht with inQuote := some ch }
      else if Ht.inQuote = some ch then
        { doneAttr { Ht with attrvalue := Ht.vp, inQuote := none } with stat := .attrname, ap := [] }
      else
        let Ht := if isspace ch then Ht else { Ht with vp := Ht.vp ++ [ch] }
        if Ht.inQuote = none ∧ isspace ch = true then
          { doneAttr { Ht with attrvalue := Ht.vp } with stat := .attrname, ap := [], inQuote := none }
        else Ht

/-- The read ahead after a `&`: up to `n` characters, or up to a `;`. -/
def prefetch : Nat → Text → Text × Text
  | 0, inp => ([], inp)
  | _ + 1, [] => ([], [])
  | n + 1, ch :: inp =>
    if ch = ';' then ([ch], inp) else (ch :: (prefetch n inp).1, (prefetch n inp).2)

/-- A character of the text is put, or left out. -/
def putText (ch : Char) (Ht : HTStat) : HTStat :=
  let blank (Ht : HTStat) : Option HTStat :=
    if ch = ' ' then
      if 1 ≤ Ht.nsp then none else some { Ht with nsp := Ht.nsp + 1 }
    else some { Ht with nsp := 0 }
  let shown : Option HTStat :=
    if Ht.toHTML then blank Ht
    else if ch = '\r' ∧ 2 ≤ Ht.nnl then none
    else if ch = '\n' ∧ 2 ≤ Ht.nnl then none
    else
      let Ht :=
        if ch = '\n' then { Ht with nnl := Ht.nnl + 1 }
        else if Ht.nnl ≠ 0 ∧ isspace ch = false then { Ht with nnl := 0 }
        else Ht
      if Ht.pre then some Ht else blank Ht
  match shown with
  | none => Ht
  | some Ht =>
    let Ht :=
      if Ht.col = 0 ∧ Ht.toHTML = false ∧ Ht.pre = true ∧ Ht.blockquote = true then
        { Ht.fputs "| ".toList with col := Ht.col + 2 }
      else Ht
    let Ht := if ch = '\r' then { Ht with withCR := true } else Ht
    { Ht.fputs [ch] with col := if ch = '\n' then 0 else Ht.col + 1 }

/-- The branch for a character outside of tags. -/
def inText (ch : Char) (Ht : HTStat) : HTStat :=
  if ch = '<' then { Ht with stat := .tagname, tagname := [] }
  else if Ht.head || Ht.style then Ht
  else if Ht.toHTML = false ∧ ch = '&' then
    let r := prefetch 8 Ht.inp
    if r.1.getLast? = some ';' then
      { Ht.fputs (isHTMLentity (ch :: r.1)).toList with inb := [], inp := r.2 }
    else putText '&' { Ht with inb := r.1, inp := r.2 }
  else putText ch Ht

/-- A turn of the loop of `HTMLtoTEXT`, with the character that was read. -/
def turn (ch : Char) (Ht : HTStat) : HTStat :=
  if Ht.in2B then
    let Ht := Ht.fputs [ch]
    if ch = ESC then
      let (ch, Ht) := Tgetc Ht
      if ch = some '(' then { Ht.fputs ['('] with in2B := false } else Ht
    else Ht
  else if ch = ESC then
    let (ch, Ht) := Tgetc (Ht.fputs [ESC])
    if ch = some '$' then { Ht.fputs ['$'] with in2B := true } else Ht
  else if Ht.stat ≠ .text then inTag ch Ht
  else inText ch Ht

/-- The loop of `HTMLtoTEXT`, with what is put at its end. The result is `none` where the turns do
not suffice. -/
def HTMLtoTEXT.loop : Nat → HTStat → Option Text
  | 0, _ => none
  | n + 1, Ht =>
    match Tgetc Ht with
    | (none, Ht) =>
      let Ht := if Ht.in2B then Ht.fputs [ESC, '(', 'B'] else Ht
      some (Ht.out ++ (if Ht.withCR then ['\r', '\n'] else ['\n']))
    | (some ch, Ht) => HTMLtoTEXT.loop n (turn ch Ht)

def HTMLtoTEXT (n : Nat) (ain : Text) (toHtml : Bool) : Option Text :=
  HTMLtoTEXT.loop n { inp := ain, toHTML := toHtml }

/-! ## Texts without tags -/

/-- The state in a text without tags. -/
structure HTStat.Plain (Ht : HTStat) : Prop where
  text : Ht.stat = .text
  in2B : Ht.in2B = false
  head : Ht.head = false
  pre : Ht.pre = false
  style : Ht.style = false
  toHTML : Ht.toHTML = false
  withCR : Ht.withCR = false
  nnl : Ht.nnl = 0

/-- A printable character other than `<`. -/
structure PlainChar (ch : Char) : Prop where
  printable : 0x20 ≤ ch.toNat ∧ ch.toNat ≤ 0x7e
  no_tag : ch ≠ '<'

/-- What a turn leaves: a plain state, what was put and what is to be read. -/
structure Turned (Ht Ht' : HTStat) (put : Text) (nsp : Nat) (inb inp : Text) : Prop where
  plain : Ht'.Plain
  out : Ht'.out = Ht.out ++ put
  nsp : Ht'.nsp = nsp
  inb : Ht'.inb = inb
  inp : Ht'.inp = inp

variable {ch : Char} {Ht Ht₁ : HTStat} {x u rest p r inb v w : Text} {nsp : Nat}

theorem PlainChar.ne (h : PlainChar ch) : ch ≠ ESC ∧ ch ≠ '\r' ∧ ch ≠ '\n' ∧ ch ≠ '<' := by
  obtain ⟨⟨hlow, -⟩, hlt⟩ := h
  refine ⟨?_, ?_, ?_, hlt⟩
  · rintro rfl
    revert hlow
    decide
  · rintro rfl
    revert hlow
    decide
  · rintro rfl
    revert hlow
    decide

theorem HTStat.Plain.shown (hp : Ht.Plain) : ¬(Ht.head || Ht.style) = true := by
  simp [hp.head, hp.style]

theorem turn_plain (hp : Ht.Plain) (hch : PlainChar ch) : turn ch Ht = inText ch Ht := by
  unfold turn
  rw [hp.in2B, if_neg (by simp), if_neg hch.ne.1, if_neg (by simp [hp.text])]

theorem putText_char (hp : Ht.Plain) (hch : PlainChar ch) (h : ch ≠ ' ') :
    Turned Ht (putText ch Ht) [ch] 0 Ht.inb Ht.inp := by
  obtain ⟨-, hcr, hnl, -⟩ := hch.ne
  obtain ⟨htext, hin2B, hhead, hpre, hstyle, hhtml, hcrs, hnnl⟩ := hp
  unfold putText
  simp only [hhtml, hcr, hnl, hnnl, hpre, h, Bool.false_eq_true, if_false, false_and, ne_eq,
    not_true_eq_false, and_false]
  exact ⟨by constructor <;> first | rfl | assumption, rfl, rfl, rfl, rfl⟩

theorem putText_blank (hp : Ht.Plain) (h : Ht.nsp = 0) :
    Turned Ht (putText ' ' Ht) [' '] 1 Ht.inb Ht.inp := by
  obtain ⟨htext, hin2B, hhead, hpre, hstyle, hhtml, hcrs, hnnl⟩ := hp
  unfold putText
  simp [hhtml, hnnl, hpre, h]
  exact ⟨by constructor <;> first | rfl | assumption, rfl, rfl, rfl, rfl⟩

theorem putText_drop (hp : Ht.Plain) (h : Ht.nsp ≠ 0) : putText ' ' Ht = Ht := by
  obtain ⟨htext, hin2B, hhead, hpre, hstyle, hhtml, hcrs, hnnl⟩ := hp
  have hle : 1 ≤ Ht.nsp := by omega
  unfold putText
  simp [hhtml, hnnl, hpre, hle]

theorem turn_char (hp : Ht.Plain) (hch : PlainChar ch) (h : ch ≠ ' ') (hamp : ch ≠ '&') :
    Turned Ht (turn ch Ht) [ch] 0 Ht.inb Ht.inp := by
  rw [turn_plain hp hch]
  unfold inText
  rw [if_neg hch.ne.2.2.2, if_neg hp.shown, if_neg (by simp [hamp])]
  exact putText_char hp hch h

theorem plainChar_blank : PlainChar ' ' := ⟨by decide, by decide⟩

theorem turn_blank (hp : Ht.Plain) : turn ' ' Ht = putText ' ' Ht := by
  rw [turn_plain hp plainChar_blank]
  unfold inText
  rw [if_neg (by decide), if_neg hp.shown, if_neg (by simp)]

/-- The read ahead ends behind a `;`, or has none, and is short only at the end of the input. -/
theorem prefetch_spec (n : Nat) (inp : Text) :
    (∃ x, (prefetch n inp).1 = x ++ [';'] ∧ ';' ∉ x ∧ x.length < n ∧
        inp = x ++ ';' :: (prefetch n inp).2) ∨
      (';' ∉ (prefetch n inp).1 ∧ ((prefetch n inp).1.length = n ∨ (prefetch n inp).2 = []) ∧
        (prefetch n inp).1.length ≤ n ∧ inp = (prefetch n inp).1 ++ (prefetch n inp).2) := by
  induction n generalizing inp with
  | zero => exact .inr ⟨by simp [prefetch], .inl rfl, Nat.le_refl _, rfl⟩
  | succ n ih =>
    cases inp with
    | nil => exact .inr ⟨by simp [prefetch], .inr rfl, Nat.zero_le _, rfl⟩
    | cons ch inp =>
      unfold prefetch
      by_cases hch : ch = ';'
      · rw [if_pos hch]
        exact .inl ⟨[], by rw [hch]; rfl, by simp, by simp, by rw [hch]; rfl⟩
      · rw [if_neg hch]
        rcases ih inp with ⟨x, hx, hno, hlen, hinp⟩ | ⟨hno, hend, hlen, hinp⟩
        · refine .inl ⟨ch :: x, by rw [hx]; rfl, ?_, by simpa using hlen, ?_⟩
          · simp [hno, Ne.symm hch]
          · rw [List.cons_append, ← hinp]
        · refine .inr ⟨by simp [hno, Ne.symm hch], ?_, by simpa using hlen, ?_⟩
          · rcases hend with hend | hend
            · exact .inl (by simp [hend])
            · exact .inr hend
          · rw [List.cons_append, ← hinp]

theorem plainChar_amp : PlainChar '&' := ⟨by decide, by decide⟩

/-- The entity is replaced, or what looks like one is left out. The buffer is clear afterwards. -/
theorem turn_entity (hp : Ht.Plain) (h : (prefetch 8 Ht.inp).1 = x ++ [';']) :
    Turned Ht (turn '&' Ht) (isHTMLentity ('&' :: (x ++ [';']))).toList Ht.nsp []
      (prefetch 8 Ht.inp).2 := by
  have hlast : (prefetch 8 Ht.inp).1.getLast? = some ';' := by
    rw [h]
    simp
  rw [turn_plain hp plainChar_amp]
  unfold inText
  rw [if_neg (by decide), if_neg hp.shown, if_pos ⟨hp.toHTML, rfl⟩]
  dsimp only
  rw [if_pos hlast, h]
  exact ⟨⟨hp.text, hp.in2B, hp.head, hp.pre, hp.style, hp.toHTML, hp.withCR, hp.nnl⟩, rfl, rfl, rfl,
    rfl⟩

/-- The `&` is put, and the buffer has what was read ahead. -/
theorem turn_amp (hp : Ht.Plain) (h : ';' ∉ (prefetch 8 Ht.inp).1) :
    Turned Ht (turn '&' Ht) ['&'] 0 (prefetch 8 Ht.inp).1 (prefetch 8 Ht.inp).2 := by
  have hlast : (prefetch 8 Ht.inp).1.getLast? ≠ some ';' :=
    fun heq => h (List.mem_of_getLast? heq)
  rw [turn_plain hp plainChar_amp]
  unfold inText
  rw [if_neg (by decide), if_neg hp.shown, if_pos ⟨hp.toHTML, rfl⟩]
  dsimp only
  rw [if_neg hlast]
  have hp' : ({ Ht with inb := (prefetch 8 Ht.inp).1, inp := (prefetch 8 Ht.inp).2 } : HTStat).Plain :=
    ⟨hp.text, hp.in2B, hp.head, hp.pre, hp.style, hp.toHTML, hp.withCR, hp.nnl⟩
  obtain ⟨hplain, hout, hnsp, hinb, hinp⟩ := putText_char hp' plainChar_amp (by decide)
  exact ⟨hplain, hout, hnsp, hinb, hinp⟩

/-! ## Where entities end -/

theorem entity_shape : ∀ e ∈ entities, ∃ x : Text, e.1 = '&' :: (x ++ [';']) ∧ '&' ∉ x ∧ ';' ∉ x ∧
    ' ' ∉ x ∧ x.length < 8 := by
  simp only [entities, List.forall_mem_cons]
  refine ⟨⟨['l', 't'], ?_⟩, ⟨['g', 't'], ?_⟩, ⟨['a', 'm', 'p'], ?_⟩, ⟨['q', 'u', 'o', 't'], ?_⟩,
    ⟨['#', '3', '9'], ?_⟩, by simp⟩ <;> simp

/-- No entity ends with what follows the `&` of another. -/
theorem entity_tails : ∀ e ∈ entities, ∀ e' ∈ entities, e.1.tail <:+ e'.1.tail → e = e' := by
  decide

/-- An entity that is at a text with a `;` ends at the first one. -/
theorem entity_ends {e : Text × Char} {y : Text} (he : e ∈ entities) (hx : ';' ∉ x)
    (h : e.1 <+: '&' :: (x ++ ';' :: y)) : e.1 = '&' :: (x ++ [';']) := by
  obtain ⟨z, hz, -, hno, -, -⟩ := entity_shape e he
  obtain ⟨w, hw⟩ := h
  rw [hz, List.cons_append, List.append_assoc, List.cons.injEq] at hw
  have hzx := (append_cons_inj hno hx hw.2).1
  rw [hz, hzx]

theorem isHTMLentity_eq (hx : ';' ∉ x) :
    isHTMLentity ('&' :: (x ++ [';'])) =
      (entities.find? fun e => e.1 == '&' :: (x ++ [';'])).map Prod.snd := by
  have hsame : ∀ e ∈ entities, (e.1.isPrefixOf ('&' :: (x ++ [';']))) =
      (e.1 == '&' :: (x ++ [';'])) := by
    intro e he
    rw [Bool.eq_iff_iff, List.isPrefixOf_iff_prefix, beq_iff_eq]
    exact ⟨entity_ends he hx, fun h => h ▸ List.prefix_rfl⟩
  unfold isHTMLentity
  simp only [List.head?_cons, if_true, List.drop_zero]
  congr 1
  exact List.find?_congr hsame

theorem Decodes.nil_inv (h : Decodes [] u) : u = [] := h.unique .nil

/-- After a `;` no entity goes on. -/
theorem Decodes.split {a : Text} (h : Decodes (a ++ ';' :: rest) u) :
    ∃ u₁ u₂, u = u₁ ++ u₂ ∧ Decodes (a ++ [';']) u₁ ∧ Decodes rest u₂ := by
  generalize hs : a ++ ';' :: rest = s at h
  induction h generalizing a with
  | nil => simp at hs
  | @entity e t u he hu ih =>
    obtain ⟨x, hx, -, hno, -, -⟩ := entity_shape e he
    cases a with
    | nil =>
      rw [hx] at hs
      simp at hs
    | cons c a =>
      rw [hx, List.cons_append, List.cons_append, List.cons.injEq, List.append_assoc,
        List.singleton_append] at hs
      obtain ⟨rfl, hs⟩ := hs
      rcases List.append_eq_append_iff.mp hs with ⟨b, hxb, hb⟩ | ⟨b, hab, hb⟩
      · cases b with
        | nil =>
          rw [List.append_nil] at hxb
          rw [List.nil_append, List.cons.injEq] at hb
          refine ⟨[e.2], u, rfl, ?_, hb.2 ▸ hu⟩
          rw [List.cons_append, ← hxb, ← hx, ← List.append_nil e.1]
          exact .entity he .nil
        | cons d b =>
          rw [List.cons_append, List.cons.injEq] at hb
          exact absurd (by rw [hxb, ← hb.1]; simp) hno
      · cases b with
        | nil =>
          rw [List.append_nil] at hab
          rw [List.nil_append, List.cons.injEq] at hb
          refine ⟨[e.2], u, rfl, ?_, hb.2 ▸ hu⟩
          rw [List.cons_append, hab, ← hx, ← List.append_nil e.1]
          exact .entity he .nil
        | cons d b =>
          rw [List.cons_append, List.cons.injEq] at hb
          obtain ⟨u₁, u₂, rfl, h₁, h₂⟩ := ih hb.2.symm
          refine ⟨e.2 :: u₁, u₂, rfl, ?_, h₂⟩
          have hsplit : '&' :: a ++ [';'] = e.1 ++ (b ++ [';']) := by
            rw [hx, hab, ← hb.1]
            simp
          rw [hsplit]
          exact .entity he h₁
  | @char c t u hno hu ih =>
    cases a with
    | nil =>
      rw [List.nil_append, List.cons.injEq] at hs
      refine ⟨[c], u, rfl, ?_, hs.2 ▸ hu⟩
      rw [List.nil_append, hs.1]
      exact .char (not_entity (by rw [← hs.1]; decide)) .nil
    | cons d a =>
      rw [List.cons_append, List.cons.injEq] at hs
      obtain ⟨rfl, hs⟩ := hs
      obtain ⟨u₁, u₂, rfl, h₁, h₂⟩ := ih hs
      refine ⟨d :: u₁, u₂, rfl, .char (fun e he hpre => ?_) h₁, h₂⟩
      refine hno e he (hpre.trans ?_)
      rw [← hs, List.cons_prefix_cons]
      exact ⟨rfl, (List.prefix_append_right_inj a).mpr ⟨rest, rfl⟩⟩

/-- Before a stretch without `;` no entity begins, where the stretch is as long as an entity or the
last of the text. -/
theorem no_entity {b t : Text} (hb : ';' ∉ b) (ht : ';' ∉ t) (hend : t.length = 8 ∨ rest = []) :
    ∀ e ∈ entities, ¬e.1 <+: b ++ (t ++ rest) := by
  intro e he hpre
  obtain ⟨x, hx, -, -, -, -⟩ := entity_shape e he
  have hlen := (entities_length e he).2
  have hshort : e.1 <+: b ++ t := by
    rcases hend with hend | hend
    · rw [← List.append_assoc] at hpre
      exact List.prefix_of_prefix_length_le hpre (List.prefix_append _ _)
        (by rw [List.length_append]; omega)
    · rw [hend, List.append_nil] at hpre
      exact hpre
  have hmem : ';' ∈ b ++ t := hshort.subset (by rw [hx]; simp)
  rcases List.mem_append.mp hmem with hmem | hmem
  · exact hb hmem
  · exact ht hmem

/-- A stretch where no entity begins is copied. -/
theorem Decodes.copied {a t : Text} (ha : ';' ∉ a) (ht : ';' ∉ t) (hend : t.length = 8 ∨ rest = [])
    (h : Decodes (a ++ (t ++ rest)) u) : ∃ u', u = a ++ u' ∧ Decodes (t ++ rest) u' := by
  induction a generalizing u with
  | nil => exact ⟨u, rfl, h⟩
  | cons c a ih =>
    obtain ⟨u', rfl, hu'⟩ := h.char_inv (no_entity ha ht hend)
    obtain ⟨w, rfl, hw⟩ := ih (fun hmem => ha (List.mem_cons_of_mem _ hmem)) hu'
    exact ⟨w, rfl, hw⟩

theorem Decodes.length_pos {s : Text} (h : Decodes s u) (hs : s ≠ []) : 1 ≤ u.length := by
  cases h with
  | nil => exact absurd rfl hs
  | entity => simp
  | char => simp

/-- One character is for one entity, or for itself. -/
theorem Decodes.one {c : Char} {s : Text} (h : Decodes (c :: s) u) (hu : u.length = 1) (hs : s ≠ [])
    :
    ∃ e ∈ entities, e.1 = c :: s := by
  generalize hr : c :: s = r at h
  cases h with
  | nil => cases hr
  | @entity e t u he h =>
    have hnil : t = [] := by
      by_contra ht
      have := h.length_pos ht
      simp only [List.length_cons] at hu
      omega
    rw [hnil, List.append_nil] at hr ⊢
    exact ⟨e, he, rfl⟩
  | @char d t u _ h =>
    obtain ⟨-, rfl⟩ := List.cons.inj hr
    have := h.length_pos hs
    simp only [List.length_cons] at hu
    omega

/-! ## Where nothing is lost -/

/-- Each `&` is the begin of an entity, or has no `;` soon after it. -/
def Ampersands (r : Text) : Prop :=
  ∀ a b, r = a ++ '&' :: b → (∃ e ∈ entities, e.1 <+: '&' :: b) ∨ ';' ∉ b.take 8

/-- No `&` follows within 7 characters a `&` that is not the begin of an entity, unless it is the last
character. -/
def Apart (r : Text) : Prop :=
  ∀ a x y, r = a ++ '&' :: (x ++ '&' :: y) → x.length ≤ 6 →
    (¬∃ e ∈ entities, e.1 <+: '&' :: (x ++ '&' :: y)) → y = []

/-- No two blanks have nothing but entities between them. -/
def NoGap (r : Text) : Prop :=
  ∀ a b (es : List (Text × Char)), (∀ e ∈ es, e ∈ entities) →
    r ≠ a ++ ' ' :: (es.flatMap Prod.fst ++ ' ' :: b)

/-- Nothing is lost from here on, with the buffer and the number of blanks before. -/
structure Calm (inb r : Text) (nsp : Nat) : Prop where
  apart : Apart r
  gaps : NoGap r
  begins : nsp ≠ 0 → ∀ (es : List (Text × Char)) b, (∀ e ∈ es, e ∈ entities) →
    r ≠ es.flatMap Prod.fst ++ ' ' :: b
  buffer : ∀ x y, inb = x ++ '&' :: y → y = []

theorem Ampersands.drop (h : Ampersands (p ++ r)) : Ampersands r :=
  fun a b hr => h (p ++ a) b (by rw [hr, List.append_assoc])

theorem Apart.drop (h : Apart (p ++ r)) : Apart r :=
  fun a x y hr => h (p ++ a) x y (by rw [hr, List.append_assoc])

theorem NoGap.drop (h : NoGap (p ++ r)) : NoGap r :=
  fun a b es hes hr => h (p ++ a) b es hes (by rw [hr, List.append_assoc])

/-- A character that is not in the first part is in the second. -/
theorem append_eq_split {c : Char} {a z : Text} (hp : c ∉ p) (h : p ++ r = a ++ c :: z) :
    ∃ a', a = p ++ a' ∧ r = a' ++ c :: z := by
  rcases List.append_eq_append_iff.mp h with ⟨b, hb, hr⟩ | ⟨b, hb, hr⟩
  · exact ⟨b, hb, hr⟩
  · cases b with
    | nil => exact ⟨[], by simpa using hb.symm, hr.symm⟩
    | cons d b =>
      rw [List.cons_append, List.cons.injEq] at hr
      exact absurd (by rw [hb, ← hr.1]; simp) hp

theorem NoGap.append (hp : ' ' ∉ p) (h : NoGap r) : NoGap (p ++ r) := by
  intro a b es hes hr
  obtain ⟨a', -, hr'⟩ := append_eq_split hp hr
  exact h a' b es hes hr'

theorem Apart.cons {c : Char} (hc : c ≠ '&') (h : Apart r) : Apart (c :: r) := by
  intro a x y hr
  obtain ⟨a', -, hr'⟩ := append_eq_split (p := [c]) (by simpa using Ne.symm hc) hr
  exact h a' x y hr'

theorem Apart.entity {e : Text × Char} (he : e ∈ entities) (h : Apart r) : Apart (e.1 ++ r) := by
  obtain ⟨z, hz, hamp, -, -, -⟩ := entity_shape e he
  intro a x y hr hlen hno
  cases a with
  | nil =>
    refine absurd ⟨e, he, ?_⟩ hno
    rw [← List.nil_append ('&' :: (x ++ '&' :: y)), ← hr]
    exact List.prefix_append _ _
  | cons c a =>
    rw [hz, List.cons_append, List.cons_append, List.cons.injEq] at hr
    obtain ⟨a', -, hr'⟩ := append_eq_split (by simp [hamp]) hr.2
    exact h a' x y hr' hlen hno

/-- The states of the buffer before and after a character is read. -/
def Reads (inb inb' : Text) (ch : Char) : Prop := inb = ch :: inb' ∨ inb = [] ∧ inb' = []

theorem Reads.buffer {inb' : Text} (h : Reads inb inb' ch)
    (hb : ∀ x y, inb = x ++ '&' :: y → y = []) : ∀ x y, inb' = x ++ '&' :: y → y = [] := by
  intro x y hxy
  rcases h with h | ⟨-, h⟩
  · exact hb (ch :: x) y (by rw [h, hxy]; rfl)
  · rw [h] at hxy
    simp at hxy

theorem Reads.buffer_cons {inb' : Text} (h : Reads inb inb' ch) (hch : ch ≠ '&')
    (hb : ∀ x y, inb' = x ++ '&' :: y → y = []) : ∀ x y, inb = x ++ '&' :: y → y = [] := by
  intro x y hxy
  rcases h with h | ⟨h, -⟩
  · rw [h] at hxy
    obtain ⟨x', -, hxy'⟩ := append_eq_split (p := [ch]) (by simpa using Ne.symm hch) hxy
    exact hb x' y hxy'
  · rw [h] at hxy
    simp at hxy

/-- Nothing is lost at a character that is neither a blank nor a `&`. -/
theorem calm_char {inb' : Text} (hb : Reads inb inb' ch) (hch : ch ≠ ' ') (hamp : ch ≠ '&') :
    Calm inb (ch :: r) nsp ↔ Calm inb' r 0 := by
  constructor
  · intro h
    exact ⟨Apart.drop (p := [ch]) h.apart, NoGap.drop (p := [ch]) h.gaps, fun h => absurd rfl h,
      hb.buffer h.buffer⟩
  · intro h
    refine ⟨h.apart.cons hamp, NoGap.append (p := [ch]) (by simpa using Ne.symm hch) h.gaps,
      fun _ es b hes hr => ?_, hb.buffer_cons hamp h.buffer⟩
    cases es with
    | nil => exact hch (List.cons.inj hr).1
    | cons e es =>
      refine not_entity hamp e (hes e List.mem_cons_self) (t := r) ?_
      rw [hr, List.flatMap_cons, List.append_assoc]
      exact List.prefix_append _ _

theorem calm_blank {inb' : Text} (hb : Reads inb inb' ' ') :
    Calm inb (' ' :: r) 0 ↔ Calm inb' r 1 := by
  constructor
  · intro h
    exact ⟨Apart.drop (p := [' ']) h.apart, NoGap.drop (p := [' ']) h.gaps,
      fun _ es b hes hr => h.gaps [] b es hes (by rw [hr]; rfl), hb.buffer h.buffer⟩
  · intro h
    refine ⟨h.apart.cons (by decide), fun a b es hes hr => ?_, fun h => absurd rfl h,
      hb.buffer_cons (by decide) h.buffer⟩
    cases a with
    | nil => exact h.begins (by decide) es b hes (List.cons.inj hr).2
    | cons d a => exact h.gaps a b es hes (List.cons.inj hr).2

/-- Nothing is lost at an entity, which is read from the input. -/
theorem calm_entity {e : Text × Char} (he : e ∈ entities) (hb : inb = ['&'] ∨ inb = []) :
    Calm inb (e.1 ++ r) nsp ↔ Calm [] r nsp := by
  obtain ⟨z, hz, -, -, hblank, -⟩ := entity_shape e he
  have hno : ' ' ∉ e.1 := by
    rw [hz]
    simp [hblank]
  constructor
  · intro h
    refine ⟨h.apart.drop, h.gaps.drop, fun hnsp es b hes hr => ?_, by simp⟩
    refine h.begins hnsp (e :: es) b (List.forall_mem_cons.mpr ⟨he, hes⟩) ?_
    rw [hr, List.flatMap_cons, List.append_assoc]
  · intro h
    refine ⟨h.apart.entity he, h.gaps.append hno, fun hnsp es b hes hr => ?_, fun x y hxy => ?_⟩
    · cases es with
      | nil =>
        obtain ⟨a', ha', -⟩ := append_eq_split (a := []) hno hr
        exact entity_ne_nil e he (List.append_eq_nil_iff.mp ha'.symm).1
      | cons e' es =>
        have hpre : e'.1 <+: e.1 ++ r := by
          rw [hr, List.flatMap_cons, List.append_assoc]
          exact List.prefix_append _ _
        obtain rfl := entity_unique he (hes e' List.mem_cons_self) (List.prefix_append _ _) hpre
        rw [List.flatMap_cons, List.append_assoc] at hr
        exact h.begins hnsp es b (List.forall_mem_cons.mp hes).2 (List.append_cancel_left hr)
    · rcases hb with rfl | rfl
      · cases x with
        | nil => exact (List.cons.inj hxy).2.symm
        | cons c x => simp at hxy
      · simp at hxy

/-- Nothing is lost at a `&` that is put, where the read ahead has no other one before its end. -/
theorem calm_amp {t : Text} (hb : inb = ['&'] ∨ inb = []) (ht : ';' ∉ t) (hlen : t.length ≤ 8)
    (hend : t.length = 8 ∨ rest = []) :
    Calm inb ('&' :: (t ++ rest)) nsp ↔ Calm t (t ++ rest) 0 := by
  have hno := no_entity (b := ['&']) (by simp) ht hend
  constructor
  · intro h
    refine ⟨Apart.drop (p := ['&']) h.apart, NoGap.drop (p := ['&']) h.gaps, fun h => absurd rfl h, ?_⟩
    intro x y hxy
    by_contra hy
    have hpos := List.length_pos_iff.mpr hy
    have htlen := congrArg List.length hxy
    rw [List.length_append, List.length_cons] at htlen
    have hsplit : '&' :: (t ++ rest) = [] ++ '&' :: (x ++ '&' :: (y ++ rest)) := by
      rw [hxy]
      simp
    have hnil := h.apart [] x (y ++ rest) hsplit (by omega) (by
      rintro ⟨e, he, hpre⟩
      refine hno e he ?_
      rw [List.singleton_append, hsplit]
      exact hpre)
    exact hy (List.append_eq_nil_iff.mp hnil).1
  · intro h
    refine ⟨?_, NoGap.append (p := ['&']) (by simp) h.gaps, fun _ es b hes hr => ?_, fun x y hxy => ?_⟩
    · intro a x y hr hx hnent
      cases a with
      | nil =>
        rw [List.nil_append, List.cons.injEq] at hr
        have hr' := hr.2
        rcases List.append_eq_append_iff.mp hr' with ⟨b, hxb, hrest⟩ | ⟨b, htb, hrest⟩
        · -- The read ahead is short, so it has the rest of the text.
          have hxlen := congrArg List.length hxb
          rw [List.length_append] at hxlen
          have hrest' := hend.resolve_left (by omega)
          rw [hrest'] at hrest
          simp at hrest
        · cases b with
          | nil =>
            have htlen := congrArg List.length htb
            rw [List.append_nil] at htlen
            have hrest' := hend.resolve_left (by omega)
            rw [hrest'] at hrest
            simp at hrest
          | cons d b =>
            rw [List.cons_append, List.cons.injEq] at hrest
            rw [← hrest.1] at htb
            have hbnil := h.buffer x b htb
            rw [hbnil] at htb hrest
            have htlen := congrArg List.length htb
            rw [List.length_append, List.length_singleton] at htlen
            have hrest' := hend.resolve_left (by omega)
            rw [hrest.2, hrest']
            rfl
      | cons c a =>
        rw [List.cons_append, List.cons.injEq] at hr
        exact h.apart a x y hr.2 hx hnent
    · cases es with
      | nil => exact absurd (List.cons.inj hr).1 (by decide)
      | cons e es =>
        refine hno e (hes e List.mem_cons_self) ?_
        rw [List.singleton_append, hr, List.flatMap_cons, List.append_assoc]
        exact List.prefix_append _ _
    · rcases hb with rfl | rfl
      · cases x with
        | nil => exact (List.cons.inj hxy).2.symm
        | cons c x => simp at hxy
      · simp at hxy

/-! ## The loop -/

/-- A character is read in a plain state. -/
structure Reading (Ht Ht₁ : HTStat) (ch : Char) (r : Text) : Prop where
  read : Tgetc Ht = (some ch, Ht₁)
  same : Turned Ht Ht₁ [] Ht.nsp Ht₁.inb Ht₁.inp
  buffer : Reads Ht.inb Ht₁.inb ch
  all : Ht.inb ++ Ht.inp = ch :: r
  rest : Ht₁.inb ++ Ht₁.inp = r

theorem Tgetc_cons (hp : Ht.Plain) (h : Ht.inb ++ Ht.inp = ch :: r) :
    ∃ Ht₁, Reading Ht Ht₁ ch r := by
  have hall := h
  cases hinb : Ht.inb with
  | cons c inb =>
    rw [hinb, List.cons_append, List.cons.injEq] at h
    obtain ⟨rfl, h⟩ := h
    refine ⟨{ Ht with inb }, ?_, ⟨?_, (List.append_nil _).symm, rfl, rfl, rfl⟩, .inl hinb, hall, h⟩
    · unfold Tgetc
      rw [hinb]
    · exact ⟨hp.text, hp.in2B, hp.head, hp.pre, hp.style, hp.toHTML, hp.withCR, hp.nnl⟩
  | nil =>
    rw [hinb, List.nil_append] at h
    refine ⟨{ Ht with inp := r }, ?_, ⟨?_, (List.append_nil _).symm, rfl, rfl, rfl⟩,
      .inr ⟨hinb, hinb⟩, hall, ?_⟩
    · unfold Tgetc
      rw [hinb, h]
    · exact ⟨hp.text, hp.in2B, hp.head, hp.pre, hp.style, hp.toHTML, hp.withCR, hp.nnl⟩
    · dsimp only
      rw [hinb]
      rfl

theorem Reading.length (h : Reading Ht Ht₁ ch r) :
    Ht₁.inb.length + Ht₁.inp.length = r.length ∧ Ht.inb.length + Ht.inp.length = r.length + 1 := by
  rw [← List.length_append, h.rest, ← List.length_append, h.all, List.length_cons]
  exact ⟨rfl, rfl⟩

/-- Where the buffer is not at its end, a `&` in it loses the rest. -/
theorem Reading.lost {s : Text} (h : Reading Ht Ht₁ '&' r) (hc : Calm Ht.inb s nsp) :
    Ht₁.inb = [] := by
  rcases h.buffer with h' | ⟨-, h'⟩
  · exact hc.buffer [] _ h'
  · exact h'

theorem Reading.last (h : Reading Ht Ht₁ '&' r) (hnil : Ht₁.inb = []) :
    Ht.inb = ['&'] ∨ Ht.inb = [] := by
  rcases h.buffer with h' | ⟨h', -⟩
  · exact .inl (by rw [h', hnil])
  · exact .inr h'

/-- What a state still gives: no more than the scan for entities gives, and as much exactly where
nothing is lost. -/
structure Gives (Ht : HTStat) (u w : Text) : Prop where
  loop : ∀ n, Ht.inb.length + Ht.inp.length < n →
    HTMLtoTEXT.loop n Ht = some (Ht.out ++ (w ++ ['\n']))
  length_le : w.length ≤ u.length
  calm : w.length = u.length → Calm Ht.inb (Ht.inb ++ Ht.inp) Ht.nsp
  eq : Ampersands (Ht.inb ++ Ht.inp) → Calm Ht.inb (Ht.inb ++ Ht.inp) Ht.nsp → w = u

/-- What a state gives, from what the state after a turn gives. -/
theorem Gives.turn {Ht₂ : HTStat} {put : Text} {inp : Text} (hw : Gives Ht₂ v w)
    (h : Reading Ht Ht₁ ch r) (h₂ : Turned Ht₁ Ht₂ put nsp inb inp) (hturn : turn ch Ht₁ = Ht₂)
    (hlen : inb.length + inp.length ≤ r.length) (hle : put.length + v.length ≤ u.length)
    (hcalm : put.length + v.length = u.length → Calm inb (inb ++ inp) nsp → Calm Ht.inb (ch :: r) Ht.nsp)
    (heq : Ampersands (ch :: r) → Calm Ht.inb (ch :: r) Ht.nsp →
      Ampersands (inb ++ inp) ∧ Calm inb (inb ++ inp) nsp ∧ u = put ++ v) :
    Gives Ht u (put ++ w) := by
  have hwle := hw.length_le
  have hwcalm := hw.calm
  have hweq := hw.eq
  rw [h₂.inb, h₂.inp, h₂.nsp] at hwcalm hweq
  refine ⟨fun n hn => ?_, ?_, fun hl => ?_, fun ha hc => ?_⟩
  · cases n with
    | zero => exact absurd hn (Nat.not_lt_zero _)
    | succ n =>
      have hshort : Ht₂.inb.length + Ht₂.inp.length < n := by
        have := h.length.2
        rw [h₂.inb, h₂.inp]
        omega
      unfold HTMLtoTEXT.loop
      rw [h.read]
      dsimp only
      rw [hturn, hw.loop n hshort, h₂.out, h.same.out]
      simp
  · rw [List.length_append]
    omega
  · rw [List.length_append] at hl
    rw [h.all]
    exact hcalm (by omega) (hwcalm (by omega))
  · rw [h.all] at ha hc
    obtain ⟨ha', hc', rfl⟩ := heq ha hc
    rw [hweq ha' hc']

theorem gives_nil (hp : Ht.Plain) (hr : Ht.inb ++ Ht.inp = []) (hu : Decodes [] u) :
    Gives Ht u [] := by
  obtain ⟨hinb, hinp⟩ := List.append_eq_nil_iff.mp hr
  have hread : Tgetc Ht = (none, Ht) := by
    unfold Tgetc
    rw [hinb, hinp]
  refine ⟨fun n hn => ?_, Nat.zero_le _, fun _ => ?_, fun _ _ => hu.nil_inv.symm⟩
  · cases n with
    | zero => exact absurd hn (Nat.not_lt_zero _)
    | succ n =>
      unfold HTMLtoTEXT.loop
      rw [hread]
      dsimp only
      rw [hp.in2B, if_neg (by simp), hp.withCR]
      rfl
  · rw [hinb, hinp]
    exact ⟨by simp [Apart], by simp [NoGap], by simp, by simp⟩

/-- An entity is found in what was read ahead exactly if it is one. -/
theorem isHTMLentity_cases (hx : ';' ∉ x) :
    (∃ e ∈ entities, e.1 = '&' :: (x ++ [';']) ∧ isHTMLentity ('&' :: (x ++ [';'])) = some e.2) ∨
      (∀ y, ∀ e ∈ entities, ¬e.1 <+: '&' :: (x ++ ';' :: y)) ∧
        isHTMLentity ('&' :: (x ++ [';'])) = none := by
  rw [isHTMLentity_eq hx]
  cases hfind : entities.find? fun e => e.1 == '&' :: (x ++ [';']) with
  | some e =>
    have heq := List.find?_some (p := fun e : Text × Char => e.1 == '&' :: (x ++ [';'])) hfind
    exact .inl ⟨e, List.mem_of_find?_eq_some hfind, beq_iff_eq.mp heq, rfl⟩
  | none =>
    refine .inr ⟨fun y e he hpre => ?_, rfl⟩
    exact List.find?_eq_none.mp hfind e he (beq_iff_eq.mpr (entity_ends he hx hpre))

theorem gives_char (h : Reading Ht Ht₁ ch r) (hch : PlainChar ch) (hblank : ch ≠ ' ')
    (hamp : ch ≠ '&') (hw : Gives (turn ch Ht₁) v w) : Gives Ht (ch :: v) (ch :: w) := by
  have h₂ := turn_char h.same.plain hch hblank hamp
  have hcalm : Calm Ht.inb (ch :: r) Ht.nsp ↔ Calm Ht₁.inb r 0 := calm_char h.buffer hblank hamp
  refine hw.turn h h₂ rfl (Nat.le_of_eq h.length.1) ?_ ?_ ?_
  · simp
    omega
  · intro _ hc
    rw [h.rest] at hc
    exact hcalm.mpr hc
  · intro ha hc
    rw [h.rest]
    exact ⟨Ampersands.drop (p := [ch]) ha, hcalm.mp hc, rfl⟩

theorem gives_blank (h : Reading Ht Ht₁ ' ' r) (hnsp : Ht.nsp = 0) (hw : Gives (turn ' ' Ht₁) v w) :
    Gives Ht (' ' :: v) (' ' :: w) := by
  have h₂ := putText_blank h.same.plain (h.same.nsp.trans hnsp)
  rw [← turn_blank h.same.plain] at h₂
  refine hw.turn h h₂ rfl (Nat.le_of_eq h.length.1) ?_ ?_ ?_
  · simp
    omega
  · intro _ hc
    rw [h.rest] at hc
    rw [hnsp]
    exact (calm_blank h.buffer).mpr hc
  · intro ha hc
    rw [hnsp] at hc
    rw [h.rest]
    exact ⟨Ampersands.drop (p := [' ']) ha, (calm_blank h.buffer).mp hc, rfl⟩

/-- A blank is left out after a blank, even where entities were put since. -/
theorem gives_drop (h : Reading Ht Ht₁ ' ' r) (hnsp : Ht.nsp ≠ 0) (hw : Gives (turn ' ' Ht₁) v w) :
    Gives Ht (' ' :: v) w := by
  have hdrop := putText_drop h.same.plain (by rw [h.same.nsp]; exact hnsp)
  rw [← turn_blank h.same.plain] at hdrop
  have h₂ : Turned Ht₁ (turn ' ' Ht₁) [] Ht₁.nsp Ht₁.inb Ht₁.inp := by
    rw [hdrop]
    exact ⟨h.same.plain, (List.append_nil _).symm, rfl, rfl, rfl⟩
  refine hw.turn h h₂ rfl (Nat.le_of_eq h.length.1) ?_ ?_ ?_
  · simp
  · intro hl _
    simp at hl
  · intro _ hc
    exact absurd rfl (hc.begins hnsp [] r (by simp))

/-- A `&` that is put. What the buffer still has is lost. -/
theorem gives_amp {t : Text} (h : Reading Ht Ht₁ '&' r) (hpre : prefetch 8 Ht₁.inp = (t, rest))
    (hinp : Ht₁.inp = t ++ rest) (ht : ';' ∉ t) (hlen : t.length ≤ 8)
    (hend : t.length = 8 ∨ rest = []) (hw : Gives (turn '&' Ht₁) v w) :
    Gives Ht ('&' :: Ht₁.inb ++ v) ('&' :: w) := by
  have h₂ := turn_amp h.same.plain (by rw [hpre]; exact ht)
  rw [hpre] at h₂
  have hsplit : '&' :: r = ('&' :: Ht₁.inb) ++ (t ++ rest) := by
    rw [← h.rest, hinp]
    rfl
  have hrlen := h.length.1
  rw [hinp, List.length_append] at hrlen
  refine hw.turn h h₂ rfl (by dsimp only; omega) ?_ ?_ ?_
  · simp
    omega
  · intro hl hc
    have hnil : Ht₁.inb = [] := by
      rw [← List.length_eq_zero_iff]
      simp at hl
      omega
    rw [hsplit, hnil]
    exact (calm_amp (h.last hnil) ht hlen hend).mpr hc
  · intro ha hc
    have hnil := h.lost hc
    rw [hsplit, hnil] at ha hc
    exact ⟨ha.drop, (calm_amp (h.last hnil) ht hlen hend).mp hc, by rw [hnil]⟩

/-- What was read ahead is an entity. -/
theorem gives_entity {e : Text × Char} (h : Reading Ht Ht₁ '&' r)
    (hpre : prefetch 8 Ht₁.inp = (x ++ [';'], rest)) (hinp : Ht₁.inp = x ++ ';' :: rest)
    (he : e ∈ entities) (hex : e.1 = '&' :: (x ++ [';']))
    (hfound : isHTMLentity ('&' :: (x ++ [';'])) = some e.2)
    (hu : Decodes ('&' :: (Ht₁.inb ++ x) ++ [';']) u) (hw : Gives (turn '&' Ht₁) v w) :
    Gives Ht (u ++ v) (e.2 :: w) := by
  have h₂ := turn_entity (x := x) h.same.plain (by rw [hpre])
  rw [hpre, hfound] at h₂
  have hrlen := h.length.1
  rw [hinp, List.length_append, List.length_cons] at hrlen
  by_cases hnil : Ht₁.inb = []
  · have hall : '&' :: r = e.1 ++ rest := by
      rw [← h.rest, hinp, hnil, hex]
      simp
    have hone : u = [e.2] := by
      rw [hnil, List.nil_append, List.cons_append, ← hex, ← List.append_nil e.1] at hu
      obtain ⟨v, rfl, hv⟩ := hu.entity_inv he
      rw [hv.nil_inv]
    have hcalm : Calm Ht.inb (e.1 ++ rest) Ht.nsp ↔ Calm [] rest Ht.nsp :=
      calm_entity he (h.last hnil)
    refine hw.turn h h₂ rfl (by simp; omega) ?_ ?_ ?_
    · rw [hone]
      simp
      omega
    · intro _ hc
      rw [h.same.nsp] at hc
      rw [hall]
      exact hcalm.mpr hc
    · intro ha hc
      rw [hall] at ha hc
      rw [h.same.nsp, hone]
      exact ⟨ha.drop, hcalm.mp hc, rfl⟩
  · -- The `&` of the buffer and what was read ahead are no entity together.
    have htwo : 2 ≤ u.length := by
      have hpos := hu.length_pos (by simp)
      by_contra hlt
      obtain ⟨e', he', hex'⟩ := hu.one (by omega) (by simp)
      have htail : e.1.tail <:+ e'.1.tail := by
        rw [hex, hex']
        exact ⟨Ht₁.inb, by simp⟩
      obtain rfl := entity_tails e he e' he' htail
      rw [hex] at hex'
      have hlen := congrArg List.length hex'
      simp at hlen
      exact hnil hlen
    refine hw.turn h h₂ rfl (by simp; omega) ?_ ?_ ?_
    · simp
      omega
    · intro hl _
      simp at hl
      omega
    · intro _ hc
      exact absurd (h.lost hc) hnil

/-- What was read ahead ends with a `;` and is left out. -/
theorem gives_none (h : Reading Ht Ht₁ '&' r) (hpre : prefetch 8 Ht₁.inp = (x ++ [';'], rest))
    (hx : x.length < 8) (hinp : Ht₁.inp = x ++ ';' :: rest)
    (hnone : ∀ e ∈ entities, ¬e.1 <+: '&' :: (x ++ ';' :: rest))
    (hfound : isHTMLentity ('&' :: (x ++ [';'])) = none) (hu : u ≠ [])
    (hw : Gives (turn '&' Ht₁) v w) : Gives Ht (u ++ v) w := by
  have h₂ := turn_entity (x := x) h.same.plain (by rw [hpre])
  rw [hpre, hfound] at h₂
  have hrlen := h.length.1
  rw [hinp, List.length_append, List.length_cons] at hrlen
  have hpos := List.length_pos_iff.mpr hu
  refine hw.turn h h₂ rfl (by simp; omega) ?_ ?_ ?_
  · simp
  · intro hl _
    simp at hl
    exact absurd hl hu
  · intro ha hc
    have hall : '&' :: r = '&' :: (x ++ ';' :: rest) := by
      rw [← h.rest, hinp, h.lost hc]
      rfl
    rw [hall] at ha
    rcases ha [] _ rfl with ⟨e, he, hpre⟩ | hsemi
    · exact absurd hpre (hnone e he)
    · refine absurd ?_ hsemi
      rw [List.mem_take_iff_getElem]
      exact ⟨x.length, by simp; omega, by simp⟩

/-- Each state in a text without tags gives a text. -/
theorem gives_total {k : Nat} (hk : (Ht.inb ++ Ht.inp).length = k) (hp : Ht.Plain)
    (hchars : ∀ c ∈ Ht.inb ++ Ht.inp, PlainChar c) (hno : ';' ∉ Ht.inb)
    (hu : Decodes (Ht.inb ++ Ht.inp) u) : ∃ w, Gives Ht u w := by
  induction k using Nat.strong_induction_on generalizing Ht u with
  | _ k ih =>
    -- The state after a turn gives a text.
    have hnext : ∀ {Ht₁ Ht₂ : HTStat} {put v inb inp : Text} {nsp : Nat},
        Turned Ht₁ Ht₂ put nsp inb inp → (inb ++ inp).length < k →
        (∀ c ∈ inb ++ inp, PlainChar c) → ';' ∉ inb → Decodes (inb ++ inp) v →
        ∃ w, Gives Ht₂ v w := by
      intro Ht₁ Ht₂ put v inb inp nsp h hlt hc hinb hv
      refine ih _ hlt ?_ h.plain ?_ ?_ ?_
      · rw [h.inb, h.inp]
      · rw [h.inb, h.inp]
        exact hc
      · rw [h.inb]
        exact hinb
      · rw [h.inb, h.inp]
        exact hv
    cases hr : Ht.inb ++ Ht.inp with
    | nil => exact ⟨[], gives_nil hp hr (hr ▸ hu)⟩
    | cons ch r =>
      obtain ⟨Ht₁, h⟩ := Tgetc_cons hp hr
      have hkr : r.length < k := by
        rw [← hk, hr]
        simp
      rw [hr] at hu hchars
      obtain ⟨hch, hrc⟩ := List.forall_mem_cons.mp hchars
      have hno₁ : ';' ∉ Ht₁.inb := by
        rcases h.buffer with h' | ⟨-, h'⟩
        · exact fun hmem => hno (by rw [h']; exact List.mem_cons_of_mem _ hmem)
        · simp [h']
      by_cases hamp : ch = '&'
      · rw [hamp] at h hu
        have hinplen := h.length.1
        rcases prefetch_spec 8 Ht₁.inp with ⟨x, hx, hxno, hxlen, hinp⟩ | ⟨htno, hend, htlen, hinp⟩
        · have hpre : prefetch 8 Ht₁.inp = (x ++ [';'], (prefetch 8 Ht₁.inp).2) := Prod.ext hx rfl
          have h₂ := turn_entity h.same.plain hx
          generalize (prefetch 8 Ht₁.inp).2 = rest at hinp h₂ hpre
          have hsplit : '&' :: r = ('&' :: (Ht₁.inb ++ x)) ++ ';' :: rest := by
            rw [← h.rest, hinp]
            simp
          rw [hinp, List.length_append, List.length_cons] at hinplen
          rw [hsplit] at hu
          obtain ⟨u₁, u₂, rfl, hu₁, hu₂⟩ := hu.split
          have hrest : ∀ c ∈ [] ++ rest, PlainChar c := by
            intro c hc
            refine hrc c ?_
            rw [← h.rest, hinp]
            simp at hc
            simp [hc]
          obtain ⟨w, hw⟩ := hnext h₂ (by rw [List.nil_append]; omega) hrest (by simp) hu₂
          rcases isHTMLentity_cases hxno with ⟨e, he, hex, hfound⟩ | ⟨hnone, hfound⟩
          · exact ⟨_, gives_entity h hpre hinp he hex hfound hu₁ hw⟩
          · have hne : u₁ ≠ [] := List.length_pos_iff.mp (hu₁.length_pos (by simp))
            exact ⟨_, gives_none h hpre hxlen hinp (hnone rest) hfound hne hw⟩
        · have h₂ := turn_amp h.same.plain htno
          have hpre : prefetch 8 Ht₁.inp = ((prefetch 8 Ht₁.inp).1, (prefetch 8 Ht₁.inp).2) := rfl
          generalize (prefetch 8 Ht₁.inp).1 = t at hinp h₂ htno hend htlen hpre
          generalize (prefetch 8 Ht₁.inp).2 = rest at hinp h₂ hend hpre
          have hsplit : '&' :: r = ('&' :: Ht₁.inb) ++ (t ++ rest) := by
            rw [← h.rest, hinp]
            rfl
          rw [hsplit] at hu
          obtain ⟨v, rfl, hv⟩ := hu.copied (by simp [hno₁]) htno hend
          have hlt : (t ++ rest).length < k := by
            rw [← hinp]
            omega
          obtain ⟨w, hw⟩ := hnext h₂ hlt
            (fun c hc => hrc c (by rw [← h.rest, hinp]; exact List.mem_append_right _ hc)) htno hv
          exact ⟨_, gives_amp h hpre hinp htno htlen hend hw⟩
      · obtain ⟨v, rfl, hv⟩ := hu.char_inv (not_entity hamp)
        rw [← h.rest] at hkr hrc hv
        by_cases hblank : ch = ' '
        · rw [hblank] at h ⊢
          by_cases hnsp : Ht.nsp = 0
          · have h₂ := putText_blank h.same.plain (h.same.nsp.trans hnsp)
            rw [← turn_blank h.same.plain] at h₂
            obtain ⟨w, hw⟩ := hnext h₂ hkr hrc hno₁ hv
            exact ⟨_, gives_blank h hnsp hw⟩
          · have hdrop := putText_drop h.same.plain (by rw [h.same.nsp]; exact hnsp)
            have h₂ : Turned Ht₁ (turn ' ' Ht₁) [] Ht₁.nsp Ht₁.inb Ht₁.inp := by
              rw [turn_blank h.same.plain, hdrop]
              exact ⟨h.same.plain, (List.append_nil _).symm, rfl, rfl, rfl⟩
            obtain ⟨w, hw⟩ := hnext h₂ hkr hrc hno₁ hv
            exact ⟨_, gives_drop h hnsp hw⟩
        · have h₂ := turn_char h.same.plain hch hblank hamp
          obtain ⟨w, hw⟩ := hnext h₂ hkr hrc hno₁ hv
          exact ⟨_, gives_char h hch hblank hamp hw⟩

/-! ## The text that is written -/

/-- A line of printable characters without tags and without two blanks in a row. -/
structure PlainLine (s : Text) : Prop where
  chars : ∀ c ∈ s, PlainChar c
  blanks : ∀ a b, s ≠ a ++ ' ' :: ' ' :: b
  ampersands : Ampersands s

/-- The line is written with its entities replaced exactly where no `&` follows another one too soon,
and no two blanks have only entities between them. -/
theorem HTMLtoTEXT_iff {s u : Text} {n : Nat} (hs : PlainLine s) (hu : Decodes s u) (hn : s.length < n) :
    HTMLtoTEXT n s false = some (u ++ ['\n']) ↔ Apart s ∧ NoGap s := by
  have hp : ({ inp := s } : HTStat).Plain := ⟨rfl, rfl, rfl, rfl, rfl, rfl, rfl, rfl⟩
  obtain ⟨w, hw⟩ := gives_total rfl hp hs.chars (by simp) hu
  have hloop := hw.loop n (by simpa using hn)
  unfold HTMLtoTEXT
  rw [hloop]
  constructor
  · intro heq
    have hwu : w = u := by simpa using heq
    have hc := hw.calm (by rw [hwu])
    exact ⟨hc.apart, hc.gaps⟩
  · rintro ⟨hapart, hgaps⟩
    rw [hw.eq hs.ampersands ⟨hapart, hgaps, fun h => absurd rfl h, by simp⟩]
    rfl

theorem plainChars {s : Text}
    (h : s.all (fun c => decide (0x20 ≤ c.toNat) && decide (c.toNat ≤ 0x7e) && c != '<') = true) :
    ∀ c ∈ s, PlainChar c := by
  intro c hc
  have hall := List.all_eq_true.mp h c hc
  simp only [Bool.and_eq_true, decide_eq_true_eq, bne_iff_ne] at hall
  exact ⟨hall.1, hall.2⟩

/-- `a&lt;b` -/
def entityLine : Text := ['a', '&', 'l', 't', ';', 'b']

theorem entityLine_split {a b : Text} (h : entityLine = a ++ '&' :: b) :
    a = ['a'] ∧ b = ['l', 't', ';', 'b'] := by
  obtain ⟨a', rfl, h'⟩ := append_eq_split (p := ['a']) (r := ['&', 'l', 't', ';', 'b']) (by simp) h
  cases a' with
  | nil => exact ⟨rfl, (List.cons.inj h').2.symm⟩
  | cons c a' =>
    have hmem : '&' ∈ ['l', 't', ';', 'b'] := by
      rw [(List.cons.inj h').2]
      simp
    simp at hmem

theorem HTMLtoTEXT_entityLine : HTMLtoTEXT 7 entityLine false = some ['a', '<', 'b', '\n'] := by
  have hent : ∃ e ∈ entities, e.1 <+: ['&', 'l', 't', ';', 'b'] :=
    ⟨(['&', 'l', 't', ';'], '<'), by decide, by decide⟩
  refine (@HTMLtoTEXT_iff entityLine ['a', '<', 'b'] 7 ⟨plainChars rfl, ?_, ?_⟩ ?_
    (by decide)).mpr ⟨?_, ?_⟩
  · intro a b h
    have hmem : ' ' ∈ entityLine := by
      rw [h]
      simp
    simp [entityLine] at hmem
  · intro a b h
    obtain ⟨-, rfl⟩ := entityLine_split h
    exact .inl hent
  · refine .char (not_entity (by decide)) ?_
    exact @Decodes.entity (['&', 'l', 't', ';'], '<') ['b'] ['b'] (by decide)
      (.char (not_entity (by decide)) .nil)
  · intro a x y h _ hno
    obtain ⟨-, hb⟩ := entityLine_split h
    rw [hb] at hno
    exact absurd hent hno
  · intro a b es _ h
    have hmem : ' ' ∈ entityLine := by
      rw [h]
      simp
    simp [entityLine] at hmem

/-- `a &lt; b` -/
def blankLine : Text := ['a', ' ', '&', 'l', 't', ';', ' ', 'b']

/-- The blank after the entity is lost. -/
theorem blank_lost :
    PlainLine blankLine ∧ Decodes blankLine ['a', ' ', '<', ' ', 'b'] ∧
      HTMLtoTEXT 9 blankLine false = some ['a', ' ', '<', 'b', '\n'] := by
  refine ⟨⟨plainChars rfl, ?_, ?_⟩, ?_, by decide⟩
  · intro a b h
    have hinfix : [' ', ' '] <:+: blankLine := ⟨a, b, by rw [h]; simp⟩
    revert hinfix
    decide
  · intro a b h
    obtain ⟨a', rfl, h'⟩ := append_eq_split (p := ['a', ' ']) (r := ['&', 'l', 't', ';', ' ', 'b'])
      (by simp) h
    cases a' with
    | nil =>
      rw [← (List.cons.inj h').2]
      exact .inl ⟨(['&', 'l', 't', ';'], '<'), by decide, by decide⟩
    | cons c a' =>
      have hmem : '&' ∈ ['l', 't', ';', ' ', 'b'] := by
        rw [(List.cons.inj h').2]
        simp
      simp at hmem
  · refine .char (not_entity (by decide)) (.char (not_entity (by decide)) ?_)
    exact @Decodes.entity (['&', 'l', 't', ';'], '<') [' ', 'b'] [' ', 'b'] (by decide)
      (.char (not_entity (by decide)) (.char (not_entity (by decide)) .nil))

end delegate.html
