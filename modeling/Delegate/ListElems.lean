-- The lists of texts that are scanned all over the program (scan_List,
-- num_ListElems, scan_ListElem1, rary/String.cpp). An element ends at a
-- separator outside of braces, and a separator or a brace can be escaped.
import Delegate.CText
import Delegate.Segments

open ctext

namespace delegate.list

/-! ## The pure model -/

/-- A separator: no brace and no backslash, and a character of a text. -/
structure Sep where
  chr : Char
  brace : chr ≠ '{' ∧ chr ≠ '}'
  backslash : chr ≠ '\\'
  nul : chr ≠ '\x00'

/-- What a backslash takes its meaning from. -/
def Sep.escapable (sep : Sep) (c : Char) : Bool := c == sep.chr || c == '{' || c == '}'

/-- An element of the private copy of a list: its text, `np - lp`, and the text behind the
separator, if one ended the element. -/
structure Elem where
  text : Text
  np : Nat
  rest : Option Text
  deriving DecidableEq, Repr

/-- The loop over the characters of an element. `seen` is the text from `lp` to `np`, in which
escapes are already removed. -/
def scanElem (sep : Sep) : Int → Nat → Text → Text → Elem
  | _, _, seen, [] => ⟨seen, seen.length, none⟩
  | lev, npa, seen, c :: s =>
    if c = '\\' then
      match s with
      | [] => scanElem sep lev npa (seen ++ [c]) []
      | d :: s' =>
        if sep.escapable d then scanElem sep lev npa (seen ++ [d]) s'
        else scanElem sep lev npa (seen ++ [c]) (d :: s')
    else if c = '{' then scanElem sep (lev + 1) npa (seen ++ [c]) s
    else if c = '}' then
      if lev - 1 = 0 ∧ seen.head? = some '{' then
        -- The braces are cut off, and what is next ends the element.
        if npa = 0 ∧ s = [] then ⟨seen.tail, seen.length + 1, none⟩
        else if npa = 0 ∧ s.head? = some sep.chr then ⟨seen.tail, seen.length + 2, some s.tail⟩
        else scanElem sep (lev - 1) (npa + 1) (seen ++ [c]) s
      else scanElem sep (lev - 1) npa (seen ++ [c]) s
    else if lev = 0 ∧ c = sep.chr then ⟨seen, seen.length + 1, some s⟩
    else scanElem sep lev npa (seen ++ [c]) s

/-! ## Escapes and levels in a text -/

/-- The number of escapes. -/
def escapes (sep : Sep) : Text → Nat
  | [] => 0
  | [_] => 0
  | c :: d :: s =>
    if c = '\\' ∧ sep.escapable d then escapes sep s + 1 else escapes sep (d :: s)

def depth (c : Char) : Int := if c = '{' then 1 else if c = '}' then -1 else 0

/-- The braces that are open at the end, without those that are escaped. -/
def level (sep : Sep) : Text → Int
  | [] => 0
  | [c] => depth c
  | c :: d :: s =>
    if c = '\\' ∧ sep.escapable d then level sep s else depth c + level sep (d :: s)

/-- A separator behind the text ends an element: it stands outside of braces, and is not escaped. -/
def Ends (sep : Sep) (lev : Int) (t : Text) : Prop :=
  lev + level sep t = 0 ∧ t.getLast? ≠ some '\\'

/-- The character is not the backslash of an escape. -/
def Plain (sep : Sep) (c : Char) (s : Text) : Prop :=
  c = '\\' → ∀ d ∈ s.head?, sep.escapable d = false

/-- A text is read by escapes and other characters. -/
theorem escape_induct (sep : Sep) {motive : Text → Prop} (nil : motive [])
    (pair : ∀ d s, sep.escapable d = true → motive s → motive ('\\' :: d :: s))
    (char : ∀ c s, Plain sep c s → motive s → motive (c :: s)) (s : Text) : motive s := by
  induction hn : s.length using Nat.strongRecOn generalizing s with
  | ind n ih =>
    subst hn
    cases s with
    | nil => exact nil
    | cons c s =>
      by_cases hc : c = '\\' ∧ ∃ d ∈ s.head?, sep.escapable d = true
      · obtain ⟨rfl, d, hd, hesc⟩ := hc
        cases s with
        | nil => cases hd
        | cons e s =>
          cases hd
          exact pair _ s hesc (ih s.length (by simp) s rfl)
      · refine char c s ?_ (ih s.length (by simp) s rfl)
        intro hback d hd
        exact Bool.eq_false_of_not_eq_true fun hesc => hc ⟨hback, d, hd, hesc⟩

section
variable {sep : Sep} {c d : Char} {s : Text}

theorem escapes_pair (h : sep.escapable d = true) :
    escapes sep ('\\' :: d :: s) = escapes sep s + 1 := if_pos ⟨rfl, h⟩

theorem level_pair (h : sep.escapable d = true) : level sep ('\\' :: d :: s) = level sep s :=
  if_pos ⟨rfl, h⟩

theorem escapes_char (h : Plain sep c s) : escapes sep (c :: s) = escapes sep s := by
  cases s with
  | nil => rfl
  | cons d s =>
    rw [escapes, if_neg]
    rintro ⟨hc, hesc⟩
    rw [h hc d rfl] at hesc
    cases hesc

theorem level_char (h : Plain sep c s) : level sep (c :: s) = depth c + level sep s := by
  cases s with
  | nil => exact (Int.add_zero _).symm
  | cons d s =>
    rw [level, if_neg]
    rintro ⟨hc, hesc⟩
    rw [h hc d rfl] at hesc
    cases hesc

/-- A part at the begin of the text behind the character. -/
theorem Plain.of_append {a b : Text} (h : Plain sep c (a ++ b)) : Plain sep c a := by
  intro hc d hd
  cases a with
  | nil => cases hd
  | cons e a =>
    cases hd
    exact h hc _ rfl

theorem escapable_facts (h : sep.escapable d = true) : d ≠ '\\' := by
  rintro rfl
  have hback := sep.backslash
  simp [Sep.escapable, Ne.symm hback] at h

theorem escapable_sep (sep : Sep) : sep.escapable sep.chr = true := by
  simp [Sep.escapable]

theorem escapes_le (sep : Sep) (s : Text) : 2 * escapes sep s ≤ s.length := by
  induction s using escape_induct sep with
  | nil => exact Nat.le_refl 0
  | pair d s hd ih =>
    rw [escapes_pair hd, List.length_cons, List.length_cons]
    omega
  | char c s hplain ih =>
    rw [escapes_char hplain, List.length_cons]
    omega

/-- Escapes and levels of two texts, the first of which does not end with a backslash. -/
theorem append_counts (sep : Sep) {a : Text} (h : a.getLast? ≠ some '\\') (b : Text) :
    escapes sep (a ++ b) = escapes sep a + escapes sep b ∧
      level sep (a ++ b) = level sep a + level sep b := by
  induction a using escape_induct sep with
  | nil => simp [escapes, level]
  | pair d s hd ih =>
    have hlast : s.getLast? ≠ some '\\' := by
      cases s with
      | nil => simp
      | cons e s => simpa using h
    obtain ⟨hesc, hlev⟩ := ih hlast
    have hcons : '\\' :: d :: s ++ b = '\\' :: d :: (s ++ b) := rfl
    rw [hcons, escapes_pair hd, escapes_pair hd, level_pair hd, level_pair hd, hesc, hlev]
    exact ⟨by omega, rfl⟩
  | char c s hplain ih =>
    have hplain' : Plain sep c (s ++ b) := by
      intro hc d hd
      cases s with
      | nil =>
        subst hc
        exact absurd rfl h
      | cons e s =>
        cases hd
        exact hplain hc _ rfl
    have hlast : s.getLast? ≠ some '\\' := by
      cases s with
      | nil => simp
      | cons e s => simpa using h
    obtain ⟨hesc, hlev⟩ := ih hlast
    rw [List.cons_append, escapes_char hplain, escapes_char hplain', level_char hplain,
      level_char hplain', hesc, hlev]
    exact ⟨rfl, by ring⟩

end

/-! ## An element -/

/-- The text of an element has the characters that were read, but for the backslashes of escapes
and a pair of braces around it. -/
def Made (sep : Sep) (seen t text : Text) : Prop :=
  ∃ cut, (cut = [] ∨ cut = ['{', '}']) ∧
    (seen ++ t).Perm (text ++ (cut ++ List.replicate (escapes sep t) '\\'))

/-- What an element is: it reaches to the first separator that ends it, or to the end. -/
inductive Scanned (sep : Sep) (lev : Int) (seen s : Text) (e : Elem) : Prop
  | ended (t r : Text) (split : s = t ++ sep.chr :: r) (ends : Ends sep lev t)
      (least : ∀ a b, s = a ++ sep.chr :: b → a.length < t.length → ¬Ends sep lev a)
      (rest : e.rest = some r) (np : e.np + escapes sep t = seen.length + t.length + 1)
      (made : Made sep seen t e.text)
  | last (never : ∀ a b, s = a ++ sep.chr :: b → ¬Ends sep lev a) (rest : e.rest = none)
      (made : Made sep seen s e.text)

section
variable {sep : Sep} {lev : Int} {npa : Nat} {seen : Text} {c d : Char} {s t : Text} {e : Elem}

theorem ends_nil : Ends sep lev [] ↔ lev = 0 := by
  simp [Ends, level]

theorem ends_pair (h : sep.escapable d = true) :
    Ends sep lev ('\\' :: d :: t) ↔ Ends sep lev t := by
  unfold Ends
  rw [level_pair h]
  cases t with
  | nil => simp [escapable_facts h]
  | cons e t => simp

theorem ends_char (h : Plain sep c t) (hlast : c = '\\' → t ≠ []) :
    Ends sep lev (c :: t) ↔ Ends sep (lev + depth c) t := by
  unfold Ends
  rw [level_char h, Int.add_assoc]
  cases t with
  | nil =>
    have hc : c ≠ '\\' := fun hc => hlast hc rfl
    simp [hc]
  | cons e t => simp

/-- The separator does not come right behind a backslash that is none of an escape. -/
theorem Plain.ne_nil {a b : Text} (h : Plain sep c (a ++ sep.chr :: b)) (hc : c = '\\') : a ≠ [] := by
  rintro rfl
  have hesc := h hc sep.chr rfl
  rw [escapable_sep] at hesc
  cases hesc

theorem Made.pair (h : sep.escapable d = true) {text : Text} (hmade : Made sep (seen ++ [d]) t text) :
    Made sep seen ('\\' :: d :: t) text := by
  obtain ⟨cut, hcut, hperm⟩ := hmade
  refine ⟨cut, hcut, ?_⟩
  rw [escapes_pair h]
  have hmid : (seen ++ '\\' :: d :: t).Perm ('\\' :: (seen ++ [d] ++ t)) := by
    rw [List.append_assoc]
    exact List.perm_middle
  have hback : (text ++ (cut ++ List.replicate (escapes sep t + 1) '\\')).Perm
      ('\\' :: (text ++ (cut ++ List.replicate (escapes sep t) '\\'))) := by
    rw [List.replicate_succ, ← List.append_assoc, ← List.append_assoc]
    exact List.perm_middle
  exact hmid.trans ((hperm.cons '\\').trans hback.symm)

theorem Made.char (h : Plain sep c t) {text : Text} (hmade : Made sep (seen ++ [c]) t text) :
    Made sep seen (c :: t) text := by
  obtain ⟨cut, hcut, hperm⟩ := hmade
  refine ⟨cut, hcut, ?_⟩
  rw [escapes_char h]
  rw [List.append_assoc] at hperm
  exact hperm

/-- An escape before what is read. -/
theorem Scanned.pair (h : sep.escapable d = true) (hs : Scanned sep lev (seen ++ [d]) s e) :
    Scanned sep lev seen ('\\' :: d :: s) e := by
  have hbefore : ∀ a b, '\\' :: d :: s = a ++ sep.chr :: b → Ends sep lev a →
      ∃ a', a = '\\' :: d :: a' ∧ s = a' ++ sep.chr :: b ∧ Ends sep lev a' := by
    intro a b hab hends
    rcases a with _ | ⟨x, _ | ⟨y, a⟩⟩
    · exact absurd (List.cons.inj hab).1.symm sep.backslash
    · rw [← (List.cons.inj hab).1] at hends
      exact absurd rfl hends.2
    · obtain ⟨rfl, htail⟩ := List.cons.inj hab
      obtain ⟨rfl, hrest⟩ := List.cons.inj htail
      exact ⟨a, rfl, hrest, (ends_pair h).mp hends⟩
  cases hs with
  | ended t r split ends least rest np made =>
    refine .ended ('\\' :: d :: t) r (by rw [split]; rfl) ((ends_pair h).mpr ends) ?_ rest ?_
      (made.pair h)
    · intro a b hab hlt hends
      obtain ⟨a', rfl, hs, hends'⟩ := hbefore a b hab hends
      exact least a' b hs (by simpa using hlt) hends'
    · rw [escapes_pair h]
      simp only [List.length_append, List.length_cons, List.length_nil] at np ⊢
      omega
  | last never rest made =>
    refine .last ?_ rest (made.pair h)
    intro a b hab hends
    obtain ⟨a', -, hs, hends'⟩ := hbefore a b hab hends
    exact never a' b hs hends'

/-- Another character before what is read. -/
theorem Scanned.char (h : Plain sep c s) (hsep : c = sep.chr → lev ≠ 0)
    (hs : Scanned sep (lev + depth c) (seen ++ [c]) s e) : Scanned sep lev seen (c :: s) e := by
  have hbefore : ∀ a b, c :: s = a ++ sep.chr :: b → Ends sep lev a →
      ∃ a', a = c :: a' ∧ s = a' ++ sep.chr :: b ∧ Ends sep (lev + depth c) a' := by
    intro a b hab hends
    cases a with
    | nil => exact absurd (ends_nil.mp hends) (hsep (List.cons.inj hab).1)
    | cons x a =>
      obtain ⟨rfl, hrest⟩ := List.cons.inj hab
      rw [hrest] at h
      exact ⟨a, rfl, hrest, (ends_char h.of_append h.ne_nil).mp hends⟩
  cases hs with
  | ended t r split ends least rest np made =>
    rw [split] at h
    refine .ended (c :: t) r (by rw [split]; rfl) ((ends_char h.of_append h.ne_nil).mpr ends) ?_
      rest ?_ (made.char h.of_append)
    · intro a b hab hlt hends
      obtain ⟨a', rfl, hs, hends'⟩ := hbefore a b hab hends
      exact least a' b hs (by simpa using hlt) hends'
    · rw [escapes_char h.of_append]
      simp only [List.length_append, List.length_cons, List.length_nil] at np ⊢
      omega
  | last never rest made =>
    refine .last ?_ rest (made.char h)
    intro a b hab hends
    obtain ⟨a', -, hs, hends'⟩ := hbefore a b hab hends
    exact never a' b hs hends'

/-- A turn of the loop for a character that is no backslash. -/
theorem scanElem_char (h : c ≠ '\\') : scanElem sep lev npa seen (c :: s) =
    if c = '{' then scanElem sep (lev + 1) npa (seen ++ [c]) s
    else if c = '}' then
      if lev - 1 = 0 ∧ seen.head? = some '{' then
        if npa = 0 ∧ s = [] then ⟨seen.tail, seen.length + 1, none⟩
        else if npa = 0 ∧ s.head? = some sep.chr then ⟨seen.tail, seen.length + 2, some s.tail⟩
        else scanElem sep (lev - 1) (npa + 1) (seen ++ [c]) s
      else scanElem sep (lev - 1) npa (seen ++ [c]) s
    else if lev = 0 ∧ c = sep.chr then ⟨seen, seen.length + 1, some s⟩
    else scanElem sep lev npa (seen ++ [c]) s := by
  rw [scanElem.eq_def]
  exact if_neg h

/-- The braces around an element are cut off. -/
theorem made_cut (h : seen.head? = some '{') : Made sep seen ['}'] seen.tail := by
  cases seen with
  | nil => cases h
  | cons x seen =>
    cases h
    refine ⟨['{', '}'], .inr rfl, ?_⟩
    have hmove : ('{' :: (seen ++ ['}'])).Perm (seen ++ ['{', '}']) := List.perm_middle.symm
    simpa [escapes] using hmove

theorem scanElem_spec (sep : Sep) (s : Text) : ∀ (lev : Int) (npa : Nat) (seen : Text),
    Scanned sep lev seen s (scanElem sep lev npa seen s) := by
  induction s using escape_induct sep with
  | nil =>
    intro lev npa seen
    refine .last (by simp) (by rw [scanElem]) ⟨[], .inl rfl, ?_⟩
    simp [scanElem, escapes]
  | pair d s hd ih =>
    intro lev npa seen
    rw [scanElem, if_pos rfl, if_pos hd]
    exact (ih lev npa (seen ++ [d])).pair hd
  | char c s hplain ih =>
    intro lev npa seen
    have hbrace := sep.brace
    by_cases hback : c = '\\'
    · have hdepth : lev + depth c = lev := by
        rw [hback]
        exact Int.add_zero lev
      have hstep : scanElem sep lev npa seen (c :: s) = scanElem sep lev npa (seen ++ [c]) s := by
        cases s with
        | nil =>
          subst hback
          rfl
        | cons d s =>
          rw [scanElem, if_pos hback, if_neg]
          rw [hplain hback d rfl]
          exact Bool.false_ne_true
      rw [hstep]
      refine Scanned.char hplain (fun hc => absurd (hc.symm.trans hback) sep.backslash) ?_
      rw [hdepth]
      exact ih lev npa (seen ++ [c])
    by_cases hopen : c = '{'
    · rw [scanElem_char hback, if_pos hopen]
      refine Scanned.char hplain (fun hc => absurd (hc.symm.trans hopen) hbrace.1) ?_
      have hdepth : depth c = 1 := if_pos hopen
      rw [hdepth]
      exact ih (lev + 1) npa (seen ++ [c])
    by_cases hclose : c = '}'
    · have hdepth : lev + depth c = lev - 1 := by
        rw [hclose]
        rfl
      have hgo : ∀ npa, Scanned sep lev seen (c :: s)
          (scanElem sep (lev - 1) npa (seen ++ [c]) s) := by
        intro npa
        refine Scanned.char hplain (fun hc => absurd (hc.symm.trans hclose) hbrace.2) ?_
        rw [hdepth]
        exact ih (lev - 1) npa (seen ++ [c])
      rw [scanElem_char hback, if_neg hopen, if_pos hclose]
      split_ifs with hcut hend hsep
      · obtain ⟨-, rfl⟩ := hend
        subst hclose
        refine .last ?_ rfl (made_cut hcut.2)
        intro a b hab
        cases a with
        | nil => exact absurd (List.cons.inj hab).1.symm hbrace.2
        | cons x a => simp at hab
      · obtain ⟨-, hhead⟩ := hsep
        subst hclose
        cases s with
        | nil => cases hhead
        | cons x s =>
          cases hhead
          refine .ended ['}'] s rfl ⟨?_, by decide⟩ ?_ rfl ?_ (made_cut hcut.2)
          · exact hcut.1
          · intro a b hab hlt
            cases a with
            | nil => exact absurd (List.cons.inj hab).1.symm hbrace.2
            | cons y a => simp at hlt
          · simp [escapes]
      · exact hgo (npa + 1)
      · exact hgo npa
    · have hdepth : lev + depth c = lev := by
        rw [depth, if_neg hopen, if_neg hclose, Int.add_zero]
      rw [scanElem_char hback, if_neg hopen, if_neg hclose]
      split_ifs with hend
      · obtain ⟨rfl, rfl⟩ := hend
        refine .ended [] s rfl (ends_nil.mpr rfl) (by simp) rfl (by simp [escapes]) ⟨[], .inl rfl, ?_⟩
        simp [escapes]
      · refine Scanned.char hplain (fun hc hlev => hend ⟨hlev, hc⟩) ?_
        rw [hdepth]
        exact ih lev npa (seen ++ [c])

end

/-! ## The loop over the elements -/

theorem scanElem_rest (sep : Sep) {s r : Text} (h : (scanElem sep 0 0 [] s).rest = some r) :
    ∃ t, s = t ++ sep.chr :: r ∧ Ends sep 0 t ∧
      (∀ a b, s = a ++ sep.chr :: b → a.length < t.length → ¬Ends sep 0 a) ∧
      (scanElem sep 0 0 [] s).np + escapes sep t = t.length + 1 ∧
      Made sep [] t (scanElem sep 0 0 [] s).text := by
  cases scanElem_spec sep s 0 0 [] with
  | ended t r' split ends least rest np made =>
    rw [h] at rest
    cases rest
    exact ⟨t, split, ends, least, by simpa using np, made⟩
  | last never rest made =>
    rw [h] at rest
    cases rest

theorem scanElem_none (sep : Sep) {s : Text} (h : (scanElem sep 0 0 [] s).rest = none) :
    (∀ a b, s = a ++ sep.chr :: b → ¬Ends sep 0 a) ∧ Made sep [] s (scanElem sep 0 0 [] s).text := by
  cases scanElem_spec sep s 0 0 [] with
  | ended t r split ends least rest np made =>
    rw [h] at rest
    cases rest
  | last never rest made => exact ⟨never, made⟩

theorem rest_length_lt (sep : Sep) {s r : Text} (h : (scanElem sep 0 0 [] s).rest = some r) :
    r.length < s.length := by
  obtain ⟨t, hs, -⟩ := scanElem_rest sep h
  rw [hs, List.length_append, List.length_cons]
  omega

/-- What the function that `scan_ListX` calls gets: the element, `SLNEP` as an offset in the list,
and a state. It gives the code that ends the loop if it is not zero, and the state. -/
abbrev ListFunc (σ : Type) := Text → Option Nat → σ → Int × σ

/-- What is known after the loop: the code, the number of elements, `SLNEP`, and the state. -/
structure Scan (σ : Type) where
  rcode : Int
  nelm : Nat
  SLNEP : Option Nat
  state : σ

/-- The loop of `scan_ListX`. `off` is `lp - list` in the copy. -/
def listLoop {σ : Type} (sep : Sep) (func : ListFunc σ) (s : Text) (off : Nat) (now : Scan σ) :
    Scan σ :=
  if s = [] then now
  else
    let e := scanElem sep 0 0 [] s
    let SLNEP := e.rest.map fun _ => off + e.np
    let r := func e.text SLNEP now.state
    let next := ⟨r.1, now.nelm + 1, SLNEP, r.2⟩
    if r.1 ≠ 0 then next
    else
      match _hrest : e.rest with
      | none => next
      | some rest => listLoop sep func rest (off + e.np) next
termination_by s.length
decreasing_by exact rest_length_lt sep _hrest

def scan_ListX {σ : Type} (sep : Sep) (func : ListFunc σ) (list : Text) (state : σ) : Scan σ :=
  listLoop sep func list 0 ⟨0, 0, none, state⟩

/-- The elements that `scan_List` passes to its function. -/
def scan_List (sep : Sep) (list : Text) : List Text :=
  (scan_ListX sep (fun lp _ passed => (0, passed ++ [lp])) list []).state

def num_ListElems (sep : Sep) (list : Text) : Nat :=
  (scan_ListX sep (fun _ _ u => (0, u)) list ()).nelm

/-- `list1`, with the number of elements and the buffer for the first one. -/
def list1 (mac : Nat) : ListFunc (Nat × Text) := fun l1 SLNEP st =>
  if mac ≤ st.1 then (-1, st)
  else if st.1 + 1 = mac ∧ SLNEP.isSome then (-1, st.1 + 1, l1)
  else (0, st.1 + 1, l1)

/-- The first element, and the list behind it. -/
def scan_ListElem1 (sep : Sep) (list : Text) : Text × Text :=
  let r := scan_ListX sep (list1 1) list (0, [])
  (r.state.2, match r.SLNEP with
    | some next => list.drop next
    | none => list.drop list.length)

theorem listLoop_of_ne {σ : Type} (sep : Sep) (func : ListFunc σ) {s : Text} (h : s ≠ [])
    (off : Nat) (now : Scan σ) : listLoop sep func s off now =
      let e := scanElem sep 0 0 [] s
      let SLNEP := e.rest.map fun _ => off + e.np
      let r := func e.text SLNEP now.state
      let next : Scan σ := ⟨r.1, now.nelm + 1, SLNEP, r.2⟩
      if r.1 ≠ 0 then next
      else
        match e.rest with
        | none => next
        | some rest => listLoop sep func rest (off + e.np) next := by
  rw [listLoop, if_neg h]
  dsimp only
  split
  · rfl
  · split <;> rename_i hrest <;> rw [hrest]

/-- `scan_ListElem1` goes on behind as many characters of the list as its copy has. -/
theorem scan_ListElem1_eq (sep : Sep) {s : Text} (h : s ≠ []) : scan_ListElem1 sep s =
    ((scanElem sep 0 0 [] s).text,
      if (scanElem sep 0 0 [] s).rest.isSome then s.drop (scanElem sep 0 0 [] s).np else []) := by
  unfold scan_ListElem1 scan_ListX
  rw [listLoop_of_ne sep _ h]
  cases hrest : (scanElem sep 0 0 [] s).rest with
  | none => simp [list1, hrest]
  | some r => simp [list1, hrest]

theorem scan_ListElem1_lt (sep : Sep) {s : Text} (h : s ≠ []) :
    (scan_ListElem1 sep s).2.length < s.length := by
  have hpos : 0 < s.length := List.length_pos_iff.mpr h
  rw [scan_ListElem1_eq sep h]
  dsimp only
  cases hrest : (scanElem sep 0 0 [] s).rest with
  | none => simpa using hpos
  | some r =>
    obtain ⟨t, -, -, -, hnp, -⟩ := scanElem_rest sep hrest
    have hle := escapes_le sep t
    simp only [Option.isSome_some, if_true, List.length_drop]
    omega

/-- The elements that are got one after another, until the end is reached. -/
def iterated (sep : Sep) (list : Text) : List Text :=
  if _h : list = [] then []
  else (scan_ListElem1 sep list).1 :: iterated sep (scan_ListElem1 sep list).2
termination_by list.length
decreasing_by exact scan_ListElem1_lt sep _h

/-! ## The elements of a list -/

/-- The elements, one after another. -/
def elems (sep : Sep) (s : Text) : List Text :=
  if s = [] then []
  else
    (scanElem sep 0 0 [] s).text ::
      match _hrest : (scanElem sep 0 0 [] s).rest with
      | none => []
      | some r => elems sep r
termination_by s.length
decreasing_by exact rest_length_lt sep _hrest

section
variable {sep : Sep} {s r t : Text}

theorem elems_nil : elems sep [] = [] := by
  rw [elems]
  exact if_pos rfl

theorem elems_last (h : s ≠ []) (hrest : (scanElem sep 0 0 [] s).rest = none) :
    elems sep s = [(scanElem sep 0 0 [] s).text] := by
  rw [elems, if_neg h]
  split
  · rfl
  · rename_i hr
    rw [hrest] at hr
    cases hr

theorem elems_ended (hrest : (scanElem sep 0 0 [] s).rest = some r) :
    elems sep s = (scanElem sep 0 0 [] s).text :: elems sep r := by
  have hne : s ≠ [] := by
    rintro rfl
    simp [scanElem] at hrest
  rw [elems, if_neg hne]
  split
  · rename_i hr
    rw [hrest] at hr
    cases hr
  · rename_i r' hr
    rw [hrest] at hr
    cases hr
    rfl

/-- A list is read element by element. -/
theorem elems_induct (sep : Sep) {motive : Text → Prop} (nil : motive [])
    (last : ∀ s, s ≠ [] → (scanElem sep 0 0 [] s).rest = none → motive s)
    (ended : ∀ s r, (scanElem sep 0 0 [] s).rest = some r → motive r → motive s) (s : Text) :
    motive s := by
  induction s using elems.induct sep with
  | case1 => exact nil
  | case2 s hne ih =>
    cases hrest : (scanElem sep 0 0 [] s).rest with
    | none => exact last s hne hrest
    | some r => exact ended s r hrest (ih r hrest)

/-- A turn of the loop with a function that does not end it. -/
theorem listLoop_turn {σ : Type} {func : ListFunc σ} (hfunc : ∀ l n st, (func l n st).1 = 0)
    (hrest : (scanElem sep 0 0 [] s).rest = some r) (off : Nat) (now : Scan σ) :
    ∃ off' SLNEP, listLoop sep func s off now = listLoop sep func r off'
      ⟨0, now.nelm + 1, SLNEP, (func (scanElem sep 0 0 [] s).text SLNEP now.state).2⟩ := by
  have hne : s ≠ [] := by
    rintro rfl
    simp [scanElem] at hrest
  rw [listLoop_of_ne sep func hne]
  dsimp only
  rw [if_neg (not_not.mpr (hfunc _ _ _)), hrest, hfunc]
  exact ⟨_, _, rfl⟩

theorem listLoop_last {σ : Type} {func : ListFunc σ} (hne : s ≠ [])
    (hrest : (scanElem sep 0 0 [] s).rest = none) (off : Nat) (now : Scan σ) :
    (listLoop sep func s off now).state =
        (func (scanElem sep 0 0 [] s).text none now.state).2 ∧
      (listLoop sep func s off now).nelm = now.nelm + 1 := by
  rw [listLoop_of_ne sep func hne]
  dsimp only
  rw [hrest]
  dsimp only [Option.map]
  split <;> exact ⟨rfl, rfl⟩

/-- The elements that are counted. -/
theorem listLoop_nelm {σ : Type} {func : ListFunc σ} (hfunc : ∀ l n st, (func l n st).1 = 0)
    (s : Text) (off : Nat) (now : Scan σ) :
    (listLoop sep func s off now).nelm = now.nelm + (elems sep s).length := by
  induction s using elems_induct sep generalizing off now with
  | nil =>
    rw [listLoop, if_pos rfl, elems_nil]
    rfl
  | last s hne hrest =>
    rw [(listLoop_last hne hrest off now).2, elems_last hne hrest]
    rfl
  | ended s r hrest ih =>
    obtain ⟨off', SLNEP, hturn⟩ := listLoop_turn hfunc hrest off now
    rw [hturn, ih, elems_ended hrest, List.length_cons]
    dsimp only
    omega

/-- A function that never ends the loop gets all the elements, one after another. -/
theorem listLoop_state {σ : Type} {func : ListFunc σ} {f : σ → Text → σ}
    (hfunc : ∀ l n st, func l n st = (0, f st l)) (s : Text) (off : Nat) (now : Scan σ) :
    (listLoop sep func s off now).state = (elems sep s).foldl f now.state := by
  induction s using elems_induct sep generalizing off now with
  | nil => rw [listLoop, if_pos rfl, elems_nil, List.foldl_nil]
  | last s hne hrest =>
    rw [(listLoop_last hne hrest off now).1, elems_last hne hrest, hfunc]
    simp
  | ended s r hrest ih =>
    have hzero : ∀ l n st, (func l n st).1 = 0 := by
      intro l n st
      rw [hfunc]
    obtain ⟨off', SLNEP, hturn⟩ := listLoop_turn hzero hrest off now
    rw [hturn, ih, elems_ended hrest, hfunc]
    simp

/-- The elements that are passed. -/
theorem listLoop_passed (s : Text) (off : Nat) (now : Scan (List Text)) :
    (listLoop sep (fun lp _ passed => (0, passed ++ [lp])) s off now).state =
      now.state ++ elems sep s := by
  rw [listLoop_state (fun _ _ _ => rfl), List.foldl_append_eq_append, ← List.flatMap_def,
    List.flatMap_singleton']

theorem scan_List_eq (sep : Sep) (s : Text) : scan_List sep s = elems sep s :=
  (listLoop_passed s 0 _).trans (List.nil_append _)

theorem num_ListElems_eq (sep : Sep) (s : Text) : num_ListElems sep s = (elems sep s).length :=
  (listLoop_nelm (fun _ _ _ => rfl) s 0 _).trans (Nat.zero_add _)

theorem iterated_nil : iterated sep [] = [] := by
  rw [iterated]
  exact dif_pos rfl

theorem iterated_last (h : s ≠ []) (hrest : (scanElem sep 0 0 [] s).rest = none) :
    iterated sep s = [(scanElem sep 0 0 [] s).text] := by
  rw [iterated, dif_neg h, scan_ListElem1_eq sep h, hrest]
  dsimp only
  rw [if_neg (by simp), iterated_nil]

theorem iterated_ended (hrest : (scanElem sep 0 0 [] s).rest = some r) :
    iterated sep s =
      (scanElem sep 0 0 [] s).text :: iterated sep (s.drop (scanElem sep 0 0 [] s).np) := by
  have hne : s ≠ [] := by
    rintro rfl
    simp [scanElem] at hrest
  rw [iterated, dif_neg hne, scan_ListElem1_eq sep hne, hrest]
  dsimp only
  rw [if_pos (by simp)]

end

/-! ## Lists without escapes -/

/-- Before a separator that ends an element there is no escape. -/
def NoEscape (sep : Sep) (list : Text) : Prop :=
  ∀ a b, list = a ++ sep.chr :: b → Ends sep 0 a → escapes sep a = 0

section
variable {sep : Sep} {s r t a : Text}

theorem sep_counts (sep : Sep) (a : Text) :
    escapes sep (sep.chr :: a) = escapes sep a ∧ level sep (sep.chr :: a) = level sep a := by
  have hplain : Plain sep sep.chr a := fun hc => absurd hc sep.backslash
  have hdepth : depth sep.chr = 0 := by
    rw [depth, if_neg sep.brace.1, if_neg sep.brace.2]
  rw [escapes_char hplain, level_char hplain, hdepth, Int.zero_add]
  exact ⟨rfl, rfl⟩

/-- Behind a separator that ends an element, escapes and levels are those of the text there. -/
theorem ends_append (ht : Ends sep 0 t) (a : Text) :
    escapes sep (t ++ sep.chr :: a) = escapes sep t + escapes sep a ∧
      level sep (t ++ sep.chr :: a) = level sep a ∧
      (Ends sep 0 (t ++ sep.chr :: a) ↔ Ends sep 0 a) := by
  obtain ⟨hesc, hlev⟩ := append_counts sep ht.2 (sep.chr :: a)
  obtain ⟨hesc', hlev'⟩ := sep_counts sep a
  have hzero : level sep t = 0 := by
    have hends := ht.1
    rwa [Int.zero_add] at hends
  rw [hesc'] at hesc
  rw [hlev', hzero, Int.zero_add] at hlev
  refine ⟨hesc, hlev, ?_⟩
  unfold Ends
  rw [hlev]
  cases a with
  | nil => simp [sep.backslash]
  | cons c a => simp

theorem noEscape_ended (hs : s = t ++ sep.chr :: r) (hends : Ends sep 0 t)
    (hleast : ∀ a b, s = a ++ sep.chr :: b → a.length < t.length → ¬Ends sep 0 a) :
    NoEscape sep s ↔ escapes sep t = 0 ∧ NoEscape sep r := by
  constructor
  · intro h
    refine ⟨h t r hs hends, ?_⟩
    intro a b hab ha
    obtain ⟨hesc, -, hiff⟩ := ends_append hends a
    have hzero := h (t ++ sep.chr :: a) b (by rw [hs, hab]; simp) (hiff.mpr ha)
    omega
  · rintro ⟨hzero, h⟩ a b hab ha
    by_cases hlt : a.length < t.length
    · exact absurd ha (hleast a b hab hlt)
    · rw [hs] at hab
      have hpre : t <+: a := by
        apply List.prefix_of_prefix_length_le (List.prefix_append t (sep.chr :: r))
        · rw [hab]
          exact List.prefix_append _ _
        · omega
      obtain ⟨u, rfl⟩ := hpre
      rw [List.append_assoc, List.append_cancel_left_eq] at hab
      cases u with
      | nil =>
        rw [List.append_nil]
        exact hzero
      | cons c u =>
        obtain ⟨rfl, hr⟩ := List.cons.inj hab
        obtain ⟨hesc, -, hiff⟩ := ends_append hends u
        rw [hesc, hzero, h u b hr (hiff.mp ha)]

/-- What `scan_ListElem1` goes on with: the text behind the separator, or what begins as many
characters before it as there were escapes. -/
theorem drop_np {np : Nat} (hnp : np + escapes sep t = t.length + 1) :
    (t ++ sep.chr :: r).drop np =
      if escapes sep t = 0 then r else t.drop np ++ sep.chr :: r := by
  split
  · have hlen : np = (t ++ [sep.chr]).length := by
      rw [List.length_append, List.length_singleton]
      omega
    have happ : t ++ sep.chr :: r = (t ++ [sep.chr]) ++ r := by simp
    rw [happ, hlen, List.drop_left]
  · rw [List.drop_append_of_le_length (by omega)]

theorem iterated_of_noEscape (h : NoEscape sep s) : iterated sep s = elems sep s := by
  induction s using elems_induct sep with
  | nil => rw [iterated_nil, elems_nil]
  | last s hne hrest => rw [iterated_last hne hrest, elems_last hne hrest]
  | ended s r hrest ih =>
    obtain ⟨t, hs, hends, hleast, hnp, -⟩ := scanElem_rest sep hrest
    obtain ⟨hzero, hr⟩ := (noEscape_ended hs hends hleast).mp h
    have hdrop : s.drop (scanElem sep 0 0 [] s).np = r := by
      have hd := drop_np (r := r) hnp
      rw [if_pos hzero, ← hs] at hd
      exact hd
    rw [iterated_ended hrest, elems_ended hrest, hdrop, ih hr]

/-! ## Lists with escapes -/

/-- The characters of an element that are neither braces nor backslashes. -/
theorem Made.count_sep {text : Text} (h : Made sep [] t text) :
    t.count sep.chr = text.count sep.chr := by
  obtain ⟨cut, hcut, hperm⟩ := h
  have hcount := hperm.count_eq sep.chr
  have hback : (List.replicate (escapes sep t) '\\').count sep.chr = 0 :=
    List.count_eq_zero.mpr fun hmem => sep.backslash (List.eq_of_mem_replicate hmem)
  have hbrace : cut.count sep.chr = 0 := by
    rcases hcut with rfl | rfl
    · rfl
    · apply List.count_eq_zero.mpr
      simp [sep.brace]
  rw [List.nil_append, List.count_append, List.count_append, hback, hbrace] at hcount
  exact hcount

/-- The open braces of a text, escaped or not. -/
def braces (s : Text) : Int := (s.count '{' : Int) - s.count '}'

theorem braces_append (s t : Text) : braces (s ++ t) = braces s + braces t := by
  unfold braces
  rw [List.count_append, List.count_append]
  push_cast
  ring

theorem Made.braces {text : Text} (h : Made sep [] t text) : list.braces t = list.braces text := by
  obtain ⟨cut, hcut, hperm⟩ := h
  have hopen := hperm.count_eq '{'
  have hclose := hperm.count_eq '}'
  have hback : ∀ c : Char, c ≠ '\\' → (List.replicate (escapes sep t) '\\').count c = 0 :=
    fun c hc => List.count_eq_zero.mpr fun hmem => hc (List.eq_of_mem_replicate hmem)
  have hcount : cut.count '{' = cut.count '}' := by
    rcases hcut with rfl | rfl <;> rfl
  rw [List.nil_append, List.count_append, List.count_append, hback _ (by decide)] at hopen hclose
  unfold list.braces
  omega

/-- Without escapes the level is that of the braces. -/
theorem level_eq_braces (h : escapes sep s = 0) : level sep s = braces s := by
  induction s using escape_induct sep with
  | nil => rfl
  | pair d s hd ih =>
    rw [escapes_pair hd] at h
    cases h
  | char c s hplain ih =>
    rw [escapes_char hplain] at h
    have hone : depth c = braces [c] := by
      by_cases hopen : c = '{'
      · rw [hopen]
        rfl
      · by_cases hclose : c = '}'
        · rw [hclose]
          rfl
        · simp [depth, braces, hopen, hclose]
    have hcons : braces (c :: s) = braces [c] + braces s := braces_append [c] s
    rw [level_char hplain, ih h, hcons, hone]

theorem escapes_pos {d : Char} (hd : sep.escapable d = true) (a b : Text) :
    escapes sep (a ++ '\\' :: d :: b) ≠ 0 := by
  induction a using escape_induct sep with
  | nil =>
    rw [List.nil_append, escapes_pair hd]
    exact Nat.succ_ne_zero _
  | pair e s he ih =>
    have hcons : '\\' :: e :: s ++ '\\' :: d :: b = '\\' :: e :: (s ++ '\\' :: d :: b) := rfl
    rw [hcons, escapes_pair he]
    exact Nat.succ_ne_zero _
  | char c s hplain ih =>
    have hplain' : Plain sep c (s ++ '\\' :: d :: b) := by
      intro hc e he
      cases s with
      | nil =>
        cases he
        exact Bool.eq_false_of_not_eq_true fun hesc => escapable_facts hesc rfl
      | cons f s => exact hplain hc e he
    rw [List.cons_append, escapes_char hplain']
    exact ih

/-- The separators in elements, and one for each element. -/
def separators (sep : Sep) (es : List Text) : Nat := es.flatten.count sep.chr + es.length

theorem separators_cons (e : Text) (es : List Text) :
    separators sep (e :: es) = e.count sep.chr + 1 + separators sep es := by
  unfold separators
  rw [List.flatten_cons, List.count_append, List.length_cons]
  omega

theorem count_split (sep : Sep) (t r : Text) :
    (t ++ sep.chr :: r).count sep.chr = t.count sep.chr + 1 + r.count sep.chr := by
  rw [List.count_append, List.count_cons_self]
  omega

theorem getLast_behind (t a : Text) (c : Char) :
    (t ++ sep.chr :: (a ++ [c])).getLast? = some c := by
  have happ : t ++ sep.chr :: (a ++ [c]) = (t ++ sep.chr :: a) ++ [c] := by simp
  rw [happ, List.getLast?_concat]

/-- The elements have the separators of the list, and one more if none ends the last element. -/
theorem separators_elems (sep : Sep) (s : Text) :
    separators sep (elems sep s) ≤ s.count sep.chr + 1 ∧ braces s = braces (elems sep s).flatten ∧
      (s = [] ∨ (∃ a, s = a ++ [sep.chr] ∧ Ends sep 0 a) →
        separators sep (elems sep s) = s.count sep.chr) := by
  induction s using elems_induct sep with
  | nil =>
    rw [elems_nil]
    exact ⟨Nat.zero_le _, rfl, fun _ => rfl⟩
  | last s hne hrest =>
    obtain ⟨hnever, hmade⟩ := scanElem_none sep hrest
    have hcount := hmade.count_sep
    rw [elems_last hne hrest, separators_cons, List.flatten_singleton, hmade.braces]
    refine ⟨?_, rfl, ?_⟩
    · rw [hcount]
      exact Nat.le_refl _
    · rintro (hnil | ⟨a, hs, hends⟩)
      · exact absurd hnil hne
      · exact absurd hends (hnever a [] hs)
  | ended s r hrest ih =>
    obtain ⟨t, hs, hends, -, -, hmade⟩ := scanElem_rest sep hrest
    obtain ⟨hle, hbraces, hclosed⟩ := ih
    have hsplit := count_split sep t r
    rw [← hs, hmade.count_sep] at hsplit
    rw [elems_ended hrest, separators_cons, List.flatten_cons, braces_append, ← hmade.braces,
      ← hbraces, hsplit]
    refine ⟨by omega, ?_, ?_⟩
    · have hsep : braces (sep.chr :: r) = braces r := by
        have hcons : braces (sep.chr :: r) = braces [sep.chr] + braces r :=
          braces_append [sep.chr] r
        have hzero : braces [sep.chr] = 0 := by simp [braces, sep.brace]
        rw [hcons, hzero, Int.zero_add]
      rw [hs, braces_append, hsep]
    · intro h
      rw [hclosed]
      rcases h with hnil | ⟨a, ha, hends'⟩
      · exact absurd (hs.symm.trans hnil) (by simp)
      · rcases List.eq_nil_or_concat r with hr | ⟨r', c, rfl⟩
        · exact .inl hr
        · right
          rw [hs, List.concat_eq_append, ← List.cons_append, ← List.append_assoc] at ha
          obtain ⟨rfl, hc⟩ := List.append_inj' ha rfl
          rw [List.concat_eq_append, (List.cons.inj hc).1]
          exact ⟨r', rfl, (ends_append hends r').2.2.mp hends'⟩

/-- The elements that are got one after another have no fewer separators than the list. When they
have as many, they are the elements of the list, which has no escapes and ends with a separator. -/
theorem separators_iterated (sep : Sep) (s : Text) :
    s.count sep.chr ≤ separators sep (iterated sep s) ∧
      (separators sep (iterated sep s) = s.count sep.chr →
        iterated sep s = elems sep s ∧ escapes sep s = 0 ∧ level sep s = 0 ∧
          (s = [] ∨ s.getLast? = some sep.chr)) := by
  induction hn : s.length using Nat.strongRecOn generalizing s with
  | ind n ih =>
    subst hn
    by_cases hne : s = []
    · rw [hne, iterated_nil, elems_nil]
      exact ⟨Nat.zero_le _, fun _ => ⟨rfl, rfl, rfl, .inl rfl⟩⟩
    · cases hrest : (scanElem sep 0 0 [] s).rest with
      | none =>
        obtain ⟨-, hmade⟩ := scanElem_none sep hrest
        have hnil : separators sep [] = 0 := rfl
        rw [iterated_last hne hrest, separators_cons, ← hmade.count_sep, hnil]
        exact ⟨by omega, fun h => absurd h (by omega)⟩
      | some r =>
        obtain ⟨t, hs, hends, -, hnp, hmade⟩ := scanElem_rest sep hrest
        have hlt : (s.drop (scanElem sep 0 0 [] s).np).length < s.length := by
          have hle := escapes_le sep t
          have hlen := congrArg List.length hs
          rw [List.length_append, List.length_cons] at hlen
          rw [List.length_drop]
          omega
        obtain ⟨hle, heq⟩ := ih _ hlt _ rfl
        have hsplit := count_split sep t r
        rw [← hs, hmade.count_sep] at hsplit
        have hdrop := drop_np (r := r) hnp
        rw [← hs] at hdrop
        rw [iterated_ended hrest, elems_ended hrest, separators_cons]
        by_cases hzero : escapes sep t = 0
        · rw [if_pos hzero] at hdrop
          rw [hdrop] at hle heq ⊢
          refine ⟨by omega, ?_⟩
          intro h
          obtain ⟨hiter, hesc, hlev, hlast⟩ := heq (by omega)
          obtain ⟨hesc', hlev', -⟩ := ends_append hends r
          rw [← hs] at hesc' hlev'
          refine ⟨by rw [hiter], by omega, by rw [hlev', hlev], .inr ?_⟩
          rw [hs]
          rcases hlast with rfl | hlast
          · simp
          · obtain ⟨a, rfl⟩ := List.getLast?_eq_some_iff.mp hlast
            exact getLast_behind t a sep.chr
        · rw [if_neg hzero] at hdrop
          have hmore := count_split sep (t.drop (scanElem sep 0 0 [] s).np) r
          rw [← hdrop] at hmore
          exact ⟨by omega, fun h => absurd h (by omega)⟩

/-- What is got from before a separator is not what is behind it. -/
theorem iterated_before (y r : Text) : iterated sep (y ++ sep.chr :: r) ≠ elems sep r := by
  intro heq
  obtain ⟨hle, hwhole⟩ := separators_iterated sep (y ++ sep.chr :: r)
  obtain ⟨hle', hbraces', hclosed⟩ := separators_elems sep r
  have hsplit := count_split sep y r
  rw [heq] at hle hwhole
  obtain ⟨helems, hesc, hlev, hlast⟩ := hwhole (by omega)
  have hne : r ≠ [] := fun hnil => by
    have hcount := hclosed (.inl hnil)
    omega
  -- The last separator of `r` would end an element of it.
  have happ : y ++ sep.chr :: r = (y ++ [sep.chr]) ++ r := by simp
  have hback : (y ++ [sep.chr]).getLast? ≠ some '\\' := by simp [sep.backslash]
  have hesc' := (append_counts sep hback r).1
  rw [← happ] at hesc'
  have hzero : escapes sep r = 0 := by omega
  have hlev' : level sep r = 0 := by
    rw [level_eq_braces hzero, hbraces', helems, ← (separators_elems sep (y ++ sep.chr :: r)).2.1,
      ← level_eq_braces hesc, hlev]
  obtain ⟨a, c, rfl⟩ := (List.eq_nil_or_concat r).resolve_left hne
  rw [List.concat_eq_append] at *
  have hc : c = sep.chr := by
    rcases hlast with hnil | hlast
    · simp at hnil
    · rw [getLast_behind] at hlast
      exact Option.some.inj hlast
  subst hc
  have hends : Ends sep 0 a := by
    have hlast' : a.getLast? ≠ some '\\' := by
      intro hlast'
      obtain ⟨b, rfl⟩ := List.getLast?_eq_some_iff.mp hlast'
      rw [List.append_assoc] at hzero
      exact escapes_pos (escapable_sep sep) b [] hzero
    have hsum := (append_counts sep hlast' [sep.chr]).2
    have hone : level sep [sep.chr] = 0 := (sep_counts sep []).2
    exact ⟨by omega, hlast'⟩
  have hcount := hclosed (.inr ⟨a, rfl, hends⟩)
  omega

theorem iterated_iff (s : Text) : iterated sep s = elems sep s ↔ NoEscape sep s := by
  refine ⟨?_, iterated_of_noEscape⟩
  intro heq
  induction hn : s.length using Nat.strongRecOn generalizing s with
  | ind n ih =>
    subst hn
    cases hrest : (scanElem sep 0 0 [] s).rest with
    | none =>
      intro a b hab hends
      exact absurd hends ((scanElem_none sep hrest).1 a b hab)
    | some r =>
      obtain ⟨t, hs, hends, hleast, hnp, -⟩ := scanElem_rest sep hrest
      have hdrop := drop_np (r := r) hnp
      rw [← hs] at hdrop
      rw [iterated_ended hrest, elems_ended hrest] at heq
      have htail := (List.cons.inj heq).2
      by_cases hzero : escapes sep t = 0
      · rw [hdrop, if_pos hzero] at htail
        exact (noEscape_ended hs hends hleast).mpr
          ⟨hzero, ih r.length (rest_length_lt sep hrest) r htail rfl⟩
      · rw [hdrop, if_neg hzero] at htail
        exact absurd htail (iterated_before _ r)

end

/-! ## Plain lists -/

/-- A list without braces and backslashes. -/
def PlainList (s : Text) : Prop := ∀ c ∈ s, c ≠ '{' ∧ c ≠ '}' ∧ c ≠ '\\'

/-- The pieces between separators, without an empty last one. -/
def pieces (sep : Sep) (s : Text) : List Text :=
  (segs.split sep.chr s).1 ++ if (segs.split sep.chr s).2 = [] then [] else [(segs.split sep.chr s).2]

section
variable {sep : Sep} {s t r : Text}

/-- A plain text is read as it is, up to the separator. -/
theorem scanElem_plain (hplain : PlainList t) (hsep : sep.chr ∉ t) (seen r : Text) :
    scanElem sep 0 0 seen (t ++ r) = scanElem sep 0 0 (seen ++ t) r := by
  induction t generalizing seen with
  | nil => rw [List.nil_append, List.append_nil]
  | cons c t ih =>
    obtain ⟨hopen, hclose, hback⟩ := hplain c List.mem_cons_self
    rw [List.mem_cons, not_or] at hsep
    have hrest := ih (fun d hd => hplain d (List.mem_cons_of_mem _ hd)) hsep.2 (seen ++ [c])
    rw [List.cons_append, scanElem_char hback, if_neg hopen, if_neg hclose,
      if_neg fun h => hsep.1 h.2.symm, hrest, List.append_assoc]
    rfl

theorem elems_plain (hplain : PlainList s) : elems sep s = pieces sep s := by
  induction hn : s.length using Nat.strongRecOn generalizing s with
  | ind n ih =>
    subst hn
    by_cases hne : s = []
    · rw [hne, elems_nil]
      rfl
    by_cases hsep : sep.chr ∈ s
    · obtain ⟨t, r, rfl, ht⟩ := List.eq_append_cons_of_mem hsep
      have hscan := scanElem_plain (fun c hc => hplain c (List.mem_append_left _ hc)) ht []
        (sep.chr :: r)
      rw [List.nil_append, scanElem_char sep.backslash, if_neg sep.brace.1, if_neg sep.brace.2,
        if_pos ⟨rfl, rfl⟩] at hscan
      have hr : PlainList r := fun c hc => hplain c (by simp [hc])
      have hrest : (scanElem sep 0 0 [] (t ++ sep.chr :: r)).rest = some r := by rw [hscan]
      rw [elems_ended hrest, hscan, ih r.length (rest_length_lt sep hrest) hr rfl, pieces, pieces,
        segs.split_append_sep ht]
      rfl
    · have hscan := scanElem_plain hplain hsep [] []
      rw [List.append_nil, List.nil_append] at hscan
      have hend : scanElem sep 0 0 s [] = ⟨s, s.length, none⟩ := by rw [scanElem]
      rw [hend] at hscan
      rw [elems_last hne (by rw [hscan]), hscan, pieces, segs.split_of_not_mem hsep, if_neg hne]
      rfl

end

/-! ## The three ways agree -/

/-- The elements that are got one after another are those that are passed, as many as are counted,
and the pieces of a plain list. -/
structure ListAgrees (sep : Sep) (list : Text) : Prop where
  same : iterated sep list = scan_List sep list
  count : (iterated sep list).length = num_ListElems sep list
  plain : PlainList list → scan_List sep list = pieces sep list

theorem listAgrees_iff (sep : Sep) (list : Text) : ListAgrees sep list ↔ NoEscape sep list := by
  constructor
  · intro h
    rw [← iterated_iff, ← scan_List_eq]
    exact h.same
  · intro h
    have hsame := (iterated_iff list).mpr h
    refine ⟨?_, ?_, ?_⟩
    · rw [hsame, scan_List_eq]
    · rw [hsame, num_ListElems_eq]
    · intro hplain
      rw [scan_List_eq, elems_plain hplain]

def comma : Sep := ⟨',', by decide, by decide, by decide⟩

/-- `a\,b,c`: behind the escape the second element begins at its separator. -/
theorem escaped_comma_differs :
    iterated comma ['a', '\\', ',', 'b', ',', 'c'] ≠ scan_List comma ['a', '\\', ',', 'b', ',', 'c'] := by
  rw [scan_List_eq, ne_eq, iterated_iff]
  intro h
  have hzero := h ['a', '\\', ',', 'b'] ['c'] rfl ⟨by decide, by decide⟩
  exact absurd hzero (by decide)

end delegate.list
