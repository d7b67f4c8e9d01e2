-- Texts that are generated from tags by a format (uvtosf and utosX,
-- rary/String.cpp). What is written is kept piece by piece, so that a tag and a
-- separator can be told apart.
import Delegate.UTags

open ctext

namespace delegate.utag

/-! ## The pure model -/

/-- A vector of tags: those that are filled, those of `uvinit` that are not, and a null pointer. -/
structure UTagv where
  filled : List UTag
  unfilled : Nat

def UTagv.tx (tagv : UTagv) : Nat := tagv.filled.length

/-- What is written at a time: a character of the format, a tag, or a separator. -/
inductive Piece
  | char (c : Char)
  | tag (k : Nat) (s : Text)
  | sep (s : Text)
  deriving DecidableEq

def Piece.text : Piece → Text
  | .char c => [c]
  | .tag _ s => s
  | .sep s => s

/-- `dp - str` -/
def written (out : List Piece) : Nat := (out.flatMap Piece.text).length

/-- What goes wrong: a tag that is not filled is read, the format is read behind its terminator, a
text does not fit, or the turns do not suffice. -/
inductive Fault
  | tag (k : Int)
  | terminator
  | overflow
  | turns
  deriving DecidableEq

/-- `dp += utosX(tagv[tj],AVStr(dp),xp-dp)` -/
def putTag (tagv : UTagv) (siz : Nat) (tj : Int) (out : List Piece) : Except Fault (List Piece) :=
  match tj with
  | .negSucc _ => .error (.tag tj)
  | .ofNat k =>
    match tagv.filled[k]? with
    | none => .error (.tag tj)
    | some tag =>
      if siz ≤ written out + 1 then .error .overflow
      else .ok (out ++ [.tag k (Utos (some tag) (siz - 1 - written out))])

/-- The loop that fills `sep`, with room for `n` bytes. `fc` is the character at `fp`. -/
def sepFor : Nat → Text → Char → Text → Text × Text
  | 0, sp, fc, fp => (sp, fc :: fp)
  | _ + 1, sp, fc, [] => (sp ++ [fc], [fc])
  | n + 1, sp, fc, c :: fp =>
    if c = ')' then (sp ++ [fc], c :: fp) else sepFor n (sp ++ [fc]) c fp

/-- The loop up to the `)`, which fills `sep` again in each turn. -/
def sepWhile : Nat → Text → Text → Except Fault (Text × Text)
  | 0, _, _ => .error .turns
  | _ + 1, _, [] => .error .terminator
  | turns + 1, sep, fc :: fp =>
    if fc = ')' then .ok (sep, fp)
    else sepWhile turns (sepFor 31 [] fc fp).1 (sepFor 31 [] fc fp).2

/-- The loop over the tags from `tj1` to `tj2`. -/
def rangeLoop (tagv : UTagv) (siz : Nat) (sep : Text) (tj1 tj2 tjinc : Int) :
    Nat → Int → List Piece → Except Fault (List Piece)
  | 0, _, _ => .error .turns
  | turns + 1, tj, out =>
    if tagv.tx ≤ tj then .ok out
    else
      match putTag tagv siz tj (if sep ≠ [] ∧ tj ≠ tj1 then out ++ [.sep sep] else out) with
      | .error e => .error e
      | .ok out =>
        if tj = tj2 then .ok out
        else rangeLoop tagv siz sep tj1 tj2 tjinc turns (tj + tjinc) out

/-- The tags between two bounds, which are swapped where they descend. -/
def overRange (tagv : UTagv) (siz : Nat) (sep : Text) (tj1 tj2 : Int) (turns : Nat)
    (out : List Piece) : Except Fault (List Piece) :=
  if tj1 ≤ tj2 then rangeLoop tagv siz sep tj1 tj2 1 turns tj1 out
  else rangeLoop tagv siz sep tj2 tj1 (-1) turns tj2 out

def digit (c : Char) : Nat := c.toNat - '0'.toNat

/-- The second bound, `none` where it is left out, and the format behind it. -/
def secondBound (tj1 : Nat) : Text → Option Nat × Text
  | '-' :: fc :: fp => if fc.isDigit then (some (digit fc), fp) else (none, fc :: fp)
  | '-' :: [] => (none, [])
  | fp => (some tj1, fp)

/-- `tj2` -/
def lastIndex (tx : Nat) (last : Option Nat) : Int := (last.map Int.ofNat).getD (tx - 1)

/-- The directive `%(`, with the format `fp` behind it. -/
def putRange (tagv : UTagv) (siz turns : Nat) (fp : Text) (out : List Piece) :
    Except Fault (Text × List Piece) :=
  match fp with
  | [] => .error .terminator
  | fc :: fp =>
    if fc.isDigit = false then .ok (fp, out)
    else
      match sepWhile turns [] (secondBound (digit fc) fp).2 with
      | .error e => .error e
      | .ok (sep, rest) =>
        match overRange tagv siz sep (digit fc) (lastIndex tagv.tx (secondBound (digit fc) fp).1)
          turns out with
        | .error e => .error e
        | .ok out => .ok (rest, out)

def uvtosf.loop (tagv : UTagv) (siz : Nat) :
    Nat → Text → Nat → List Piece → Except Fault (List Piece)
  | 0, _, _, _ => .error .turns
  | _ + 1, [], _, out => .ok out
  | turns + 1, fc :: fp, ti, out =>
    if siz ≤ written out + 1 then .ok out
    else if fc ≠ '%' then loop tagv siz turns fp ti (out ++ [.char fc])
    else
      match fp with
      | [] => .ok out
      | c :: fp =>
        if c = '%' then loop tagv siz turns fp ti (out ++ [.char '%'])
        else if c = 'S' ∨ c = 's' then
          if tagv.tx + tagv.unfilled ≤ ti then loop tagv siz turns fp ti out
          else
            match putTag tagv siz ti out with
            | .error e => .error e
            | .ok out => loop tagv siz turns fp (ti + 1) out
        else if c = '(' then
          match putRange tagv siz turns fp out with
          | .error e => .error e
          | .ok (fp, out) => loop tagv siz turns fp ti out
        else loop tagv siz turns fp ti out

/-- `uvtosf` with a number of turns for its loops: what is written to `str`. -/
def uvtosf (turns : Nat) (tagv : UTagv) (siz : Nat) (fmt : Text) : Except Fault (List Piece) :=
  uvtosf.loop tagv siz turns fmt 0 []

/-! ## What a format asks for -/

/-- `range i none sep` is `%(i-sep)`, up to the last tag. -/
inductive Item
  | char (c : Char)
  | next
  | skip
  | range (i : Nat) (last : Option Nat) (sep : Text)
  | broken

/-- The directive `%(`, which ends at a `)`. -/
def readRange : Text → Item × Text
  | [] => (.broken, [])
  | d :: fp =>
    if d.isDigit = false then (.skip, fp)
    else if ')' ∈ (secondBound (digit d) fp).2 then
      (.range (digit d) (secondBound (digit d) fp).1
        ((secondBound (digit d) fp).2.takeWhile (· ≠ ')')),
        ((secondBound (digit d) fp).2.dropWhile (· ≠ ')')).tail)
    else (.broken, [])

def nextItem : Text → Option (Item × Text)
  | [] => none
  | fc :: fp =>
    if fc ≠ '%' then some (.char fc, fp)
    else
      match fp with
      | [] => none
      | c :: fp =>
        if c = '%' then some (.char '%', fp)
        else if c = 'S' ∨ c = 's' then some (.next, fp)
        else if c = '(' then some (readRange fp)
        else some (.skip, fp)

theorem secondBound_length (i : Nat) (fp : Text) : (secondBound i fp).2.length ≤ fp.length := by
  unfold secondBound
  split
  · split
    · simp
      omega
    · simp
  · simp
  · exact Nat.le_refl _

theorem readRange_length (fp : Text) : (readRange fp).2.length ≤ fp.length := by
  cases fp with
  | nil => exact Nat.le_refl _
  | cons d fp =>
    have hbound := secondBound_length (digit d) fp
    have hdrop := (List.dropWhile_suffix (l := (secondBound (digit d) fp).2) (· ≠ ')')).length_le
    rw [readRange]
    split
    · simp
    · split
      · rw [List.length_tail, List.length_cons]
        omega
      · simp

theorem nextItem_length {fmt rest : Text} {it : Item} (h : nextItem fmt = some (it, rest)) :
    rest.length < fmt.length := by
  cases fmt with
  | nil => cases h
  | cons fc fp =>
    by_cases hfc : fc = '%'
    · cases fp with
      | nil => simp [nextItem, hfc] at h
      | cons c fp =>
        have hrange := readRange_length fp
        simp only [nextItem, hfc, ne_eq, not_true_eq_false, if_false] at h
        split at h
        · cases h
          simp
        · split at h
          · cases h
            simp
          · split at h
            · rw [Option.some.injEq] at h
              rw [h] at hrange
              simp at hrange ⊢
              omega
            · cases h
              simp
    · simp only [nextItem, ne_eq, hfc, not_false_eq_true, if_true, Option.some.injEq] at h
      cases h
      simp

/-- What a format asks for, item by item. -/
def items (fmt : Text) : List Item :=
  match _h : nextItem fmt with
  | none => []
  | some (it, rest) => it :: items rest
termination_by fmt.length
decreasing_by exact nextItem_length _h

/-- The tags from `i` to `last` that are there. -/
def picks (tx i : Nat) : Option Nat → List Nat
  | none => List.range' i (tx - i)
  | some j =>
    if i ≤ j then List.range' i (min (j + 1) tx - i)
    else (List.range' j (min (i + 1) tx - j)).reverse

def UTagv.text (tagv : UTagv) (k : Nat) : Text := (tagv.filled[k]?.map UTag.text).getD []

/-- A tag is written as far as it fits, with a byte left. -/
def UTagv.piece (tagv : UTagv) (siz k : Nat) (out : List Piece) : Piece :=
  .tag k ((tagv.text k).take (siz - 2 - written out))

/-- Tags that are separated. -/
def weave (tagv : UTagv) (siz : Nat) (sep : Text) : Bool → List Piece → List Nat → List Piece
  | _, out, [] => out
  | first, out, k :: ks =>
    let out := if first = true ∨ sep = [] then out else out ++ [.sep sep]
    weave tagv siz sep false (out ++ [tagv.piece siz k out]) ks

/-- What an item asks for, with the number of tags that `%S` took. -/
def emitItem (tagv : UTagv) (siz : Nat) : Item → Nat → List Piece → Nat × List Piece
  | .char c, ti, out => (ti, out ++ [.char c])
  | .next, ti, out =>
    if ti < tagv.tx then (ti + 1, out ++ [tagv.piece siz ti out]) else (ti, out)
  | .range i last sep, ti, out => (ti, weave tagv siz sep true out (picks tagv.tx i last))
  | .skip, ti, out => (ti, out)
  | .broken, ti, out => (ti, out)

/-- What a format asks for, up to where the text is full. -/
def emit (tagv : UTagv) (siz : Nat) : List Item → Nat → List Piece → List Piece
  | [], _, out => out
  | it :: its, ti, out =>
    if siz ≤ written out + 1 then out
    else emit tagv siz its (emitItem tagv siz it ti out).1 (emitItem tagv siz it ti out).2

/-- The separators of a range and the tags before them fit, and a separator fits its buffer. -/
def SepFits (tagv : UTagv) (siz : Nat) (sep : Text) (out : List Piece) (ks : List Nat) : Prop :=
  sep = [] ∨ ks.length ≤ 1 ∨ (sep.length ≤ 31 ∧
    written out + (ks.dropLast.map fun k => (tagv.text k).length + sep.length).sum + 1 < siz)

/-- An item that is done as it asks: it is closed, a tag or the null pointer is there for `%S`, and a
range does not descend. -/
def Good (tagv : UTagv) (siz : Nat) : Item → Nat → List Piece → Prop
  | .char _, _, _ => True
  | .skip, _, _ => True
  | .broken, _, _ => False
  | .next, ti, _ => ti < tagv.tx ∨ tagv.tx + tagv.unfilled ≤ ti
  | .range i last sep, _, out =>
    (last = none → i < tagv.tx) ∧ (∀ j ∈ last, j < i → tagv.tx ≤ j) ∧
      SepFits tagv siz sep out (picks tagv.tx i last)

/-- The items are good as long as there is room. -/
def Sound (tagv : UTagv) (siz : Nat) : List Item → Nat → List Piece → Prop
  | [], _, _ => True
  | it :: its, ti, out => siz ≤ written out + 1 ∨
    (Good tagv siz it ti out ∧
      Sound tagv siz its (emitItem tagv siz it ti out).1 (emitItem tagv siz it ti out).2)

/-! ## What is written -/

@[simp] theorem text_char (c : Char) : (Piece.char c).text = [c] := rfl

@[simp] theorem text_tag (k : Nat) (s : Text) : (Piece.tag k s).text = s := rfl

@[simp] theorem text_sep (s : Text) : (Piece.sep s).text = s := rfl

@[simp] theorem written_nil : written [] = 0 := rfl

@[simp] theorem written_append (a b : List Piece) : written (a ++ b) = written a + written b := by
  simp [written]

@[simp] theorem written_cons (p : Piece) (out : List Piece) :
    written (p :: out) = p.text.length + written out := by
  simp [written]

section
variable {tagv : UTagv} {siz k : Nat} {out : List Piece}

@[simp] theorem text_piece (tagv : UTagv) (siz k : Nat) (out : List Piece) :
    (tagv.piece siz k out).text.length = min (siz - 2 - written out) (tagv.text k).length := by
  simp [UTagv.piece]

theorem putTag_of_lt (h : k < tagv.tx) : putTag tagv siz k out =
    if siz ≤ written out + 1 then .error .overflow
    else .ok (out ++ [tagv.piece siz k out]) := by
  have hk : k < tagv.filled.length := h
  have hget : tagv.filled[k]? = some tagv.filled[k] := List.getElem?_eq_getElem hk
  have hcut : siz - 1 - written out - 1 = siz - 2 - written out := by omega
  simp only [putTag, hget, UTagv.piece, UTagv.text, Option.map_some, Option.getD_some, UTag.text,
    Utos, List.take_take, hcut]

theorem putTag_of_ge (h : tagv.tx ≤ k) : putTag tagv siz k out = .error (.tag k) := by
  have hget : tagv.filled[k]? = none := List.getElem?_eq_none h
  simp [putTag, hget]

end

/-! ## The separator -/

section
variable {n turns : Nat} {sp sep S r fp : Text} {fc : Char}

theorem sepFor_spec (h : fc :: fp = S ++ ')' :: r) (hS : ')' ∉ S) (hne : S ≠ []) :
    sepFor n sp fc fp = (sp ++ S.take n, S.drop n ++ ')' :: r) := by
  induction n generalizing sp fc fp S with
  | zero => simp [sepFor, h]
  | succ n ih =>
    obtain ⟨s, S, rfl⟩ := List.exists_cons_of_ne_nil hne
    rw [List.cons_append, List.cons.injEq] at h
    obtain ⟨rfl, rfl⟩ := h
    rw [List.mem_cons, not_or] at hS
    cases S with
    | nil => simp [sepFor]
    | cons c S =>
      have hc : c ≠ ')' := fun habs => hS.2 (by simp [habs])
      rw [List.cons_append, sepFor, if_neg hc, @ih _ (c :: S) (S ++ ')' :: r) c rfl hS.2 (by simp)]
      simp

/-- The separator that is left by the loop, if the turns suffice. -/
theorem sepWhile_spec (hS : ')' ∉ S) :
    (∃ sep', sepWhile turns sep (S ++ ')' :: r) = .ok (sep', r) ∧ (S = [] → sep' = sep) ∧
      (S ≠ [] → sep' ≠ [] ∧ sep'.length ≤ 31 ∧ (S.length ≤ 31 → sep' = S))) ∨
    (turns ≤ S.length ∧ sepWhile turns sep (S ++ ')' :: r) = .error .turns) := by
  induction turns generalizing sep S with
  | zero => exact .inr ⟨Nat.zero_le _, rfl⟩
  | succ turns ih =>
    cases S with
    | nil => exact .inl ⟨sep, by simp [sepWhile], fun _ => rfl, fun h => absurd rfl h⟩
    | cons c S =>
      have hc : c ≠ ')' := fun habs => hS (by simp [habs])
      have hdrop : ')' ∉ (c :: S).drop 31 := fun hmem => hS (List.mem_of_mem_drop hmem)
      have hturn : sepWhile (turns + 1) sep (c :: S ++ ')' :: r) =
          sepWhile turns ((c :: S).take 31) ((c :: S).drop 31 ++ ')' :: r) := by
        rw [List.cons_append, sepWhile, if_neg hc, @sepFor_spec 31 [] (c :: S) r (S ++ ')' :: r) c rfl hS (by simp),
          List.nil_append]
      rw [hturn]
      rcases @ih ((c :: S).take 31) ((c :: S).drop 31) hdrop with
        ⟨sep', hok, hend, hmore⟩ | ⟨hle, herr⟩
      · refine .inl ⟨sep', hok, by simp, fun _ => ?_⟩
        by_cases hlong : (c :: S).length ≤ 31
        · have hsep := hend (List.drop_eq_nil_of_le hlong)
          rw [List.take_of_length_le hlong] at hsep
          subst hsep
          exact ⟨by simp, hlong, fun _ => rfl⟩
        · have hne : (c :: S).drop 31 ≠ [] := by
            rw [ne_eq, List.drop_eq_nil_iff]
            exact hlong
          exact ⟨(hmore hne).1, (hmore hne).2.1, fun habs => absurd habs hlong⟩
      · refine .inr ⟨?_, herr⟩
        rw [List.length_drop] at hle
        simp at hle ⊢
        omega

theorem sepFor_open (h : ')' ∉ fc :: fp) : ')' ∉ (sepFor n sp fc fp).2 := by
  induction n generalizing sp fc fp with
  | zero => exact h
  | succ n ih =>
    rw [List.mem_cons, not_or] at h
    cases fp with
    | nil =>
      rw [sepFor]
      simpa using h.1
    | cons c fp =>
      rw [sepFor]
      split
      · exact h.2
      · exact ih h.2

/-- A directive that is not closed is not left. -/
theorem sepWhile_open (h : ')' ∉ fp) : ∃ e, sepWhile turns sep fp = .error e := by
  induction turns generalizing sep fp with
  | zero => exact ⟨_, rfl⟩
  | succ turns ih =>
    cases fp with
    | nil => exact ⟨_, rfl⟩
    | cons fc fp =>
      have hfc : fc ≠ ')' := fun habs => h (by simp [habs])
      rw [sepWhile, if_neg hfc]
      exact ih (sepFor_open h)

end

/-! ## The loop over a range -/

/-- There is room behind each separator. -/
def FitsFrom (tagv : UTagv) (siz : Nat) (sep : Text) : Bool → List Piece → List Nat → Prop
  | _, _, [] => True
  | first, out, k :: ks =>
    let out := if first = true ∨ sep = [] then out else out ++ [.sep sep]
    written out + 1 < siz ∧ FitsFrom tagv siz sep false (out ++ [tagv.piece siz k out]) ks

/-- The tags are woven, unless there is no room for a separator or the turns do not suffice. -/
def Woven (tagv : UTagv) (siz turns : Nat) (sep : Text) (first : Bool) (out : List Piece)
    (ks : List Nat) (n : Nat) (r : Except Fault (List Piece)) : Prop :=
  (FitsFrom tagv siz sep first out ks ∧ r = .ok (weave tagv siz sep first out ks)) ∨
    (¬ FitsFrom tagv siz sep first out ks ∧ r = .error .overflow) ∨
    (turns ≤ n ∧ r = .error .turns)

section
variable {tagv : UTagv} {siz turns : Nat} {sep : Text} {out : List Piece}

/-- A range that begins below its end and goes down is left by a tag before the first one. -/
theorem rangeLoop_down {tj1 tj2 tj : Int} (htx : tj < tagv.tx) (hlt : tj < tj2) :
    ∃ e, rangeLoop tagv siz sep tj1 tj2 (-1) turns tj out = .error e := by
  induction turns generalizing tj out with
  | zero => exact ⟨_, rfl⟩
  | succ turns ih =>
    rw [rangeLoop, if_neg (by omega)]
    split
    · exact ⟨_, rfl⟩
    · rw [if_neg (by omega)]
      exact ih (by omega) (by omega)

theorem rangeLoop_up {i j k n : Nat} (hk : k ≤ j) (hi : i ≤ k)
    (hn : min (j + 1) tagv.tx - k = n) :
    Woven tagv siz turns sep (k == i) out (List.range' k n) n
      (rangeLoop tagv siz sep i j 1 turns k out) := by
  induction turns generalizing k n out with
  | zero => exact .inr (.inr ⟨Nat.zero_le _, rfl⟩)
  | succ turns ih =>
    cases n with
    | zero =>
      rw [rangeLoop, if_pos (by omega)]
      exact .inl ⟨trivial, rfl⟩
    | succ n =>
      have hfirst : (if sep ≠ [] ∧ (k : Int) ≠ i then out ++ [.sep sep] else out) =
          if (k == i) = true ∨ sep = [] then out else out ++ [.sep sep] := by
        by_cases hki : k = i <;> by_cases hsep : sep = [] <;> simp [hki, hsep]
      unfold Woven
      rw [rangeLoop, if_neg (by omega), hfirst, putTag_of_lt (by omega), List.range'_succ, FitsFrom,
        weave]
      generalize (if (k == i) = true ∨ sep = [] then out else out ++ [.sep sep]) = out
      by_cases hroom : siz ≤ written out + 1
      · rw [if_pos hroom]
        exact .inr (.inl ⟨fun h => absurd h.1 (by omega), rfl⟩)
      · rw [if_neg hroom]
        dsimp only
        by_cases hlast : k = j
        · have hzero : n = 0 := by omega
          rw [if_pos (by rw [hlast]), hzero]
          exact .inl ⟨⟨by omega, trivial⟩, rfl⟩
        · have hne : (k + 1 == i) = false := by
            simp
            omega
          have hstep := @ih (out ++ [tagv.piece siz k out]) (k + 1) n (by omega) (by omega) (by omega)
          rw [hne] at hstep
          rw [if_neg (by omega)]
          rcases hstep with ⟨hfits, hok⟩ | ⟨hover, herr⟩ | ⟨hle, herr⟩
          · exact .inl ⟨⟨by omega, hfits⟩, hok⟩
          · exact .inr (.inl ⟨fun h => hover h.2, herr⟩)
          · exact .inr (.inr ⟨by omega, herr⟩)

/-- The bounds do not descend to a tag that is there. -/
def Ascends (tx i : Nat) (last : Option Nat) : Prop :=
  (last = none → i < tx) ∧ ∀ j ∈ last, j < i → tx ≤ j

theorem overRange_up {i : Nat} {last : Option Nat} (h : Ascends tagv.tx i last) :
    Woven tagv siz turns sep true out (picks tagv.tx i last) tagv.tx
      (overRange tagv siz sep i (lastIndex tagv.tx last) turns out) := by
  have hup : ∀ j : Nat, i ≤ j → lastIndex tagv.tx last = j →
      picks tagv.tx i last = List.range' i (min (j + 1) tagv.tx - i) →
      Woven tagv siz turns sep true out (picks tagv.tx i last) tagv.tx
        (overRange tagv siz sep i (lastIndex tagv.tx last) turns out) := by
    intro j hij hlast hpicks
    have hloop := @rangeLoop_up tagv siz turns sep out i j i _ hij (Nat.le_refl i) rfl
    rw [beq_self_eq_true] at hloop
    rw [hlast, hpicks, overRange, if_pos (by omega)]
    rcases hloop with h | h | ⟨hle, herr⟩
    · exact .inl h
    · exact .inr (.inl h)
    · exact .inr (.inr ⟨by omega, herr⟩)
  cases last with
  | none =>
    have hi := h.1 rfl
    have hmin : min (tagv.tx - 1 + 1) tagv.tx = tagv.tx := by omega
    apply hup (tagv.tx - 1) (by omega)
    · simp [lastIndex]
      omega
    · rw [picks, hmin]
  | some j =>
    by_cases hij : i ≤ j
    · apply hup j hij
      · rfl
      · rw [picks, if_pos hij]
    · have htx := h.2 j rfl (by omega)
      have hnone : picks tagv.tx i (some j) = [] := by
        rw [picks, if_neg hij, Nat.sub_eq_zero_of_le (by omega)]
        rfl
      have hidx : lastIndex tagv.tx (some j) = j := rfl
      rw [hnone, overRange, hidx, if_neg (by omega)]
      cases turns with
      | zero => exact .inr (.inr ⟨Nat.zero_le _, rfl⟩)
      | succ turns =>
        rw [rangeLoop, if_pos (by omega)]
        exact .inl ⟨trivial, rfl⟩

theorem overRange_down {i : Nat} {last : Option Nat} (h : ¬ Ascends tagv.tx i last) :
    ∃ e, overRange tagv siz sep i (lastIndex tagv.tx last) turns out = .error e := by
  have hlow : lastIndex tagv.tx last < i ∧ lastIndex tagv.tx last < tagv.tx := by
    cases last with
    | none =>
      have hi : ¬ i < tagv.tx := fun hi => h ⟨fun _ => hi, by simp⟩
      simp [lastIndex]
      omega
    | some j =>
      have hj : ¬ (j < i → tagv.tx ≤ j) := fun hj => h ⟨by simp, by simpa using hj⟩
      have hidx : lastIndex tagv.tx (some j) = j := rfl
      rw [hidx]
      omega
  rw [overRange, if_neg (by omega)]
  exact rangeLoop_down hlow.2 (by omega)

/-! ## The room of a range -/

theorem weave_extends (first : Bool) (ks : List Nat) : out <+: weave tagv siz sep first out ks := by
  induction ks generalizing first out with
  | nil => exact List.prefix_rfl
  | cons k ks ih =>
    rw [weave]
    refine List.IsPrefix.trans ?_ (ih false)
    split
    · exact List.prefix_append _ _
    · rw [List.append_assoc]
      exact List.prefix_append _ _

theorem fitsFrom_nosep (hroom : written out + 1 < siz) (first : Bool) (ks : List Nat) :
    FitsFrom tagv siz [] first out ks := by
  induction ks generalizing first out with
  | nil => trivial
  | cons k ks ih =>
    rw [FitsFrom, if_pos (.inr rfl)]
    refine ⟨hroom, ih ?_ false⟩
    simp
    omega

/-- Behind a tag, the separators fit with the tags before them. -/
theorem fitsFrom_behind (hsep : sep ≠ []) (hroom : written out + 1 < siz) (k : Nat) (ks : List Nat) :
    FitsFrom tagv siz sep false (out ++ [tagv.piece siz k out]) ks ↔ ks = [] ∨
      written out + ((k :: ks).dropLast.map fun k => (tagv.text k).length + sep.length).sum + 1 <
        siz := by
  induction ks generalizing k out with
  | nil => simp [FitsFrom]
  | cons k' ks ih =>
    have hpos := List.length_pos_of_ne_nil hsep
    have hwritten : written (out ++ [tagv.piece siz k out] ++ [.sep sep]) =
        written out + min (siz - 2 - written out) (tagv.text k).length + sep.length := by
      simp [Nat.add_assoc]
    rw [FitsFrom, if_neg (by simp [hsep]), List.dropLast_cons_of_ne_nil (by simp), List.map_cons,
      List.sum_cons]
    constructor
    · rintro ⟨hfit, hrest⟩
      rw [ih hfit, hwritten] at hrest
      rw [hwritten] at hfit
      rcases hrest with rfl | hrest
      · simp
        omega
      · right
        omega
    · rintro (hnil | hfit)
      · cases hnil
      · have hroom' : written (out ++ [tagv.piece siz k out] ++ [.sep sep]) + 1 < siz := by
          rw [hwritten]
          omega
        rw [ih hroom', hwritten]
        refine ⟨by omega, .inr (by omega)⟩

theorem fitsFrom_iff (hroom : written out + 1 < siz) (ks : List Nat) :
    FitsFrom tagv siz sep true out ks ↔ sep = [] ∨ ks.length ≤ 1 ∨
      written out + (ks.dropLast.map fun k => (tagv.text k).length + sep.length).sum + 1 < siz := by
  by_cases hsep : sep = []
  · rw [hsep]
    exact iff_of_true (fitsFrom_nosep hroom true ks) (.inl rfl)
  · cases ks with
    | nil => simp [FitsFrom]
    | cons k ks =>
      have hlen : (k :: ks).length ≤ 1 ↔ ks = [] := by simp
      rw [FitsFrom, if_pos (.inl rfl), fitsFrom_behind hsep hroom, hlen]
      simp only [hroom, hsep, true_and, false_or]

theorem written_weave (hroom : written out + 1 < siz) {first : Bool} {ks : List Nat}
    (h : FitsFrom tagv siz sep first out ks) :
    written (weave tagv siz sep first out ks) + 1 < siz := by
  induction ks generalizing first out with
  | nil => exact hroom
  | cons k ks ih =>
    rw [FitsFrom] at h
    rw [weave]
    apply ih _ h.2
    have hfit := h.1
    simp at hfit ⊢
    omega

theorem weave_short (sep sep' : Text) {ks : List Nat} (h : ks.length ≤ 1) :
    weave tagv siz sep true out ks = weave tagv siz sep' true out ks := by
  match ks, h with
  | [], _ => rfl
  | [k], _ => simp [weave]

/-- Where there is a second tag, the first separator is told. -/
theorem weave_sep (hsep : sep ≠ []) (k k' : Nat) (ks : List Nat) :
    out ++ [tagv.piece siz k out, .sep sep] <+: weave tagv siz sep true out (k :: k' :: ks) := by
  rw [weave, if_pos (.inl rfl), weave, if_neg (by simp [hsep])]
  refine List.IsPrefix.trans ?_ (weave_extends false ks)
  rw [List.append_assoc, List.append_assoc]
  exact List.prefix_append_right_inj out |>.mpr ⟨_, rfl⟩

/-- Nothing begins with two weavings of other separators. -/
theorem weave_apart {sep' : Text} (hsep : sep ≠ []) (hsep' : sep' ≠ []) (hne : sep' ≠ sep)
    {ks : List Nat} (hks : 2 ≤ ks.length) {all : List Piece}
    (hl : weave tagv siz sep' true out ks <+: all) : ¬ weave tagv siz sep true out ks <+: all := by
  intro hr
  match ks, hks with
  | k :: k' :: ks, _ =>
    have h1 := (weave_sep hsep k k' ks).trans hr
    have h2 := (weave_sep hsep' k k' ks).trans hl
    have heq := (List.prefix_of_prefix_length_le h1 h2 (by simp)).eq_of_length (by simp)
    simp at heq
    exact hne heq.symm

end

/-! ## An item of a format -/

section
variable {tagv : UTagv} {siz turns i ti : Nat} {last : Option Nat} {sep fp rest fmt : Text}
  {out : List Piece} {it : Item}

theorem readRange_range (h : readRange fp = (.range i last sep, rest)) :
    ∃ d fp', fp = d :: fp' ∧ d.isDigit = true ∧ digit d = i ∧ (secondBound i fp').1 = last ∧
      (secondBound i fp').2 = sep ++ ')' :: rest ∧ ')' ∉ sep := by
  cases fp with
  | nil => cases h
  | cons d fp =>
    rw [readRange] at h
    split at h
    · cases h
    · rename_i hd
      split at h
      · rename_i hclosed
        simp only [Prod.mk.injEq, Item.range.injEq] at h
        obtain ⟨⟨rfl, rfl, rfl⟩, rfl⟩ := h
        refine ⟨d, fp, rfl, by simpa using hd, rfl, rfl, ?_, fun hmem => ?_⟩
        · obtain ⟨a, b, hT, ha⟩ := List.eq_append_cons_of_mem hclosed
          have hmiss : ∀ c ∈ a, decide (c ≠ ')') = true := by
            intro c hc
            simp
            rintro rfl
            exact ha hc
          rw [hT, (while_append hmiss (by simp)).1, (while_append hmiss (by simp)).2, List.tail_cons]
        · have hp := List.mem_takeWhile_imp hmem
          simp at hp
      · cases h

/-- The directive `%(` with its separator read. -/
theorem putRange_read (h : readRange fp = (.range i last sep, rest)) (tagv : UTagv) (siz turns : Nat)
    (out : List Piece) :
    (∃ sep', putRange tagv siz turns fp out =
        (match overRange tagv siz sep' i (lastIndex tagv.tx last) turns out with
          | .error e => .error e
          | .ok out => .ok (rest, out)) ∧
      (sep = [] → sep' = []) ∧
      (sep ≠ [] → sep' ≠ [] ∧ sep'.length ≤ 31 ∧ (sep.length ≤ 31 → sep' = sep))) ∨
    (turns ≤ fp.length ∧ putRange tagv siz turns fp out = .error .turns) := by
  obtain ⟨d, fp, rfl, hd, rfl, rfl, hbound, hsep⟩ := readRange_range h
  have hlen := secondBound_length (digit d) fp
  rw [hbound] at hlen
  rw [putRange, if_neg (by simp [hd]), hbound]
  rcases @sepWhile_spec turns [] sep rest hsep with ⟨sep', hok, hnil, hmore⟩ | ⟨hle, herr⟩
  · exact .inl ⟨sep', by rw [hok], hnil, hmore⟩
  · refine .inr ⟨?_, by rw [herr]⟩
    simp at hlen ⊢
    omega

theorem putRange_good (h : readRange fp = (.range i last sep, rest)) (hroom : written out + 1 < siz)
    (hgood : Good tagv siz (.range i last sep) ti out) :
    putRange tagv siz turns fp out =
        .ok (rest, weave tagv siz sep true out (picks tagv.tx i last)) ∨
      (turns ≤ fp.length + tagv.tx ∧ putRange tagv siz turns fp out = .error .turns) := by
  obtain ⟨hnone, hsome, hfits⟩ := hgood
  rcases putRange_read h tagv siz turns out with ⟨sep', heq, hnil, hmore⟩ | ⟨hle, herr⟩
  · have hfrom : FitsFrom tagv siz sep' true out (picks tagv.tx i last) ∧
        weave tagv siz sep' true out (picks tagv.tx i last) =
          weave tagv siz sep true out (picks tagv.tx i last) := by
      rw [fitsFrom_iff hroom]
      rcases hfits with rfl | hshort | ⟨hlen, hfits⟩
      · exact ⟨.inl (hnil rfl), by rw [hnil rfl]⟩
      · exact ⟨.inr (.inl hshort), weave_short _ _ hshort⟩
      · by_cases hsep : sep = []
        · exact ⟨.inl (hnil hsep), by rw [hnil hsep, hsep]⟩
        · rw [(hmore hsep).2.2 hlen]
          exact ⟨.inr (.inr hfits), rfl⟩
    rw [heq]
    rcases @overRange_up tagv siz turns sep' out i last ⟨hnone, hsome⟩ with
      ⟨-, hok⟩ | ⟨hover, -⟩ | ⟨hle, herr⟩
    · rw [hok, hfrom.2]
      exact .inl rfl
    · exact absurd hfrom.1 hover
    · rw [herr]
      exact .inr ⟨by omega, rfl⟩
  · exact .inr ⟨by omega, herr⟩

theorem putRange_bad (h : readRange fp = (.range i last sep, rest)) (hroom : written out + 1 < siz)
    (hbad : ¬ Good tagv siz (.range i last sep) ti out) :
    (∃ e, putRange tagv siz turns fp out = .error e) ∨
      ∃ sep', putRange tagv siz turns fp out =
          .ok (rest, weave tagv siz sep' true out (picks tagv.tx i last)) ∧
        sep ≠ [] ∧ sep' ≠ [] ∧ sep' ≠ sep ∧ 2 ≤ (picks tagv.tx i last).length := by
  rcases putRange_read h tagv siz turns out with ⟨sep', heq, hnil, hmore⟩ | ⟨-, herr⟩
  · rw [heq]
    by_cases hup : Ascends tagv.tx i last
    · have hfits : ¬ SepFits tagv siz sep out (picks tagv.tx i last) :=
        fun hfits => hbad ⟨hup.1, hup.2, hfits⟩
      unfold SepFits at hfits
      rw [not_or, not_or] at hfits
      obtain ⟨hsep, hmany, hlong⟩ := hfits
      rcases @overRange_up tagv siz turns sep' out i last hup with
        ⟨hfrom, hok⟩ | ⟨-, herr⟩ | ⟨-, herr⟩
      · rw [hok]
        refine .inr ⟨sep', rfl, hsep, (hmore hsep).1, ?_, by omega⟩
        rintro rfl
        rw [fitsFrom_iff hroom] at hfrom
        rcases hfrom with hnone | hshort | hfrom
        · exact hsep hnone
        · exact hmany hshort
        · exact hlong ⟨(hmore hsep).2.1, hfrom⟩
      · exact .inl ⟨_, by rw [herr]⟩
      · exact .inl ⟨_, by rw [herr]⟩
    · obtain ⟨e, herr⟩ := @overRange_down tagv siz turns sep' out i last hup
      exact .inl ⟨e, by rw [herr]⟩
  · exact .inl ⟨_, herr⟩

theorem readRange_kind (h : readRange fp = (it, rest)) :
    it = .skip ∨ it = .broken ∨ ∃ i last sep, it = .range i last sep := by
  cases fp with
  | nil =>
    cases h
    exact .inr (.inl rfl)
  | cons d fp =>
    rw [readRange] at h
    split at h
    · cases h
      exact .inl rfl
    · split at h <;> cases h
      · exact .inr (.inr ⟨_, _, _, rfl⟩)
      · exact .inr (.inl rfl)

theorem putRange_skip (h : readRange fp = (.skip, rest)) :
    putRange tagv siz turns fp out = .ok (rest, out) := by
  cases fp with
  | nil => cases h
  | cons d fp =>
    rw [readRange] at h
    by_cases hd : d.isDigit = false
    · rw [if_pos hd] at h
      cases h
      rw [putRange, if_pos hd]
    · rw [if_neg hd] at h
      split at h <;> cases h

theorem putRange_broken (h : readRange fp = (.broken, rest)) :
    ∃ e, putRange tagv siz turns fp out = .error e := by
  cases fp with
  | nil => exact ⟨_, rfl⟩
  | cons d fp =>
    rw [readRange] at h
    by_cases hd : d.isDigit = false
    · rw [if_pos hd] at h
      cases h
    · rw [if_neg hd] at h
      split at h
      · cases h
      · rename_i hopen
        obtain ⟨e, herr⟩ := @sepWhile_open turns [] _ hopen
        rw [putRange, if_neg hd, herr]
        exact ⟨e, rfl⟩

/-- A turn of the loop, by the item that it reads. -/
theorem loop_cases (h : nextItem fmt = some (it, rest)) (hroom : written out + 1 < siz) (turns ti : Nat) :
    (∃ c, it = .char c ∧ uvtosf.loop tagv siz (turns + 1) fmt ti out =
      uvtosf.loop tagv siz turns rest ti (out ++ [.char c])) ∨
    (it = .skip ∧ uvtosf.loop tagv siz (turns + 1) fmt ti out =
      uvtosf.loop tagv siz turns rest ti out) ∨
    (it = .next ∧ uvtosf.loop tagv siz (turns + 1) fmt ti out =
      if tagv.tx + tagv.unfilled ≤ ti then uvtosf.loop tagv siz turns rest ti out
      else
        match putTag tagv siz ti out with
        | .error e => .error e
        | .ok out => uvtosf.loop tagv siz turns rest (ti + 1) out) ∨
    (∃ fp, fp.length ≤ fmt.length ∧ readRange fp = (it, rest) ∧
      uvtosf.loop tagv siz (turns + 1) fmt ti out =
        match putRange tagv siz turns fp out with
        | .error e => .error e
        | .ok (fp, out) => uvtosf.loop tagv siz turns fp ti out) := by
  cases fmt with
  | nil => cases h
  | cons fc fp =>
    by_cases hfc : fc = '%'
    · cases fp with
      | nil => simp [nextItem, hfc] at h
      | cons c fp =>
        simp only [nextItem, hfc, ne_eq, not_true_eq_false, if_false] at h
        rw [uvtosf.loop, if_neg (by omega), if_neg (by simp [hfc])]
        by_cases hc : c = '%'
        · rw [if_pos hc] at h ⊢
          cases h
          exact .inl ⟨_, rfl, rfl⟩
        · rw [if_neg hc] at h ⊢
          by_cases hS : c = 'S' ∨ c = 's'
          · rw [if_pos hS] at h ⊢
            cases h
            exact .inr (.inr (.inl ⟨rfl, rfl⟩))
          · rw [if_neg hS] at h ⊢
            by_cases hopen : c = '('
            · rw [if_pos hopen] at h ⊢
              rw [Option.some.injEq] at h
              refine .inr (.inr (.inr ⟨fp, ?_, h, rfl⟩))
              simp
              omega
            · rw [if_neg hopen] at h ⊢
              cases h
              exact .inr (.inl ⟨rfl, rfl⟩)
    · simp only [nextItem, ne_eq, hfc, not_false_eq_true, if_true, Option.some.injEq] at h
      cases h
      refine .inl ⟨fc, rfl, ?_⟩
      cases rest with
      | nil => rw [uvtosf.loop, if_neg (by omega), if_pos hfc]
      | cons c fp => rw [uvtosf.loop, if_neg (by omega), if_pos hfc]

/-- A good item is done as it asks, if the turns suffice. -/
theorem loop_good (turns : Nat) (h : nextItem fmt = some (it, rest)) (hroom : written out + 1 < siz)
    (hgood : Good tagv siz it ti out) :
    uvtosf.loop tagv siz (turns + 1) fmt ti out =
        uvtosf.loop tagv siz turns rest (emitItem tagv siz it ti out).1 (emitItem tagv siz it ti out).2 ∨
      (turns ≤ fmt.length + tagv.tx ∧
        uvtosf.loop tagv siz (turns + 1) fmt ti out = .error .turns) := by
  rcases @loop_cases tagv siz rest fmt out it h hroom turns ti with
    ⟨c, rfl, heq⟩ | ⟨rfl, heq⟩ | ⟨rfl, heq⟩ | ⟨fp, hlen, hread, heq⟩
  · exact .inl heq
  · exact .inl heq
  · left
    rw [heq, emitItem]
    by_cases hti : ti < tagv.tx
    · rw [if_neg (by omega), putTag_of_lt hti, if_neg (by omega), if_pos hti]
    · rw [if_pos (hgood.resolve_left hti), if_neg hti]
  · rw [heq]
    rcases readRange_kind hread with rfl | rfl | ⟨i, last, sep, rfl⟩
    · rw [putRange_skip hread]
      exact .inl rfl
    · exact hgood.elim
    · rcases @putRange_good tagv siz turns i ti last sep fp rest out hread hroom hgood with
        hok | ⟨hle, herr⟩
      · rw [hok]
        exact .inl rfl
      · rw [herr]
        exact .inr ⟨by omega, rfl⟩

theorem loop_bad (turns : Nat) (h : nextItem fmt = some (it, rest)) (hroom : written out + 1 < siz)
    (hbad : ¬ Good tagv siz it ti out) :
    (∃ e, uvtosf.loop tagv siz (turns + 1) fmt ti out = .error e) ∨
      ∃ out', uvtosf.loop tagv siz (turns + 1) fmt ti out = uvtosf.loop tagv siz turns rest ti out' ∧
        ∀ all, out' <+: all → ¬ (emitItem tagv siz it ti out).2 <+: all := by
  rcases @loop_cases tagv siz rest fmt out it h hroom turns ti with
    ⟨c, rfl, heq⟩ | ⟨rfl, heq⟩ | ⟨rfl, heq⟩ | ⟨fp, -, hread, heq⟩
  · exact absurd trivial hbad
  · exact absurd trivial hbad
  · have hti : ¬ (ti < tagv.tx ∨ tagv.tx + tagv.unfilled ≤ ti) := hbad
    left
    rw [heq, if_neg (by omega), putTag_of_ge (by omega)]
    exact ⟨_, rfl⟩
  · rw [heq]
    rcases readRange_kind hread with rfl | rfl | ⟨i, last, sep, rfl⟩
    · exact absurd trivial hbad
    · obtain ⟨e, herr⟩ := @putRange_broken tagv siz turns fp rest out hread
      rw [herr]
      exact .inl ⟨e, rfl⟩
    · rcases @putRange_bad tagv siz turns i ti last sep fp rest out hread hroom hbad with
        ⟨e, herr⟩ | ⟨sep', hok, hsep, hsep', hne, hmany⟩
      · rw [herr]
        exact .inl ⟨e, rfl⟩
      · rw [hok]
        exact .inr ⟨_, rfl, fun all hl => weave_apart hsep hsep' hne hmany hl⟩

end

/-! ## A run over a format -/

section
variable {tagv : UTagv} {siz turns ti : Nat} {fp rest fmt sep : Text} {out all : List Piece}
  {it : Item}

theorem putTag_extends {tj : Int} (h : putTag tagv siz tj out = .ok all) : out <+: all := by
  unfold putTag at h
  split at h
  · cases h
  · split at h
    · cases h
    · split at h <;> cases h
      exact List.prefix_append _ _

theorem rangeLoop_extends {tj1 tj2 tjinc tj : Int}
    (h : rangeLoop tagv siz sep tj1 tj2 tjinc turns tj out = .ok all) : out <+: all := by
  induction turns generalizing tj out with
  | zero => cases h
  | succ turns ih =>
    rw [rangeLoop] at h
    split at h
    · cases h
      exact List.prefix_rfl
    · split at h
      · cases h
      · rename_i next hput
        have hsep : out <+: if sep ≠ [] ∧ tj ≠ tj1 then out ++ [.sep sep] else out := by
          split
          · exact List.prefix_append _ _
          · exact List.prefix_rfl
        have hnext := hsep.trans (putTag_extends hput)
        split at h
        · cases h
          exact hnext
        · exact hnext.trans (ih h)

theorem putRange_extends (h : putRange tagv siz turns fp out = .ok (rest, all)) : out <+: all := by
  unfold putRange at h
  split at h
  · cases h
  · split at h
    · cases h
      exact List.prefix_rfl
    · split at h
      · cases h
      · split at h
        · cases h
        · rename_i hrange
          cases h
          unfold overRange at hrange
          split at hrange <;> exact rangeLoop_extends hrange

theorem loop_none (h : nextItem fmt = none) :
    uvtosf.loop tagv siz (turns + 1) fmt ti out = .ok out := by
  cases fmt with
  | nil => rfl
  | cons fc fp =>
    by_cases hfc : fc = '%'
    · cases fp with
      | nil =>
        rw [uvtosf.loop, if_neg (not_not.mpr hfc), ite_self]
      | cons c fp =>
        simp only [nextItem, hfc, ne_eq, not_true_eq_false, if_false] at h
        split at h
        · cases h
        · split at h
          · cases h
          · split at h <;> cases h
    · simp [nextItem, hfc] at h

theorem loop_full (h : siz ≤ written out + 1) :
    uvtosf.loop tagv siz (turns + 1) fmt ti out = .ok out := by
  cases fmt with
  | nil => rfl
  | cons fc fp =>
    cases fp with
    | nil => rw [uvtosf.loop, if_pos h]
    | cons c fp => rw [uvtosf.loop, if_pos h]

/-- What is written is never taken back. -/
theorem loop_extends (h : uvtosf.loop tagv siz turns fmt ti out = .ok all) : out <+: all := by
  induction turns generalizing fmt ti out with
  | zero => cases h
  | succ turns ih =>
    by_cases hroom : siz ≤ written out + 1
    · rw [loop_full hroom] at h
      cases h
      exact List.prefix_rfl
    · cases hnext : nextItem fmt with
      | none =>
        rw [loop_none hnext] at h
        cases h
        exact List.prefix_rfl
      | some r =>
        rcases @loop_cases tagv siz r.2 fmt out r.1 hnext (by omega) turns ti with
          ⟨c, -, heq⟩ | ⟨-, heq⟩ | ⟨-, heq⟩ | ⟨fp, -, -, heq⟩
        · rw [heq] at h
          exact (List.prefix_append _ _).trans (ih h)
        · rw [heq] at h
          exact ih h
        · rw [heq] at h
          split at h
          · exact ih h
          · split at h
            · cases h
            · rename_i hput
              exact (putTag_extends hput).trans (ih h)
        · rw [heq] at h
          split at h
          · cases h
          · rename_i hput
            exact (putRange_extends hput).trans (ih h)

theorem emitItem_extends (it : Item) (ti : Nat) : out <+: (emitItem tagv siz it ti out).2 := by
  cases it with
  | char c => exact List.prefix_append _ _
  | next =>
    rw [emitItem]
    split
    · exact List.prefix_append _ _
    · exact List.prefix_rfl
  | skip => exact List.prefix_rfl
  | broken => exact List.prefix_rfl
  | range i last sep => exact weave_extends true _

theorem emit_extends (its : List Item) (ti : Nat) : out <+: emit tagv siz its ti out := by
  induction its generalizing ti out with
  | nil => exact List.prefix_rfl
  | cons it its ih =>
    rw [emit]
    split
    · exact List.prefix_rfl
    · exact (emitItem_extends it ti).trans (ih _)

/-- A good item leaves a byte of the text. -/
theorem written_emitItem (hroom : written out + 1 < siz) (hgood : Good tagv siz it ti out) :
    written (emitItem tagv siz it ti out).2 < siz := by
  cases it with
  | char c =>
    simp [emitItem]
    omega
  | next =>
    rw [emitItem]
    split
    · simp
      omega
    · simp
      omega
  | skip =>
    simp [emitItem]
    omega
  | broken => exact hgood.elim
  | range i last sep =>
    have hfits : FitsFrom tagv siz sep true out (picks tagv.tx i last) := by
      rw [fitsFrom_iff hroom]
      rcases hgood.2.2 with hsep | hshort | ⟨-, hfits⟩
      · exact .inl hsep
      · exact .inr (.inl hshort)
      · exact .inr (.inr hfits)
    have hwritten := written_weave hroom hfits
    rw [emitItem]
    dsimp only
    omega

theorem items_none (h : nextItem fmt = none) : items fmt = [] := by
  rw [items]
  split
  · rfl
  · rename_i heq
    rw [h] at heq
    cases heq

theorem items_some (h : nextItem fmt = some (it, rest)) : items fmt = it :: items rest := by
  rw [items]
  split
  · rename_i heq
    rw [h] at heq
    cases heq
  · rename_i heq
    rw [h] at heq
    cases heq
    rfl

theorem run_good (turns : Nat) (hroom : written out < siz) (hsound : Sound tagv siz (items fmt) ti out)
    (hturns : fmt.length + tagv.tx + 1 < turns) :
    uvtosf.loop tagv siz turns fmt ti out = .ok (emit tagv siz (items fmt) ti out) ∧
      written (emit tagv siz (items fmt) ti out) < siz := by
  induction turns generalizing fmt ti out with
  | zero => omega
  | succ turns ih =>
    cases hnext : nextItem fmt with
    | none =>
      rw [items_none hnext, loop_none hnext]
      exact ⟨rfl, hroom⟩
    | some r =>
      have hlen := @nextItem_length fmt r.2 r.1 hnext
      rw [items_some hnext] at hsound ⊢
      rw [emit]
      by_cases hfull : siz ≤ written out + 1
      · rw [if_pos hfull, loop_full hfull]
        exact ⟨rfl, hroom⟩
      · obtain ⟨hgood, hrest⟩ := hsound.resolve_left hfull
        have hlt := written_emitItem (by omega) hgood
        rw [if_neg hfull]
        rcases loop_good turns hnext (by omega) hgood with heq | ⟨hle, -⟩
        · rw [heq]
          exact ih hlt hrest (by omega)
        · omega

/-- Where an item is not good, no number of turns gives what is asked for. -/
theorem run_bad (hroom : written out < siz) (hbad : ¬ Sound tagv siz (items fmt) ti out) :
    uvtosf.loop tagv siz turns fmt ti out ≠ .ok (emit tagv siz (items fmt) ti out) := by
  induction turns generalizing fmt ti out with
  | zero => simp [uvtosf.loop]
  | succ turns ih =>
    cases hnext : nextItem fmt with
    | none =>
      rw [items_none hnext] at hbad
      exact absurd trivial hbad
    | some r =>
      rw [items_some hnext] at hbad ⊢
      rw [Sound, not_or, not_and] at hbad
      obtain ⟨hfull, hbad⟩ := hbad
      rw [emit, if_neg hfull]
      by_cases hgood : Good tagv siz r.1 ti out
      · have hlt := written_emitItem (by omega) hgood
        rcases loop_good turns hnext (by omega) hgood with heq | ⟨-, herr⟩
        · rw [heq]
          exact ih hlt (hbad hgood)
        · simp [herr]
      · rcases loop_bad turns hnext (by omega) hgood with ⟨e, herr⟩ | ⟨out', heq, hapart⟩
        · simp [herr]
        · rw [heq]
          intro hok
          exact hapart _ (loop_extends hok) (emit_extends _ _)

end

/-! ## A text is generated as its format asks -/

/-- `uvtosf` ends, reads no tag but the filled ones and no format behind its end, and writes what the
format asks for, in less than `siz` bytes. -/
def AsAsked (tagv : UTagv) (siz : Nat) (fmt : Text) : Prop :=
  (∃ turns, uvtosf turns tagv siz fmt = .ok (emit tagv siz (items fmt) 0 [])) ∧
    written (emit tagv siz (items fmt) 0 []) < siz

theorem uvtosf_asAsked_iff (tagv : UTagv) (siz : Nat) (fmt : Text) :
    AsAsked tagv siz fmt ↔ 0 < siz ∧ Sound tagv siz (items fmt) 0 [] := by
  constructor
  · rintro ⟨⟨turns, hok⟩, hlt⟩
    have hpos : 0 < siz := by omega
    refine ⟨hpos, ?_⟩
    by_contra hbad
    exact run_bad hpos hbad hok
  · rintro ⟨hpos, hsound⟩
    have hrun := run_good (fmt.length + tagv.tx + 2) hpos hsound (by omega)
    exact ⟨⟨_, hrun.1⟩, hrun.2⟩

/-- `%(1-0)` begins with the tag 0 and goes on with the tag -1. -/
theorem uvtosf_descending : ¬ AsAsked ⟨[⟨['a'], 1⟩, ⟨['b'], 1⟩], 0⟩ 100
    ['%', '(', '1', '-', '0', ')'] := by
  rintro ⟨⟨turns, hok⟩, -⟩
  refine run_bad (by decide) ?_ hok
  have hnext : nextItem ['%', '(', '1', '-', '0', ')'] = some (.range 1 (some 0) [], []) := by
    simp [nextItem, readRange, secondBound, digit]
  rw [items_some hnext]
  rintro (hfull | ⟨⟨-, hdown, -⟩, -⟩)
  · exact absurd hfull (by decide)
  · exact absurd (hdown 0 rfl (by decide)) (by decide)

end delegate.utag
