-- A text as a sequence of lines. A line ends with its newline, and only the
-- last line of a text may lack it.
import Mathlib.Data.List.TakeWhile

namespace linetext

section
variable {α : Type} [DecidableEq α] {nl : α}

/-- The first line, with its newline. -/
def first (nl : α) : List α → List α
  | [] => []
  | c :: cs => if c = nl then [c] else c :: first nl cs

/-- The text after the first line. -/
def rest (nl : α) : List α → List α
  | [] => []
  | c :: cs => if c = nl then cs else rest nl cs

theorem first_append_rest (cs : List α) : first nl cs ++ rest nl cs = cs := by
  induction cs with
  | nil => rfl
  | cons c cs ih =>
    rw [first, rest]
    split
    · rfl
    · rw [List.cons_append, ih]

theorem rest_length_lt (c : α) (cs : List α) : (rest nl (c :: cs)).length < (c :: cs).length := by
  induction cs generalizing c with
  | nil =>
    rw [rest]
    split <;> exact Nat.zero_lt_one
  | cons d cs ih =>
    rw [rest]
    split
    · exact Nat.lt_succ_self _
    · exact Nat.lt_succ_of_lt (ih d)

/-- The lines of a text. -/
def split (nl : α) : List α → List (List α)
  | [] => []
  | c :: cs => first nl (c :: cs) :: split nl (rest nl (c :: cs))
termination_by cs => cs.length
decreasing_by exact rest_length_lt c cs

theorem first_ne_nil {cs : List α} (h : cs ≠ []) : first nl cs ≠ [] := by
  cases cs with
  | nil => exact absurd rfl h
  | cons c cs =>
    rw [first]
    split <;> exact List.cons_ne_nil _ _

theorem split_of_ne {cs : List α} (h : cs ≠ []) :
    split nl cs = first nl cs :: split nl (rest nl cs) := by
  cases cs with
  | nil => exact absurd rfl h
  | cons c cs => rw [split]

theorem first_append {a : List α} (h : nl ∉ a) (cs : List α) :
    first nl (a ++ nl :: cs) = a ++ [nl] := by
  induction a with
  | nil => simp [first]
  | cons c a ih =>
    rw [List.mem_cons, not_or] at h
    rw [List.cons_append, first, if_neg (Ne.symm h.1), ih h.2]
    rfl

/-- The length of the first line, by a search for the newline. -/
theorem length_first (cs : List α) :
    (first nl cs).length = ((cs.findIdx? (· == nl)).map (· + 1)).getD cs.length := by
  induction cs with
  | nil => rfl
  | cons c cs ih =>
    rw [first, List.findIdx?_cons]
    by_cases hc : c = nl
    · simp [hc]
    · rw [if_neg hc, List.length_cons, ih]
      cases hfind : cs.findIdx? (· == nl) <;> simp [hc]

/-- A newline is only at the end of a line. -/
theorem first_dropLast (cs : List α) : nl ∉ (first nl cs).dropLast := by
  induction cs with
  | nil => simp [first]
  | cons c cs ih =>
    rw [first]
    split
    · simp
    · rename_i hc
      cases hf : first nl cs with
      | nil => simp
      | cons d ds =>
        rw [hf] at ih
        rw [List.dropLast_cons_cons, List.mem_cons, not_or]
        exact ⟨Ne.symm hc, ih⟩

/-! ## Lines with their newline -/

/-- A line that ends with its newline. -/
def Line (nl : α) (l : List α) : Prop := ∃ body, nl ∉ body ∧ l = body ++ [nl]

omit [DecidableEq α] in
theorem Line.ne_nil {l : List α} (h : Line nl l) : l ≠ [] := by
  obtain ⟨body, -, rfl⟩ := h
  simp

theorem Line.first_append {l : List α} (h : Line nl l) (s : List α) : first nl (l ++ s) = l := by
  obtain ⟨body, hbody, rfl⟩ := h
  rw [List.append_assoc]
  exact linetext.first_append hbody s

theorem Line.first_self {l : List α} (h : Line nl l) : first nl l = l := by
  have hone := h.first_append []
  rwa [List.append_nil] at hone

omit [DecidableEq α] in
/-- A line is no part of a line that does not reach its end. -/
theorem Line.not_mem_take {l : List α} (h : Line nl l) {k : Nat} (hk : k < l.length) :
    nl ∉ l.take k := by
  obtain ⟨body, hbody, rfl⟩ := h
  rw [List.length_append, List.length_singleton] at hk
  rw [List.take_append_of_le_length (by omega)]
  exact fun hmem => hbody (List.mem_of_mem_take hmem)

omit [DecidableEq α] in
theorem Line.drop {l : List α} (h : Line nl l) {k : Nat} (hk : k < l.length) :
    Line nl (l.drop k) := by
  obtain ⟨body, hbody, rfl⟩ := h
  rw [List.length_append, List.length_singleton] at hk
  refine ⟨body.drop k, fun hmem => hbody (List.mem_of_mem_drop hmem), ?_⟩
  rw [List.drop_append_of_le_length (by omega)]

theorem first_append_line {a : List α} (ha : nl ∉ a) {l : List α} (h : Line nl l) (s : List α) :
    first nl (a ++ (l ++ s)) = a ++ l := by
  obtain ⟨body, hbody, rfl⟩ := h
  have hmem : nl ∉ a ++ body := by
    rw [List.mem_append, not_or]
    exact ⟨ha, hbody⟩
  have hone := first_append hmem s
  simpa using hone

omit [DecidableEq α] in
theorem flatten_eq_nil {ls : List (List α)} (h : ∀ l ∈ ls, Line nl l) :
    ls.flatten = [] ↔ ls = [] := by
  cases ls with
  | nil => simp
  | cons l ls =>
    have hne := (h l List.mem_cons_self).ne_nil
    simp [hne]

/-! ## Pieces of a limited length -/

/-- The pieces that are read into a buffer: each ends with a newline, at the end of the text, or
after `n + 1` characters. -/
def pieces (nl : α) (n : Nat) : List α → List (List α)
  | [] => []
  | c :: cs =>
    (first nl (c :: cs)).take (n + 1) ::
      pieces nl n ((c :: cs).drop ((first nl (c :: cs)).take (n + 1)).length)
termination_by cs => cs.length
decreasing_by
  have hne : first nl (c :: cs) ≠ [] := first_ne_nil (List.cons_ne_nil c cs)
  have hpos : 0 < (first nl (c :: cs)).length := List.length_pos_iff.mpr hne
  rw [List.length_drop, List.length_take, List.length_cons]
  omega

theorem pieces_of_ne {n : Nat} {s : List α} (h : s ≠ []) :
    pieces nl n s = (first nl s).take (n + 1) ::
      pieces nl n (s.drop ((first nl s).take (n + 1)).length) := by
  cases s with
  | nil => exact absurd rfl h
  | cons c cs => rw [pieces]

theorem pieces_nil {n : Nat} : pieces nl n ([] : List α) = [] := by rw [pieces]

/-- A piece stands at the begin of its text. -/
theorem piece_append (n : Nat) (s : List α) :
    (first nl s).take (n + 1) ++ s.drop ((first nl s).take (n + 1)).length = s := by
  have hprefix : (first nl s).take (n + 1) <+: s :=
    (List.take_prefix _ _).trans ⟨rest nl s, first_append_rest s⟩
  obtain ⟨t, ht⟩ := hprefix
  have hdrop : s.drop ((first nl s).take (n + 1)).length = t :=
    (congrArg _ ht).symm.trans List.drop_left
  rw [hdrop, ht]

theorem length_piece_pos (n : Nat) {s : List α} (h : s ≠ []) :
    0 < ((first nl s).take (n + 1)).length := by
  have hpos : 0 < (first nl s).length := List.length_pos_iff.mpr (first_ne_nil h)
  rw [List.length_take]
  omega

theorem flatten_pieces (n : Nat) (s : List α) : (pieces nl n s).flatten = s := by
  induction hs : s.length using Nat.strongRecOn generalizing s with
  | ind m ih =>
    by_cases hne : s = []
    · rw [hne, pieces_nil, List.flatten_nil]
    · have hpos := @length_piece_pos α _ nl n _ hne
      have hall := @piece_append α _ nl n s
      have hlt : (s.drop ((first nl s).take (n + 1)).length).length < m := by
        rw [List.length_drop]
        have := List.length_pos_iff.mpr hne
        omega
      rw [pieces_of_ne hne, List.flatten_cons, ih _ hlt _ rfl, hall]

/-- The pieces of a line come before those of the text after it. -/
theorem pieces_line (n : Nat) {l : List α} (h : Line nl l) (s : List α) :
    pieces nl n (l ++ s) = pieces nl n l ++ pieces nl n s := by
  induction hl : l.length using Nat.strongRecOn generalizing l with
  | ind m ih =>
    have hne : l ++ s ≠ [] := by simp [h.ne_nil]
    have hpos := @length_piece_pos α _ nl n _ h.ne_nil
    rw [h.first_self] at hpos
    rw [pieces_of_ne hne, pieces_of_ne h.ne_nil, h.first_append, h.first_self, List.cons_append]
    congr 1
    have hle : (l.take (n + 1)).length ≤ l.length := by
      rw [List.length_take]
      exact Nat.min_le_right _ _
    rw [List.drop_append_of_le_length hle]
    by_cases hall : (l.take (n + 1)).length = l.length
    · rw [hall, List.drop_length, pieces_nil, List.nil_append, List.nil_append]
    · exact ih _ (by rw [List.length_drop]; omega) (h.drop (by omega)) rfl

theorem pieces_lines (n : Nat) {ls : List (List α)} (h : ∀ l ∈ ls, Line nl l) (s : List α) :
    pieces nl n (ls.flatten ++ s) = pieces nl n ls.flatten ++ pieces nl n s := by
  induction ls with
  | nil => rw [List.flatten_nil, pieces_nil, List.nil_append, List.nil_append]
  | cons l ls ih =>
    have hl := h l List.mem_cons_self
    rw [List.flatten_cons, List.append_assoc, pieces_line n hl, pieces_line n hl,
      ih fun l' hl' => h l' (List.mem_cons_of_mem _ hl'), List.append_assoc]

/-- A piece of a line is a part of it. -/
theorem infix_of_mem_pieces {n : Nat} {s p : List α} (h : p ∈ pieces nl n s) : p <:+: s := by
  have hflat := @flatten_pieces α _ nl n s
  obtain ⟨a, b, hab⟩ := List.append_of_mem h
  rw [hab, List.flatten_append, List.flatten_cons] at hflat
  exact ⟨a.flatten, b.flatten, by rw [← hflat, List.append_assoc]⟩

/-- The offset of the first piece of a kind, or that of the end. -/
def offset (p : List α → Bool) : List (List α) → Nat
  | [] => 0
  | c :: cs => if p c then 0 else c.length + offset p cs

omit [DecidableEq α] in
theorem offset_append {p : List α → Bool} {cs : List (List α)} (h : ∀ c ∈ cs, p c = false)
    (ds : List (List α)) : offset p (cs ++ ds) = cs.flatten.length + offset p ds := by
  induction cs with
  | nil => simp
  | cons c cs ih =>
    have hc : ¬p c = true := by rw [h c List.mem_cons_self]; exact Bool.false_ne_true
    rw [List.cons_append, offset, if_neg hc, ih fun d hd => h d (List.mem_cons_of_mem _ hd),
      List.flatten_cons, List.length_append]
    omega

omit [DecidableEq α] in
/-- A piece is found among the first ones, or the search goes on behind them. -/
theorem offset_append_cases (p : List α → Bool) (cs : List (List α)) (hne : ∀ c ∈ cs, c ≠ [])
    (ds : List (List α)) : offset p (cs ++ ds) < cs.flatten.length ∨
      offset p (cs ++ ds) = cs.flatten.length + offset p ds := by
  induction cs with
  | nil =>
    right
    simp
  | cons c cs ih =>
    have hpos := List.length_pos_iff.mpr (hne c List.mem_cons_self)
    rw [List.cons_append, offset, List.flatten_cons, List.length_append]
    split
    · left
      omega
    · rcases ih fun d hd => hne d (List.mem_cons_of_mem _ hd) with h | h
      · left
        omega
      · right
        omega

theorem ne_nil_of_mem_pieces {n : Nat} {s c : List α} (h : c ∈ pieces nl n s) : c ≠ [] := by
  induction hs : s.length using Nat.strongRecOn generalizing s with
  | ind m ih =>
    by_cases hne : s = []
    · rw [hne, pieces_nil] at h
      cases h
    · have hpos := @length_piece_pos α _ nl n _ hne
      rw [pieces_of_ne hne, List.mem_cons] at h
      rcases h with rfl | h
      · exact List.length_pos_iff.mp hpos
      · refine ih _ ?_ h rfl
        rw [List.length_drop]
        have := List.length_pos_iff.mpr hne
        omega

/-- At the offset the text ends, or a piece of the kind begins. -/
theorem offset_pieces (p : List α → Bool) (n : Nat) (s : List α) :
    offset p (pieces nl n s) = s.length ∨
      p ((first nl (s.drop (offset p (pieces nl n s)))).take (n + 1)) = true := by
  induction hs : s.length using Nat.strongRecOn generalizing s with
  | ind m ih =>
    subst hs
    by_cases hne : s = []
    · rw [hne, pieces_nil]
      exact .inl rfl
    · have hpos := @length_piece_pos α _ nl n _ hne
      have hall := @piece_append α _ nl n s
      have hlen := congrArg List.length hall
      rw [List.length_append] at hlen
      rw [pieces_of_ne hne, offset]
      split
      · rename_i hp
        exact .inr hp
      · rw [← List.drop_drop]
        rcases ih _ (by omega) (s.drop ((first nl s).take (n + 1)).length) rfl with h | h
        · left
          omega
        · exact .inr h

end

end linetext
