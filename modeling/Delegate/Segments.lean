-- Texts as segments between separators, and the stack that resolves the
-- segments for the current and the upper directory.
import Mathlib

namespace segs

variable {α : Type} [DecidableEq α] (sep : α)

/-! ## Segments -/

/-- The segments that a separator ends, each with its separator. -/
def flat (ds : List (List α)) : List α := (ds.map (· ++ [sep])).flatten

/-- The segments that a separator ends, and the last segment. -/
def split : List α → List (List α) × List α
  | [] => ([], [])
  | c :: s =>
    let p := split s
    if c = sep then ([] :: p.1, p.2)
    else
      match p.1 with
      | [] => ([], c :: p.2)
      | d :: ds => ((c :: d) :: ds, p.2)

/-- All segments of a text. -/
def segments (s : List α) : List (List α) := (split sep s).1 ++ [(split sep s).2]

variable {sep}

omit [DecidableEq α] in
@[simp] theorem flat_nil : flat sep [] = [] := rfl

omit [DecidableEq α] in
@[simp] theorem flat_cons (d : List α) (ds : List (List α)) :
    flat sep (d :: ds) = d ++ sep :: flat sep ds := by
  simp [flat]

omit [DecidableEq α] in
@[simp] theorem flat_append (ds es : List (List α)) :
    flat sep (ds ++ es) = flat sep ds ++ flat sep es := by
  simp [flat]

/-- The segments make up the text, and have no separator in them. -/
theorem split_spec (s : List α) :
    s = flat sep (split sep s).1 ++ (split sep s).2 ∧ (∀ d ∈ (split sep s).1, sep ∉ d) ∧
      sep ∉ (split sep s).2 := by
  induction s with
  | nil => exact ⟨rfl, by simp [split], by simp [split]⟩
  | cons c s ih =>
    obtain ⟨hs, hds, hlast⟩ := ih
    unfold split
    by_cases hc : c = sep
    · subst hc
      simp only [if_true]
      refine ⟨by simpa using hs, ?_, hlast⟩
      rintro d (_ | ⟨_, hd⟩)
      · exact List.not_mem_nil
      · exact hds d hd
    · simp only [hc, if_false]
      cases hp : (split sep s).1 with
      | nil =>
        rw [hp] at hs
        exact ⟨by simpa using hs, by simp, by simp [Ne.symm hc, hlast]⟩
      | cons d ds =>
        rw [hp] at hs hds
        refine ⟨by simpa using hs, ?_, hlast⟩
        rintro e (_ | ⟨_, he⟩)
        · simp [Ne.symm hc, hds d List.mem_cons_self]
        · exact hds e (List.mem_cons_of_mem _ he)

theorem split_of_not_mem {s : List α} (h : sep ∉ s) : split sep s = ([], s) := by
  induction s with
  | nil => rfl
  | cons c s ih =>
    obtain ⟨hc, hs⟩ := List.ne_and_not_mem_of_not_mem_cons h
    simp [split, ih hs, Ne.symm hc]

theorem split_append_sep {d : List α} (h : sep ∉ d) (s : List α) :
    split sep (d ++ sep :: s) = (d :: (split sep s).1, (split sep s).2) := by
  induction d with
  | nil => simp [split]
  | cons c d ih =>
    obtain ⟨hc, hd⟩ := List.ne_and_not_mem_of_not_mem_cons h
    simp [split, ih hd, Ne.symm hc]

theorem split_flat {ds : List (List α)} (h : ∀ d ∈ ds, sep ∉ d) (s : List α) :
    split sep (flat sep ds ++ s) = (ds ++ (split sep s).1, (split sep s).2) := by
  induction ds with
  | nil => rfl
  | cons d ds ih =>
    have hrest := ih fun e he => h e (List.mem_cons_of_mem _ he)
    rw [flat_cons, List.append_assoc, List.cons_append,
      split_append_sep (h d List.mem_cons_self), hrest]
    rfl

theorem segments_flat {ds : List (List α)} (h : ∀ d ∈ ds, sep ∉ d) (s : List α) :
    segments sep (flat sep ds ++ s) = ds ++ segments sep s := by
  unfold segments
  rw [split_flat h, List.append_assoc]

theorem segments_of_not_mem {s : List α} (h : sep ∉ s) : segments sep s = [s] := by
  unfold segments
  rw [split_of_not_mem h]
  rfl

theorem segments_append_sep {d : List α} (h : sep ∉ d) (s : List α) :
    segments sep (d ++ sep :: s) = d :: segments sep s := by
  unfold segments
  rw [split_append_sep h]
  rfl

/-! ## Segments put together -/

/-- The segments with the separator between them. -/
def joined (sep : α) : List (List α) → List α
  | [] => []
  | [d] => d
  | d :: ds => d ++ sep :: joined sep ds

omit [DecidableEq α] in
theorem joined_cons (d : List α) {ds : List (List α)} (h : ds ≠ []) :
    joined sep (d :: ds) = d ++ sep :: joined sep ds := by
  cases ds with
  | nil => exact absurd rfl h
  | cons e ds => rfl

omit [DecidableEq α] in
theorem joined_concat (ds : List (List α)) (d : List α) :
    joined sep (ds ++ [d]) = flat sep ds ++ d := by
  induction ds with
  | nil => rfl
  | cons e ds ih =>
    rw [List.cons_append, joined_cons e (List.concat_ne_nil d ds), ih, flat_cons, List.append_assoc]
    rfl

theorem joined_segments (s : List α) : joined sep (segments sep s) = s := by
  rw [segments, joined_concat, ← (@split_spec α _ sep s).1]

theorem segments_joined {ds : List (List α)} (hne : ds ≠ []) (h : ∀ d ∈ ds, sep ∉ d) :
    segments sep (joined sep ds) = ds := by
  induction ds with
  | nil => exact absurd rfl hne
  | cons d ds ih =>
    have hd := h d List.mem_cons_self
    by_cases hds : ds = []
    · subst hds
      exact segments_of_not_mem hd
    · rw [joined_cons d hds, segments_append_sep hd,
        ih hds fun e he => h e (List.mem_cons_of_mem _ he)]

theorem segments_ne_nil (s : List α) : segments sep s ≠ [] := List.concat_ne_nil _ _

theorem not_mem_segments {s d : List α} (hd : d ∈ segments sep s) : sep ∉ d := by
  obtain ⟨-, hds, hlast⟩ := @split_spec α _ sep s
  rcases List.mem_append.mp hd with hd | hd
  · exact hds d hd
  · rw [List.mem_singleton.mp hd]
    exact hlast

/-- A text without separator goes into the first segment. -/
theorem segments_append {a : List α} (ha : sep ∉ a) (s : List α) :
    ∃ w, segments sep (a ++ s) = (a ++ w) :: (segments sep s).tail ∧ w <+: s := by
  obtain ⟨hs, hds, hlast⟩ := @split_spec α _ sep s
  unfold segments
  cases hp : (split sep s).1 with
  | nil =>
    rw [hp] at hs
    have hmem : sep ∉ a ++ s := by
      rw [List.mem_append, hs]
      simpa using ⟨ha, hlast⟩
    rw [split_of_not_mem hmem]
    exact ⟨s, rfl, List.prefix_rfl⟩
  | cons d ds =>
    rw [hp] at hs hds
    have hmem : sep ∉ a ++ d := by
      rw [List.mem_append, not_or]
      exact ⟨ha, hds d List.mem_cons_self⟩
    refine ⟨d, ?_, ?_⟩
    · conv_lhs => rw [hs]
      rw [flat_cons, List.append_assoc, List.cons_append, ← List.append_assoc a,
        split_append_sep hmem, split_flat fun e he => hds e (List.mem_cons_of_mem _ he),
        split_of_not_mem hlast]
      simp
    · rw [hs, flat_cons, List.append_assoc]
      exact List.prefix_append _ _

/-! ## The stack -/

section Stack
variable (cur up : List α)

/-- A segment on the stack: the one for the current directory is left out, and the one for the
upper directory takes the top of the stack away. -/
def push (st : List (List α)) (d : List α) : List (List α) :=
  if d = cur then st else if d = up then st.dropLast else st ++ [d]

def isDot (d : List α) : Prop := d = cur ∨ d = up

instance instDecidableIsDot (d : List α) : Decidable (isDot cur up d) :=
  inferInstanceAs (Decidable (d = cur ∨ d = up))

/-- The text of a stack after the segments of a text. A last segment for a directory ends with a
separator. -/
def resolve (sep : α) (st : List (List α)) (s : List α) : List α :=
  let p := split sep s
  let st := p.1.foldl (push cur up) st
  if isDot cur up p.2 then flat sep (push cur up st p.2) else flat sep st ++ p.2

variable {cur up}

theorem push_of_not_dot {d : List α} (h : ¬isDot cur up d) (st : List (List α)) :
    push cur up st d = st ++ [d] := by
  unfold push
  rw [if_neg fun hc => h (.inl hc), if_neg fun hu => h (.inr hu)]

theorem mem_push {st : List (List α)} {d e : List α} (h : e ∈ push cur up st d) :
    e ∈ st ∨ (e = d ∧ ¬isDot cur up d) := by
  unfold push at h
  split at h
  · exact .inl h
  rename_i hc
  split at h
  · exact .inl (List.mem_of_mem_dropLast h)
  rename_i hu
  rcases List.mem_append.mp h with h | h
  · exact .inl h
  · exact .inr ⟨List.mem_singleton.mp h, fun hd => hd.elim hc hu⟩

/-- A dot segment makes the text of the stack no longer. -/
theorem flat_push_length {d : List α} (h : isDot cur up d) (st : List (List α)) :
    (flat sep (push cur up st d)).length ≤ (flat sep st).length := by
  unfold push
  by_cases hc : d = cur
  · rw [if_pos hc]
  · rw [if_neg hc, if_pos (h.resolve_left hc)]
    rcases List.eq_nil_or_concat st with rfl | ⟨st, e, rfl⟩
    · exact le_rfl
    · rw [List.concat_eq_append, List.dropLast_concat, flat_append, List.length_append]
      exact Nat.le_add_right _ _

theorem mem_foldl_push {ds st : List (List α)} {e : List α}
    (h : e ∈ ds.foldl (push cur up) st) : e ∈ st ∨ (e ∈ ds ∧ ¬isDot cur up e) := by
  induction ds generalizing st with
  | nil => exact .inl h
  | cons d ds ih =>
    rcases ih h with h | ⟨h, hdot⟩
    · rcases mem_push h with h | ⟨rfl, hdot⟩
      · exact .inl h
      · exact .inr ⟨List.mem_cons_self, hdot⟩
    · exact .inr ⟨List.mem_cons_of_mem _ h, hdot⟩

theorem foldl_push_of_not_dot {ds : List (List α)} (h : ∀ d ∈ ds, ¬isDot cur up d)
    (st : List (List α)) : ds.foldl (push cur up) st = st ++ ds := by
  induction ds generalizing st with
  | nil => simp
  | cons d ds ih =>
    rw [List.foldl_cons, push_of_not_dot (h d List.mem_cons_self),
      ih fun e he => h e (List.mem_cons_of_mem _ he)]
    simp

theorem resolve_flat {ds : List (List α)} (h : ∀ d ∈ ds, sep ∉ d) (st : List (List α))
    (s : List α) :
    resolve cur up sep st (flat sep ds ++ s) =
      resolve cur up sep (ds.foldl (push cur up) st) s := by
  unfold resolve
  simp only [split_flat h, List.foldl_append]

theorem resolve_of_dot {d : List α} (hd : sep ∉ d) (h : isDot cur up d) (st : List (List α)) :
    resolve cur up sep st d = flat sep (push cur up st d) := by
  unfold resolve
  simp only [split_of_not_mem hd, List.foldl_nil, if_pos h]

/-- Without dot segments nothing changes. -/
theorem resolve_of_not_dot {s : List α} (h : ∀ d ∈ segments sep s, ¬isDot cur up d)
    (st : List (List α)) : resolve cur up sep st s = flat sep st ++ s := by
  have hds : ∀ d ∈ (split sep s).1, ¬isDot cur up d := fun d hd =>
    h d (List.mem_append_left _ hd)
  have hlast : ¬isDot cur up (split sep s).2 := h _ (List.mem_append_right _ (by simp))
  unfold resolve
  simp only [foldl_push_of_not_dot hds, if_neg hlast, flat_append, List.append_assoc]
  rw [← (split_spec s).1]

end Stack

end segs
