-- Search for a pattern by an automaton without a failure function: after a symbol
-- that does not continue the part that is matched, it goes on from the start.
-- It finds each first occurrence exactly if every start that ends a longer one is
-- continued by the same symbol.
import Mathlib.Data.List.Infix

namespace borders

variable {α : Type} [DecidableEq α]

/-! ## The automaton -/

/-- The part of the pattern that is matched, after one more symbol. -/
def step (p : List α) (i : Nat) (c : α) : Nat :=
  if p[i]? = some c then i + 1 else if p[0]? = some c then 1 else 0

/-- The number of symbols until the whole pattern is matched. -/
def reach (p : List α) : Nat → List α → Option Nat
  | i, [] => if i = p.length then some 0 else none
  | i, c :: t => if i = p.length then some 0 else (reach p (step p i c) t).map (· + 1)

/-- A start of the pattern that ends a longer start is continued as that one. -/
def Steady (p : List α) : Prop :=
  ∀ i k, 0 < i → i < k → k < p.length → p.take i <:+ p.take k → p[i]? = p[k]?

/-- The greatest start of the pattern that ends the text. -/
structure Matched (p u : List α) (i : Nat) : Prop where
  le : i ≤ p.length
  ends : p.take i <:+ u
  greatest : ∀ j ≤ p.length, p.take j <:+ u → j ≤ i

/-! ## One symbol -/

omit [DecidableEq α] in
theorem take_succ_suffix_iff {p u : List α} {c : α} {j : Nat} (hj : j < p.length) :
    p.take (j + 1) <:+ u ++ [c] ↔ p[j]? = some c ∧ p.take j <:+ u := by
  rw [List.take_add_one, List.getElem?_eq_getElem hj, Option.toList_some, List.suffix_concat_iff]
  constructor
  · rintro (h | ⟨t, h, ht⟩)
    · exact absurd (List.append_eq_nil_iff.mp h).2 (List.cons_ne_nil _ _)
    · obtain ⟨rfl, hc⟩ := List.append_inj' h rfl
      rw [List.cons.injEq] at hc
      exact ⟨congrArg some hc.1, ht⟩
  · rintro ⟨hc, h⟩
    exact .inr ⟨_, by rw [Option.some.inj hc], h⟩

theorem step_le {p : List α} {i : Nat} {c : α} : step p i c ≤ p.length := by
  unfold step
  split
  · rename_i h
    have := (List.getElem?_eq_some_iff.mp h).1
    omega
  · split
    · rename_i h
      exact (List.getElem?_eq_some_iff.mp h).1
    · exact Nat.zero_le _

theorem step_le_succ {p : List α} {i : Nat} {c : α} : step p i c ≤ i + 1 := by
  unfold step
  split
  · exact Nat.le_refl _
  · split <;> omega

/-- What is matched after a symbol ends the text up to it. -/
theorem step_ends {p u : List α} {i : Nat} (c : α) (h : p.take i <:+ u) :
    p.take (step p i c) <:+ u ++ [c] := by
  unfold step
  split
  · rename_i hc
    exact (take_succ_suffix_iff (List.getElem?_eq_some_iff.mp hc).1).mpr ⟨hc, h⟩
  · split
    · rename_i hc
      exact (take_succ_suffix_iff (List.getElem?_eq_some_iff.mp hc).1).mpr ⟨hc, by simp⟩
    · simp

theorem Matched.step {p u : List α} {i : Nat} (hp : Steady p) (h : Matched p u i)
    (hi : i < p.length) (c : α) : Matched p (u ++ [c]) (step p i c) := by
  refine ⟨step_le, step_ends c h.ends, ?_⟩
  intro j hj hends
  cases j with
  | zero => exact Nat.zero_le _
  | succ j =>
    obtain ⟨hc, hu⟩ := (take_succ_suffix_iff hj).mp hends
    have hji := h.greatest j (by omega) hu
    unfold borders.step
    split
    · omega
    · rename_i hne
      have hlt : j < i := by
        refine lt_of_le_of_ne hji ?_
        rintro rfl
        exact hne hc
      -- A start that is left ends the one that is matched, so it would go on as that one.
      have hzero : j = 0 := by
        by_contra hpos
        have hborder : p.take j <:+ p.take i := by
          refine List.suffix_of_suffix_length_le hu h.ends ?_
          simp only [List.length_take]
          omega
        exact hne (hp j i (by omega) hlt hi hborder ▸ hc)
      rw [hzero] at hc ⊢
      rw [if_pos hc]

/-! ## Runs -/

/-- What is reached is an occurrence. -/
theorem reach_some {p t u : List α} {i k : Nat} (hends : p.take i <:+ u)
    (h : reach p i t = some k) : k ≤ t.length ∧ p <:+ u ++ t.take k := by
  induction t generalizing u i k with
  | nil =>
    unfold reach at h
    split at h
    · rename_i hi
      rw [hi, List.take_length] at hends
      cases h
      exact ⟨Nat.le_refl _, by simpa using hends⟩
    · cases h
  | cons c t ih =>
    unfold reach at h
    split at h
    · rename_i hi
      rw [hi, List.take_length] at hends
      cases h
      exact ⟨Nat.zero_le _, by simpa using hends⟩
    · obtain ⟨k, hk, rfl⟩ := Option.map_eq_some_iff.mp h
      obtain ⟨hle, hsuf⟩ := ih (step_ends c hends) hk
      refine ⟨Nat.succ_le_succ hle, ?_⟩
      rw [List.take_succ_cons, List.append_cons]
      exact hsuf

/-- With a steady pattern, an occurrence is reached, or an earlier one. -/
theorem reach_of_occurs {p t u : List α} {i m : Nat} (hp : Steady p) (h : Matched p u i)
    (hm : m ≤ t.length) (hsuf : p <:+ u ++ t.take m) : ∃ k ≤ m, reach p i t = some k := by
  have hfull : p <:+ u → i = p.length := fun hu =>
    Nat.le_antisymm h.le (h.greatest _ (Nat.le_refl _) (by rwa [List.take_length]))
  induction t generalizing u i m with
  | nil =>
    have hi := hfull (by simpa using hsuf)
    exact ⟨0, Nat.zero_le _, by unfold reach; rw [if_pos hi]⟩
  | cons c t ih =>
    unfold reach
    by_cases hi : i = p.length
    · exact ⟨0, Nat.zero_le _, if_pos hi⟩
    · rw [if_neg hi]
      cases m with
      | zero => exact absurd (hfull (by simpa using hsuf)) hi
      | succ m =>
        have hlt : i < p.length := lt_of_le_of_ne h.le hi
        have hstep := h.step hp hlt c
        rw [List.take_succ_cons, List.append_cons] at hsuf
        obtain ⟨k, hk, hreach⟩ := ih hstep (Nat.le_of_succ_le_succ hm) hsuf fun hu =>
          Nat.le_antisymm hstep.le (hstep.greatest _ (Nat.le_refl _) (by rwa [List.take_length]))
        exact ⟨k + 1, Nat.succ_le_succ hk, by rw [hreach]; rfl⟩

omit [DecidableEq α] in
/-- At the start nothing is matched. -/
theorem matched_nil (p : List α) : Matched p [] 0 := by
  refine ⟨Nat.zero_le _, by simp, ?_⟩
  intro j hj h
  rw [List.suffix_nil, List.take_eq_nil_iff] at h
  rcases h with h | h
  · omega
  · rw [h] at hj
    exact hj

/-! ## Patterns that are missed -/

/-- The part that is matched grows by one symbol in a step at most. -/
theorem reach_eq_none {p t : List α} {i : Nat} (h : i + t.length < p.length) :
    reach p i t = none := by
  induction t generalizing i with
  | nil =>
    rw [List.length_nil] at h
    unfold reach
    rw [if_neg (by omega)]
  | cons c t ih =>
    rw [List.length_cons] at h
    have hstep := @step_le_succ α _ p i c
    unfold reach
    rw [if_neg (by omega), ih (by omega)]
    rfl

/-- A start of the pattern is read. -/
theorem reach_take {p t : List α} {k : Nat} (i : Nat) (hk : i + k < p.length) :
    reach p i ((p.drop i).take k ++ t) = (reach p (i + k) t).map (· + k) := by
  induction k generalizing i with
  | zero => simp
  | succ k ih =>
    have hi : i < p.length := by omega
    have hstep : step p i p[i] = i + 1 := if_pos (List.getElem?_eq_getElem hi)
    rw [List.drop_eq_getElem_cons hi, List.take_succ_cons, List.cons_append, reach,
      if_neg (by omega), hstep, ih (i + 1) (by omega), Option.map_map, Nat.add_right_comm, Nat.add_assoc]
    rfl

/-- Where a pattern is not steady there is a text that it is missed in. -/
theorem missed_of_not_steady {p : List α} (h : ¬Steady p) :
    ∃ i k, p <:+ p.take k ++ p.drop i ∧ reach p 0 (p.take k ++ p.drop i) = none := by
  unfold Steady at h
  push Not at h
  obtain ⟨i, k, hi, hik, hk, hborder, hne⟩ := h
  refine ⟨i, k, ?_, ?_⟩
  · obtain ⟨s, hs⟩ := hborder
    exact ⟨s, by rw [← hs, List.append_assoc, List.take_append_drop]⟩
  · have hread := @reach_take α _ p (p.drop i) k 0 (by omega)
    rw [List.drop_zero, Nat.zero_add] at hread
    have hlt : i < p.length := by omega
    have hstep : step p k p[i] ≤ 1 := by
      unfold step
      rw [if_neg (by rw [← List.getElem?_eq_getElem hlt]; exact Ne.symm hne)]
      split <;> omega
    rw [hread, List.drop_eq_getElem_cons hlt, reach, if_neg (by omega), reach_eq_none]
    · rfl
    · rw [List.length_drop]
      omega

end borders
