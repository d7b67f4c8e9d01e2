-- Swaps of places in a list. Swaps of different places commute, so to do all of
-- them twice changes nothing.
import Mathlib.Data.List.Basic
import Mathlib.Data.List.GetD
import Mathlib.Data.List.Pairwise
import Mathlib.Data.List.Range

namespace swaps

variable {α : Type}

/-- The values at two places change places; `d` stands for what is outside. -/
def swapAt (d : α) (l : List α) (p : Nat × Nat) : List α :=
  (l.set p.1 (l.getD p.2 d)).set p.2 (l.getD p.1 d)

/-- The swaps one after the other. -/
def swapAll (d : α) (l : List α) (ps : List (Nat × Nat)) : List α := ps.foldl (swapAt d) l

/-- The swaps have no place in common. -/
def Apart (p q : Nat × Nat) : Prop := p.1 ≠ q.1 ∧ p.1 ≠ q.2 ∧ p.2 ≠ q.1 ∧ p.2 ≠ q.2

variable (d : α)

@[simp]
theorem length_swapAt (l : List α) (p : Nat × Nat) : (swapAt d l p).length = l.length := by
  simp [swapAt]

@[simp]
theorem length_swapAll (l : List α) (ps : List (Nat × Nat)) :
    (swapAll d l ps).length = l.length := by
  induction ps generalizing l with
  | nil => rfl
  | cons p ps ih =>
    unfold swapAll
    rw [List.foldl_cons]
    exact (ih _).trans (length_swapAt d l p)

/-- What is at a place after a swap. -/
theorem getD_swapAt {l : List α} {p : Nat × Nat} (h1 : p.1 < l.length) (h2 : p.2 < l.length)
    (i : Nat) :
    (swapAt d l p).getD i d =
      if i = p.2 then l.getD p.1 d else if i = p.1 then l.getD p.2 d else l.getD i d := by
  unfold swapAt
  simp only [List.getD_eq_getElem?_getD, List.getElem?_set, List.length_set]
  by_cases hi2 : p.2 = i
  · rw [if_pos hi2, if_pos h2, if_pos hi2.symm]
    rfl
  · rw [if_neg hi2, if_neg (Ne.symm hi2)]
    by_cases hi1 : p.1 = i
    · rw [if_pos hi1, if_pos h1, if_pos hi1.symm]
      rfl
    · rw [if_neg hi1, if_neg (Ne.symm hi1)]

theorem eq_of_getD {l m : List α} (hlen : l.length = m.length)
    (h : ∀ i, l.getD i d = m.getD i d) : l = m := by
  apply List.ext_getElem hlen
  intro i hl hm
  have hi := h i
  rwa [List.getD_eq_getElem _ _ hl, List.getD_eq_getElem _ _ hm] at hi

/-- To swap twice changes nothing. -/
theorem swapAt_swapAt {l : List α} {p : Nat × Nat} (h1 : p.1 < l.length) (h2 : p.2 < l.length) :
    swapAt d (swapAt d l p) p = l := by
  apply eq_of_getD d (by simp)
  intro i
  have h1' : p.1 < (swapAt d l p).length := by simpa using h1
  have h2' : p.2 < (swapAt d l p).length := by simpa using h2
  rw [getD_swapAt d h1' h2', getD_swapAt d h1 h2, getD_swapAt d h1 h2, getD_swapAt d h1 h2]
  by_cases hi2 : i = p.2
  · rw [if_pos hi2, if_pos rfl, hi2]
    split <;> simp_all
  · rw [if_neg hi2, if_neg hi2]
    by_cases hi1 : i = p.1
    · rw [if_pos hi1, if_pos rfl, hi1]
    · rw [if_neg hi1, if_neg hi1]

theorem swapAt_comm {l : List α} {p q : Nat × Nat} (hp1 : p.1 < l.length) (hp2 : p.2 < l.length)
    (hq1 : q.1 < l.length) (hq2 : q.2 < l.length) (h : Apart p q) :
    swapAt d (swapAt d l p) q = swapAt d (swapAt d l q) p := by
  obtain ⟨h11, h12, h21, h22⟩ := h
  apply eq_of_getD d (by simp)
  intro i
  have hq1' : q.1 < (swapAt d l p).length := by simpa using hq1
  have hq2' : q.2 < (swapAt d l p).length := by simpa using hq2
  have hp1' : p.1 < (swapAt d l q).length := by simpa using hp1
  have hp2' : p.2 < (swapAt d l q).length := by simpa using hp2
  rw [getD_swapAt d hq1' hq2', getD_swapAt d hp1' hp2']
  simp only [getD_swapAt d hp1 hp2, getD_swapAt d hq1 hq2]
  by_cases hiq2 : i = q.2
  · simp [hiq2, h12.symm, h22.symm, h11.symm, h21.symm]
  · by_cases hiq1 : i = q.1
    · simp [hiq1, h12.symm, h22.symm, h11.symm, h21.symm]
    · simp only [if_neg hiq2, if_neg hiq1, if_neg h11, if_neg h12, if_neg h21, if_neg h22]

theorem swapAt_swapAll {l : List α} {p : Nat × Nat} (hp : p.1 < l.length ∧ p.2 < l.length)
    (ps : List (Nat × Nat)) (hin : ∀ q ∈ ps, q.1 < l.length ∧ q.2 < l.length)
    (h : ∀ q ∈ ps, Apart p q) :
    swapAll d (swapAt d l p) ps = swapAt d (swapAll d l ps) p := by
  induction ps generalizing l with
  | nil => rfl
  | cons q ps ih =>
    obtain ⟨hq1, hq2⟩ := hin q List.mem_cons_self
    have hstep := swapAt_comm d hp.1 hp.2 hq1 hq2 (h q List.mem_cons_self)
    have hlen : (swapAt d l q).length = l.length := length_swapAt d l q
    unfold swapAll at *
    rw [List.foldl_cons, List.foldl_cons, hstep]
    apply ih
    · rwa [hlen]
    · intro r hr
      rw [hlen]
      exact hin r (List.mem_cons_of_mem _ hr)
    · exact fun r hr => h r (List.mem_cons_of_mem _ hr)

/-- To do all the swaps twice changes nothing. -/
theorem swapAll_swapAll {l : List α} (ps : List (Nat × Nat)) (happart : ps.Pairwise Apart)
    (hin : ∀ q ∈ ps, q.1 < l.length ∧ q.2 < l.length) :
    swapAll d (swapAll d l ps) ps = l := by
  induction ps generalizing l with
  | nil => rfl
  | cons p ps ih =>
    have hp := hin p List.mem_cons_self
    have hrest : ∀ q ∈ ps, q.1 < l.length ∧ q.2 < l.length :=
      fun q hq => hin q (List.mem_cons_of_mem _ hq)
    rw [List.pairwise_cons] at happart
    have hcons : ∀ m : List α, swapAll d m (p :: ps) = swapAll d (swapAt d m p) ps := fun m => rfl
    rw [hcons, hcons, swapAt_swapAll d hp ps hrest happart.1,
      swapAt_swapAt d (by simpa using hp.1) (by simpa using hp.2)]
    exact ih happart.2 hrest

end swaps
