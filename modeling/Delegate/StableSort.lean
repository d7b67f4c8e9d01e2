-- Sorting by picking the first least element of what is left, again and again.
-- The result is in order, and elements that compare equal keep their order.
import Mathlib

namespace stablesort

variable {α : Type} {le : α → α → Prop} {l rest out : List α} {m : α}

/-- `m` is the first least element of a list, and `pre ++ post` is what is left. -/
inductive Picked (le : α → α → Prop) : List α → α → List α → Prop
  | mk {pre post : List α} {m : α} (before : ∀ x ∈ pre, le m x ∧ ¬le x m)
      (after : ∀ x ∈ post, le m x) : Picked le (pre ++ m :: post) m (pre ++ post)

/-- The elements are picked one by one into the result. -/
inductive Sorts (le : α → α → Prop) : List α → List α → Prop
  | nil : Sorts le [] []
  | cons {l rest out : List α} {m : α} :
      Picked le l m rest → Sorts le rest out → Sorts le l (m :: out)

theorem Picked.perm (h : Picked le l m rest) : (m :: rest).Perm l := by
  cases h with
  | mk before after => exact List.perm_middle.symm

theorem Picked.least (h : Picked le l m rest) : ∀ x ∈ rest, le m x := by
  cases h with
  | mk before after =>
    intro x hx
    rcases List.mem_append.mp hx with hx | hx
    · exact (before x hx).1
    · exact after x hx

/-- Of elements that compare equal to it, the one picked is the first. -/
theorem Picked.filter {p : α → Bool} (hp : ∀ x y, p x = true → p y = true → le x y)
    (h : Picked le l m rest) : (m :: rest).filter p = l.filter p := by
  cases h with
  | @mk pre post m before after =>
    rw [← List.cons_append, List.filter_append, List.filter_append, List.filter_cons,
      List.filter_cons]
    split
    · rename_i hm
      have hnone : pre.filter p = [] := by
        apply List.filter_eq_nil_iff.mpr
        intro x hx hpx
        exact (before x hx).2 (hp x m hpx hm)
      rw [hnone]
      rfl
    · rfl

theorem Sorts.perm (h : Sorts le l out) : out.Perm l := by
  induction h with
  | nil => exact List.Perm.refl _
  | cons hpick _ ih => exact (ih.cons _).trans hpick.perm

theorem Sorts.pairwise (h : Sorts le l out) : out.Pairwise le := by
  induction h with
  | nil => exact List.Pairwise.nil
  | cons hpick hrest ih =>
    apply List.pairwise_cons.mpr
    constructor
    · intro x hx
      exact hpick.least x (hrest.perm.subset hx)
    · exact ih

/-- The sort is stable: elements that all compare equal stand in their order. -/
theorem Sorts.filter {p : α → Bool} (hp : ∀ x y, p x = true → p y = true → le x y)
    (h : Sorts le l out) : out.filter p = l.filter p := by
  induction h with
  | nil => rfl
  | cons hpick _ ih =>
    rw [← hpick.filter hp, List.filter_cons, List.filter_cons, ih]

end stablesort
