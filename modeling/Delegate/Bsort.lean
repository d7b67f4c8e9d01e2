-- A selection sort by a comparison that need not be an order. Each turn looks
-- at the rest of the elements in their order, keeps the one that beats the one
-- kept before, and puts the last one kept at the end of the result.
import Mathlib

namespace bsort

variable {α : Type} [DecidableEq α]

/-- The inner loop: the element kept after the elements of the list. An element takes the place
of the one kept before if `compar` is positive. -/
def champion (compar : α → α → Int) : α → List α → α
  | m, [] => m
  | m, d :: l => if 0 < compar m d then champion compar d l else champion compar m l

/-- The outer loop, for at most `n` elements. -/
def select (compar : α → α → Int) : Nat → List α → List α
  | 0, _ => []
  | _, [] => []
  | n + 1, a :: l =>
    let c := champion compar a l
    c :: select compar n ((a :: l).erase c)

def Bsort (compar : α → α → Int) (l : List α) : List α := select compar l.length l

variable {compar : α → α → Int}

omit [DecidableEq α] in
theorem champion_mem (m : α) (l : List α) : champion compar m l ∈ m :: l := by
  induction l generalizing m with
  | nil => exact List.mem_cons_self
  | cons d l ih =>
    unfold champion
    split
    · exact List.mem_cons_of_mem _ (ih d)
    · rcases List.mem_cons.mp (ih m) with h | h
      · rw [h]
        exact List.mem_cons_self
      · exact List.mem_cons_of_mem _ (List.mem_cons_of_mem _ h)

theorem length_erase_champion (a : α) (l : List α) :
    ((a :: l).erase (champion compar a l)).length = l.length := by
  rw [List.length_erase_of_mem (champion_mem a l)]
  rfl

theorem select_perm (n : Nat) (l : List α) (hn : l.length ≤ n) : (select compar n l).Perm l := by
  induction n generalizing l with
  | zero => rw [List.length_eq_zero_iff.mp (Nat.le_zero.mp hn)]; rfl
  | succ n ih =>
    cases l with
    | nil => rfl
    | cons a l =>
      have hlen : ((a :: l).erase (champion compar a l)).length ≤ n := by
        rw [length_erase_champion]
        simpa using hn
      have hrest := ih _ hlen
      exact (hrest.cons _).trans (List.perm_cons_erase (champion_mem a l)).symm

theorem Bsort_perm (l : List α) : (Bsort compar l).Perm l := select_perm _ l le_rfl

section Spec
variable {Bad : α → Prop} {y : α}

omit [DecidableEq α] in
/-- If only bad elements are beaten by bad ones after them, then no bad element is kept after a
good one. -/
theorem champion_of_good {m : α} (hm : ¬Bad m) {l : List α}
    (hl : (m :: l).Pairwise fun a b => 0 < compar a b → Bad b → Bad a) :
    ¬Bad (champion compar m l) := by
  induction l generalizing m with
  | nil => exact hm
  | cons d l ih =>
    obtain ⟨hfirst, htail⟩ := List.pairwise_cons.mp hl
    unfold champion
    split
    · rename_i hlt
      exact ih (fun hd => hm (hfirst d List.mem_cons_self hlt hd)) htail
    · apply ih hm
      apply List.pairwise_cons.mpr
      exact ⟨fun b hb => hfirst b (List.mem_cons_of_mem _ hb), (List.pairwise_cons.mp htail).2⟩

omit [DecidableEq α] in
/-- If `y` also beats the bad elements, then none of them is kept in the end. -/
theorem champion_not_bad (hy : ¬Bad y) (hbeat : ∀ a, Bad a → 0 < compar a y) {m : α} {l : List α}
    (hl : (m :: l).Pairwise fun a b => 0 < compar a b → Bad b → Bad a) (hmem : y ∈ m :: l) :
    ¬Bad (champion compar m l) := by
  induction l generalizing m with
  | nil =>
    rw [List.mem_singleton] at hmem
    rw [← hmem]
    exact hy
  | cons d l ih =>
    obtain ⟨hfirst, htail⟩ := List.pairwise_cons.mp hl
    have hskip : (m :: l).Pairwise fun a b => 0 < compar a b → Bad b → Bad a := by
      apply List.pairwise_cons.mpr
      exact ⟨fun b hb => hfirst b (List.mem_cons_of_mem _ hb), (List.pairwise_cons.mp htail).2⟩
    by_cases hm : Bad m
    · -- a bad element is kept, so `y` is still to come
      have hmy : y ≠ m := fun h => hy (h ▸ hm)
      have hrest : y ∈ d :: l := (List.mem_cons.mp hmem).resolve_left hmy
      unfold champion
      split
      · exact ih htail hrest
      · rename_i hlt
        have hdy : y ≠ d := fun h => hlt (h ▸ hbeat m hm)
        apply ih hskip
        exact List.mem_cons_of_mem _ ((List.mem_cons.mp hrest).resolve_left hdy)
    · exact champion_of_good hm hl

end Spec

/-- In the result no element has one after it for which it is bad. -/
theorem Bsort_pairwise {Bad : α → α → Prop} {l : List α} (hself : ∀ y, ¬Bad y y)
    (hbeat : ∀ y a, Bad y a → 0 < compar a y)
    (hl : ∀ y ∈ l, l.Pairwise fun a b => 0 < compar a b → Bad y b → Bad y a) :
    (Bsort compar l).Pairwise fun a y => ¬Bad y a := by
  unfold Bsort
  generalize hn : l.length = n
  induction n generalizing l with
  | zero => exact List.Pairwise.nil
  | succ n ih =>
    cases l with
    | nil => cases hn
    | cons a l =>
      have hlen : ((a :: l).erase (champion compar a l)).length = n := by
        rw [length_erase_champion]
        simpa using hn
      have hsub : ((a :: l).erase (champion compar a l)).Sublist (a :: l) := List.erase_sublist
      apply List.pairwise_cons.mpr
      constructor
      · intro y hy
        have hmem : y ∈ a :: l := hsub.subset ((select_perm n _ hlen.le).subset hy)
        exact champion_not_bad (hself y) (hbeat y) (hl y hmem) hmem
      · exact ih (fun y hy => (hl y (hsub.subset hy)).sublist hsub) hlen

end bsort
