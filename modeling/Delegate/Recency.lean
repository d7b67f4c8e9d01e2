-- The values of a history by their last use, and a list of the latest of them
-- that is kept by moving each used value to the front.
import Mathlib.Data.List.Nodup

namespace recency

section
variable {α : Type} [DecidableEq α]

/-- The distinct values of a history, the last used first. The history is given from its end. -/
def recent : List α → List α
  | [] => []
  | x :: h => x :: (recent h).filter (· ≠ x)

theorem mem_recent {h : List α} {x : α} : x ∈ recent h ↔ x ∈ h := by
  induction h with
  | nil => exact Iff.rfl
  | cons y h ih =>
    rw [recent, List.mem_cons, List.mem_cons, List.mem_filter, ih]
    by_cases hxy : x = y <;> simp [hxy]

theorem nodup_recent (h : List α) : (recent h).Nodup := by
  induction h with
  | nil => exact List.nodup_nil
  | cons y h ih =>
    rw [recent, List.nodup_cons]
    exact ⟨by simp, ih.filter _⟩

/-- A list without the value at an index. -/
theorem erase_eq_of_search {l a b : List α} {x : α} (h : l = a ++ x :: b) (ha : x ∉ a) :
    l.erase x = a ++ b := by
  rw [h, List.erase_append_right _ ha, List.erase_cons_head]

/-- The first values without one of them are those of the list without it. -/
theorem take_filter {l : List α} (hl : l.Nodup) (x : α) (k : Nat) :
    ((l.take (k + 1)).filter (· ≠ x)).take k = (l.filter (· ≠ x)).take k := by
  induction l generalizing k with
  | nil => rfl
  | cons y l ih =>
    rw [List.nodup_cons] at hl
    rw [List.take_succ_cons]
    by_cases hyx : y = x
    · subst hyx
      have hrest : ∀ m : List α, y ∉ m → m.filter (· ≠ y) = m := by
        intro m hm
        apply List.filter_eq_self.mpr
        intro z hz
        exact decide_eq_true fun hzy => hm (hzy ▸ hz)
      have hhead : ∀ m : List α, (y :: m).filter (· ≠ y) = m.filter (· ≠ y) := by
        intro m
        simp
      rw [hhead, hhead, hrest l hl.1, hrest _ fun hm => hl.1 (List.mem_of_mem_take hm),
        List.take_take, Nat.min_self]
    · have hkeep : ∀ m : List α, (y :: m).filter (· ≠ x) = y :: m.filter (· ≠ x) := by
        intro m
        simp [hyx]
      rw [hkeep, hkeep]
      cases k with
      | zero => rfl
      | succ k => rw [List.take_succ_cons, List.take_succ_cons, ih hl.2]

/-- The latest values after one more use: the value, and those before it as far as there is room. -/
theorem take_recent_cons (x : α) (h : List α) (k : Nat) :
    (recent (x :: h)).take (k + 1) = x :: (((recent h).take (k + 1)).erase x).take k := by
  have herase : ((recent h).take (k + 1)).erase x = ((recent h).take (k + 1)).filter (· ≠ x) := by
    rw [((nodup_recent h).sublist (List.take_sublist _ _)).erase_eq_filter]
    congr 1
    funext y
    by_cases hyx : y = x <;> simp [hyx]
  rw [recent, List.take_succ_cons, herase, take_filter (nodup_recent h)]

end

end recency
