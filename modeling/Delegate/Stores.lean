-- The stores of a routine into a memory, in the order it makes them.
import Mathlib

namespace stores

section
variable {β : Type}

/-- Stores to consecutive addresses from `p` on. -/
def run (p : Int) : List β → List (Int × β)
  | [] => []
  | b :: l => (p, b) :: run (p + 1) l

/-- The memory after stores. -/
def after (mem : Int → β) (w : List (Int × β)) : Int → β :=
  w.foldl (fun m e => Function.update m e.1 e.2) mem

/-- All stores are to addresses from `lo` to `hi`. -/
def Within (lo hi : Int) (w : List (Int × β)) : Prop := ∀ e ∈ w, lo ≤ e.1 ∧ e.1 ≤ hi

/-- The memory holds the list from `p` on. -/
def Holds (mem : Int → β) (p : Int) (l : List β) : Prop :=
  ∀ i (h : i < l.length), mem (p + i) = l[i]

variable {lo hi p : Int}

theorem within_nil : Within lo hi ([] : List (Int × β)) := fun _ h => absurd h List.not_mem_nil

theorem within_single {b : β} : Within lo hi [(p, b)] ↔ lo ≤ p ∧ p ≤ hi := by
  simp [Within]

theorem length_run (p : Int) (l : List β) : (run p l).length = l.length := by
  induction l generalizing p with
  | nil => rfl
  | cons b l ih => rw [run, List.length_cons, ih, List.length_cons]

theorem within_run {l : List β} (hlo : lo ≤ p) (hhi : p + l.length ≤ hi + 1) :
    Within lo hi (run p l) := by
  induction l generalizing p with
  | nil => exact within_nil
  | cons b l ih =>
    rw [List.length_cons] at hhi
    intro e he
    rcases List.mem_cons.mp he with rfl | he
    · exact ⟨hlo, by omega⟩
    · exact ih (by omega) (by omega) e he

theorem within_append {v w : List (Int × β)} :
    Within lo hi (v ++ w) ↔ Within lo hi v ∧ Within lo hi w := List.forall_mem_append

/-- The last store of a run is to the address before its end. -/
theorem last_mem_run {l : List β} (hl : l ≠ []) : ∃ b, (p + l.length - 1, b) ∈ run p l := by
  induction l generalizing p with
  | nil => exact absurd rfl hl
  | cons b l ih =>
    by_cases hnil : l = []
    · subst hnil
      exact ⟨b, by simp [run]⟩
    · obtain ⟨c, hc⟩ := ih (p := p + 1) hnil
      refine ⟨c, List.mem_cons_of_mem _ ?_⟩
      rw [List.length_cons]
      convert hc using 2
      push_cast
      omega

theorem within_run_iff {l : List β} (hl : l ≠ []) :
    Within lo hi (run p l) ↔ lo ≤ p ∧ p + l.length ≤ hi + 1 := by
  constructor
  · intro h
    obtain ⟨b, l', rfl⟩ := List.exists_cons_of_ne_nil hl
    have hfirst := h (p, b) List.mem_cons_self
    obtain ⟨c, hc⟩ := last_mem_run (p := p) hl
    have hlast := h _ hc
    exact ⟨hfirst.1, by omega⟩
  · rintro ⟨hlo, hhi⟩
    exact within_run hlo hhi

/-- Stores elsewhere. -/
theorem after_run_frame (mem : Int → β) {a : Int} {l : List β} (ha : a < p) :
    after mem (run p l) a = mem a := by
  induction l generalizing mem p with
  | nil => rfl
  | cons b l ih =>
    have hne : a ≠ p := by omega
    rw [run, after, List.foldl_cons]
    exact (ih _ (by omega)).trans (Function.update_of_ne hne b mem)

theorem holds_after_run (mem : Int → β) (p : Int) (l : List β) :
    Holds (after mem (run p l)) p l := by
  induction l generalizing mem p with
  | nil => exact fun _ h => absurd h (Nat.not_lt_zero _)
  | cons b l ih =>
    intro i hi
    cases i with
    | zero =>
      have hframe := after_run_frame (Function.update mem p b) (l := l) (Int.lt_succ p)
      rw [Nat.cast_zero, add_zero, List.getElem_cons_zero]
      exact hframe.trans (Function.update_self p b mem)
    | succ i =>
      have hi' : i < l.length := Nat.lt_of_succ_lt_succ hi
      have hp : p + ((i + 1 : Nat) : Int) = p + 1 + i := by omega
      rw [hp, List.getElem_cons_succ]
      exact ih (Function.update mem p b) (p + 1) i hi'

theorem Holds.left {mem : Int → β} {a b : List β} (h : Holds mem p (a ++ b)) : Holds mem p a := by
  intro i hi
  rw [h i (by rw [List.length_append]; omega), List.getElem_append_left hi]

theorem Holds.append {mem : Int → β} {a b : List β} (ha : Holds mem p a)
    (hb : Holds mem (p + a.length) b) : Holds mem p (a ++ b) := by
  intro i hi
  rw [List.length_append] at hi
  by_cases hlt : i < a.length
  · rw [List.getElem_append_left hlt]
    exact ha i hlt
  · have hindex : p + (i : Int) = p + a.length + ((i - a.length : Nat) : Int) := by omega
    rw [List.getElem_append_right (Nat.le_of_not_lt hlt), hindex]
    exact hb (i - a.length) (by omega)

/-- What is held is read back. -/
theorem Holds.map_range {mem : Int → β} {l : List β} (h : Holds mem p l) :
    (List.range l.length).map (fun (i : Nat) => mem (p + i)) = l := by
  apply List.ext_getElem
  · simp
  · intro i hi hi'
    rw [List.getElem_map, List.getElem_range]
    exact h i hi'

/-- Stores behind a list leave it. -/
theorem Holds.frame {mem : Int → β} {l : List β} (h : Holds mem p l) {q : Int} (r : List β)
    (hq : p + l.length ≤ q) : Holds (after mem (run q r)) p l := by
  intro i hi
  rw [after_run_frame mem (by omega)]
  exact h i hi

end

end stores
