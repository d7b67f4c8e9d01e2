-- Computations that read a memory at indexes, with the indexes they read.
import Mathlib

namespace reads

/-- A value, and the indexes read for it. -/
structure Scan (α : Type) where
  val : α
  indexes : List Nat

instance instMonadScan : Monad Scan where
  pure a := ⟨a, []⟩
  bind m f := ⟨(f m.val).val, m.indexes ++ (f m.val).indexes⟩

/-- One read. -/
def peek {β : Type} (mem : Nat → β) (i : Nat) : Scan β := ⟨mem i, [i]⟩

/-- The reads of `n` elements from `i` on. -/
def span {β : Type} (mem : Nat → β) (i n : Nat) : Scan (List β) :=
  ⟨(List.range' i n).map mem, List.range' i n⟩

/-- The memory holds the list from `p` on. -/
def At {β : Type} (mem : Nat → β) (p : Nat) (l : List β) : Prop :=
  ∀ i (h : i < l.length), mem (p + i) = l[i]

/-- The memory with a list written from `p` on. -/
def poke {β : Type} (mem : Nat → β) (p : Nat) (l : List β) : Nat → β := fun j =>
  if h : p ≤ j ∧ j < p + l.length then l[j - p] else mem j

/-- All reads are below `n`. -/
def Inside {α : Type} (n : Nat) (m : Scan α) : Prop := ∀ i ∈ m.indexes, i < n

section
variable {α β : Type} {n : Nat}

@[simp] theorem val_pure (a : α) : (pure a : Scan α).val = a := rfl

@[simp] theorem val_bind (m : Scan α) (f : α → Scan β) : (m >>= f).val = (f m.val).val := rfl

@[simp] theorem val_peek (mem : Nat → β) (i : Nat) : (peek mem i).val = mem i := rfl

@[simp] theorem inside_pure (a : α) : Inside n (pure a : Scan α) :=
  fun _ h => absurd h List.not_mem_nil

@[simp] theorem inside_bind (m : Scan α) (f : α → Scan β) :
    Inside n (m >>= f) ↔ Inside n m ∧ Inside n (f m.val) := by
  constructor
  · intro h
    exact ⟨fun i hi => h i (List.mem_append_left _ hi), fun i hi => h i (List.mem_append_right _ hi)⟩
  · rintro ⟨hm, hf⟩ i hi
    rcases List.mem_append.mp hi with hi | hi
    · exact hm i hi
    · exact hf i hi

@[simp] theorem inside_peek (mem : Nat → β) (i : Nat) : Inside n (peek mem i) ↔ i < n := by
  simp [Inside, peek]

theorem inside_span (mem : Nat → β) (i k : Nat) :
    Inside n (span mem i k) ↔ k = 0 ∨ i + k ≤ n := by
  unfold Inside span
  constructor
  · intro h
    by_cases hk : k = 0
    · exact .inl hk
    · have := h (i + (k - 1)) (List.mem_range'_1.mpr ⟨by omega, by omega⟩)
      exact .inr (by omega)
  · intro h j hj
    have := List.mem_range'_1.mp hj
    omega

theorem at_nil (mem : Nat → β) (p : Nat) : At mem p [] := fun _ h => absurd h (Nat.not_lt_zero _)

theorem at_cons {mem : Nat → β} {p : Nat} {b : β} {l : List β} :
    At mem p (b :: l) ↔ mem p = b ∧ At mem (p + 1) l := by
  constructor
  · intro h
    refine ⟨h 0 (Nat.zero_lt_succ _), ?_⟩
    intro i hi
    have := h (i + 1) (Nat.succ_lt_succ hi)
    rw [List.getElem_cons_succ] at this
    rw [← this]
    congr 1
    omega
  · rintro ⟨hb, hl⟩ i hi
    cases i with
    | zero => exact hb
    | succ i =>
      rw [List.getElem_cons_succ, ← hl i (Nat.lt_of_succ_lt_succ hi)]
      congr 1
      omega

theorem at_append {mem : Nat → β} {p : Nat} {a b : List β} :
    At mem p (a ++ b) ↔ At mem p a ∧ At mem (p + a.length) b := by
  induction a generalizing p with
  | nil => simp [at_nil]
  | cons x a ih =>
    rw [List.cons_append, at_cons, at_cons, ih, and_assoc, List.length_cons]
    have hp : p + 1 + a.length = p + (a.length + 1) := by omega
    rw [hp]

theorem at_iff_span {mem : Nat → β} {p : Nat} {l : List β} :
    At mem p l ↔ (span mem p l.length).val = l := by
  unfold span
  constructor
  · intro h
    apply List.ext_getElem
    · simp
    · intro i hi hi'
      simpa using h i hi'
  · intro h i hi
    have hget := congrArg (·[i]?) h
    simpa [hi] using hget

theorem at_poke (mem : Nat → β) (p : Nat) (l : List β) : At (poke mem p l) p l := by
  intro i hi
  unfold poke
  rw [dif_pos ⟨by omega, by omega⟩]
  congr 1
  omega

/-- A write elsewhere. -/
theorem At.poke {mem : Nat → β} {p q : Nat} {l k : List β} (h : At mem p l)
    (hq : p + l.length ≤ q ∨ q + k.length ≤ p) : At (reads.poke mem q k) p l := by
  intro i hi
  unfold reads.poke
  rw [dif_neg (by omega)]
  exact h i hi

end

end reads
