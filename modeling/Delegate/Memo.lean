-- A memo of one cell. A call looks for its key in the cell and else evaluates
-- and fills the cell. If calls with the same key have the same value, then a
-- run with the cell gives what a run without it gives.
import Mathlib

namespace memo

variable {α κ ν σ τ : Type} [DecidableEq κ]

/-- One call. Some calls have their value `early`, before the cell is looked at. -/
def call (early : α → Option ν) (key : α → κ) (eval : α → ν) (cell : Option (κ × ν)) (a : α) :
    ν × Option (κ × ν) :=
  match early a with
  | some v => (v, cell)
  | none =>
    match cell with
    | some (k, v) => if k = key a then (v, cell) else (eval a, some (key a, eval a))
    | none => (eval a, some (key a, eval a))

/-- The values of the calls of a run. -/
def run (step : σ → α → ν × σ) : σ → List α → List ν
  | _, [] => []
  | s, a :: as => (step s a).1 :: run step (step s a).2 as

/-- The cell holds the key and the value of one of the calls. -/
def Holds (key : α → κ) (eval : α → ν) (calls : List α) (cell : Option (κ × ν)) : Prop :=
  ∀ p ∈ cell, ∃ b ∈ calls, p.1 = key b ∧ p.2 = eval b

section Call
variable {early : α → Option ν} {key : α → κ} {eval : α → ν} {calls : List α}

/-- With an empty cell a call gives its own value. -/
theorem call_none (a : α) : (call early key eval none a).1 = (early a).getD (eval a) := by
  unfold call
  cases early a with
  | none => rfl
  | some v => rfl

/-- A call with a cell of the run gives its own value, and leaves a cell of the run. -/
theorem call_spec (hkey : ∀ a ∈ calls, ∀ b ∈ calls, key a = key b → eval a = eval b) {a : α}
    (ha : a ∈ calls) {cell : Option (κ × ν)} (hcell : Holds key eval calls cell) :
    (call early key eval cell a).1 = (early a).getD (eval a) ∧
      Holds key eval calls (call early key eval cell a).2 := by
  have hself : Holds key eval calls (some (key a, eval a)) := by
    rintro p hp
    cases hp
    exact ⟨a, ha, rfl, rfl⟩
  unfold call
  cases early a with
  | some v => exact ⟨rfl, hcell⟩
  | none =>
    cases cell with
    | none => exact ⟨rfl, hself⟩
    | some p =>
      obtain ⟨b, hb, hk, hv⟩ := hcell p rfl
      simp only [Option.getD_none]
      split
      · rename_i heq
        refine ⟨?_, hcell⟩
        rw [hv]
        exact hkey b hb a ha (hk.symm.trans heq)
      · exact ⟨rfl, hself⟩

/-- A run of calls gives each call its own value. -/
theorem run_call (hkey : ∀ a ∈ calls, ∀ b ∈ calls, key a = key b → eval a = eval b)
    (as : List α) (has : ∀ a ∈ as, a ∈ calls) {cell : Option (κ × ν)}
    (hcell : Holds key eval calls cell) :
    run (call early key eval) cell as = as.map fun a => (early a).getD (eval a) := by
  induction as generalizing cell with
  | nil => rfl
  | cons a as ih =>
    obtain ⟨hv, hnext⟩ := call_spec hkey (has a List.mem_cons_self) hcell
    rw [run, List.map_cons, hv, ih (fun b hb => has b (List.mem_cons_of_mem _ hb)) hnext]

end Call

/-- Two machines whose steps agree through `abs` have the same runs. -/
theorem run_congr {step : σ → α → ν × σ} {step' : τ → α → ν × τ} (abs : σ → τ) (as : List α)
    (h : ∀ a ∈ as, ∀ s, (step s a).1 = (step' (abs s) a).1 ∧
      abs (step s a).2 = (step' (abs s) a).2) (s : σ) :
    run step s as = run step' (abs s) as := by
  induction as generalizing s with
  | nil => rfl
  | cons a as ih =>
    obtain ⟨hv, hs⟩ := h a List.mem_cons_self s
    rw [run, run, hv, ← hs, ih fun b hb => h b (List.mem_cons_of_mem _ hb)]

end memo
