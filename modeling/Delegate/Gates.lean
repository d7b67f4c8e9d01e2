-- Formulas written as a row of gates. `|` splits the row into
-- alternatives and `&` splits an alternative into groups. A group sets,
-- keeps or flips a value that starts as false. The row holds when some
-- alternative has all its groups true. One pass over the row, which runs
-- forward to the next `|` after a false group, finds the same value.
import Mathlib

namespace gates

/-- One gate of the row. -/
inductive Gate
  | set (b : Bool)
  | keep
  | flip
  | and
  | or
deriving DecidableEq, Repr

/-- What a gate inside a group does to the value. -/
def Gate.act (g : Gate) (b : Bool) : Bool :=
  match g with
  | .set v => v
  | .flip => !b
  | _ => b

/-! ## The formula -/

/-- The value of a group that starts from `b`. -/
def groupFrom (b : Bool) (gs : List Gate) : Bool := gs.foldl (fun b g => g.act b) b

/-- An alternative: all its groups are true. -/
def alternative (gs : List Gate) : Bool := (gs.splitOn .and).all (groupFrom false)

/-- The row: some alternative is true. -/
def holds (gs : List Gate) : Bool := (gs.splitOn .or).any alternative

/-! ## The pass -/

/-- Where the pass is: at a gate, running forward to the next `|`, or at
its end. -/
inductive Ctl
  | scan
  | skip
  | stop
deriving DecidableEq, Repr

/-- One turn of the pass. -/
def turn (s : Ctl × Bool) (g : Gate) : Ctl × Bool :=
  match s.1 with
  | .stop => s
  | .skip => (if g = .or then .scan else .skip, s.2)
  | .scan =>
    match g with
    | .and => (if s.2 then .scan else .skip, false)
    | .or => (if s.2 then .stop else .scan, s.2)
    | g => (.scan, g.act s.2)

/-- The alternative whose first group starts from `b`. -/
def alternativeFrom (b : Bool) (gs : List Gate) : Bool :=
  groupFrom b ((gs.splitOn .and).headD []) && (gs.splitOn .and).tail.all (groupFrom false)

/-- The row from its second alternative on. -/
def holdsLater (gs : List Gate) : Bool := (gs.splitOn .or).tail.any alternative

/-- The row whose first group starts from `b`. -/
def holdsFrom (b : Bool) (gs : List Gate) : Bool :=
  alternativeFrom b ((gs.splitOn .or).headD []) || holdsLater gs

theorem alternativeFrom_false (gs : List Gate) : alternativeFrom false gs = alternative gs := by
  unfold alternativeFrom alternative
  obtain ⟨g, rest, h⟩ := List.exists_cons_of_ne_nil (List.splitOn_ne_nil Gate.and gs)
  simp [h]

theorem holdsFrom_false (gs : List Gate) : holdsFrom false gs = holds gs := by
  unfold holdsFrom holdsLater holds
  obtain ⟨a, rest, h⟩ := List.exists_cons_of_ne_nil (List.splitOn_ne_nil Gate.or gs)
  simp [h, alternativeFrom_false]

/-! ## The first gate of a row -/

theorem holdsLater_or (gs : List Gate) : holdsLater (.or :: gs) = holds gs := by
  simp [holdsLater, holds, List.splitOn_cons_eq_if_modifyHead]

theorem holdsLater_cons {g : Gate} (h : g ≠ .or) (gs : List Gate) :
    holdsLater (g :: gs) = holdsLater gs := by
  obtain ⟨a, rest, ha⟩ := List.exists_cons_of_ne_nil (List.splitOn_ne_nil Gate.or gs)
  simp [holdsLater, List.splitOn_cons_eq_if_modifyHead, h, ha]

theorem holdsFrom_or (b : Bool) (gs : List Gate) : holdsFrom b (.or :: gs) = (b || holds gs) := by
  unfold holdsFrom
  rw [holdsLater_or]
  simp [List.splitOn_cons_eq_if_modifyHead, alternativeFrom, groupFrom]

theorem holdsFrom_and (b : Bool) (gs : List Gate) :
    holdsFrom b (.and :: gs) = if b then holds gs else holdsLater gs := by
  rw [← holdsFrom_false gs]
  unfold holdsFrom
  rw [holdsLater_cons (by decide)]
  obtain ⟨a, rest, ha⟩ := List.exists_cons_of_ne_nil (List.splitOn_ne_nil Gate.or gs)
  obtain ⟨g, gr, hg⟩ := List.exists_cons_of_ne_nil (List.splitOn_ne_nil Gate.and a)
  cases b <;>
    simp [List.splitOn_cons_eq_if_modifyHead, ha, hg, alternativeFrom, groupFrom]

theorem holdsFrom_act (b : Bool) {g : Gate} (h1 : g ≠ .or) (h2 : g ≠ .and) (gs : List Gate) :
    holdsFrom b (g :: gs) = holdsFrom (g.act b) gs := by
  unfold holdsFrom
  rw [holdsLater_cons h1]
  obtain ⟨a, rest, ha⟩ := List.exists_cons_of_ne_nil (List.splitOn_ne_nil Gate.or gs)
  obtain ⟨x, xs, hx⟩ := List.exists_cons_of_ne_nil (List.splitOn_ne_nil Gate.and a)
  simp [List.splitOn_cons_eq_if_modifyHead, h1, h2, ha, hx, alternativeFrom, groupFrom]

/-! ## The pass finds the value -/

theorem turns_stop (gs : List Gate) (b : Bool) : gs.foldl turn (.stop, b) = (.stop, b) := by
  induction gs with
  | nil => rfl
  | cons g gs ih => simpa [turn] using ih

/-- The pass from a gate gives the row whose first group starts from the
value so far. The pass that runs forward gives the later alternatives. -/
theorem turns_scan_and_skip (gs : List Gate) :
    (∀ b, (gs.foldl turn (.scan, b)).2 = holdsFrom b gs) ∧
      (gs.foldl turn (.skip, false)).2 = holdsLater gs := by
  induction gs with
  | nil => simp [holdsFrom, holdsLater, alternativeFrom, groupFrom]
  | cons g gs ih =>
    obtain ⟨hscan, hskip⟩ := ih
    refine ⟨fun b => ?_, ?_⟩
    · rw [List.foldl_cons]
      by_cases h1 : g = .or
      · subst h1
        rw [holdsFrom_or]
        cases b
        · simpa [turn, holdsFrom_false] using hscan false
        · simp [turn, turns_stop]
      · by_cases h2 : g = .and
        · subst h2
          rw [holdsFrom_and]
          cases b
          · simpa [turn] using hskip
          · simpa [turn, holdsFrom_false] using hscan false
        · have hturn : turn (.scan, b) g = (.scan, g.act b) := by
            cases g <;> first | rfl | exact absurd rfl h1 | exact absurd rfl h2
          rw [hturn, hscan, holdsFrom_act b h1 h2]
    · rw [List.foldl_cons]
      by_cases h1 : g = .or
      · subst h1
        simpa [turn, holdsLater_or, holdsFrom_false] using hscan false
      · simpa [turn, h1, holdsLater_cons h1] using hskip

/-- The pass finds the value of the row. -/
theorem turns_eq_holds (gs : List Gate) : (gs.foldl turn (.scan, false)).2 = holds gs := by
  rw [(turns_scan_and_skip gs).1, holdsFrom_false]

end gates
