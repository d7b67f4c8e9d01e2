-- Runs of a machine whose steps are partial functions of a state and an action.
-- What a step preserves holds in every state of a run.
import Mathlib

namespace runs

section
variable {S A : Type} (step : S → A → Option S)

/-- The state after the actions, if all of them can be taken. -/
def exec : S → List A → Option S
  | s, [] => some s
  | s, a :: l => (step s a).bind fun s' => exec s' l

/-- A property holds in every state that the actions reach. -/
def Always (P : S → Prop) : S → List A → Prop
  | s, [] => P s
  | s, a :: l => P s ∧ ∀ s', step s a = some s' → Always P s' l

/-- Every action that is taken meets a condition on the state before it. -/
def Meets (C : S → A → Prop) : S → List A → Prop
  | _, [] => True
  | s, a :: l => ∀ s', step s a = some s' → C s a ∧ Meets C s' l

variable {step} {P Inv : S → Prop} {C : S → A → Prop}

instance decidableMeets [∀ s a, Decidable (C s a)] : ∀ s l, Decidable (Meets step C s l)
  | _, [] => .isTrue trivial
  | s, a :: l =>
    match h : step s a with
    | none => .isTrue fun s' hs => by cases h.symm.trans hs
    | some s' =>
      have := decidableMeets s' l
      decidable_of_iff (C s a ∧ Meets step C s' l)
        ⟨fun hmeets _ hs => (Option.some.inj (h.symm.trans hs)) ▸ hmeets, fun hall => hall s' h⟩

/-- The rule of invariants: steps that meet the condition keep the invariant. -/
theorem always_of_meets (hkeep : ∀ s a s', Inv s → C s a → step s a = some s' → Inv s')
    (hP : ∀ s, Inv s → P s) {s : S} (hs : Inv s) {l : List A} (h : Meets step C s l) :
    Always step P s l := by
  induction l generalizing s with
  | nil => exact hP s hs
  | cons a l ih =>
    refine ⟨hP s hs, ?_⟩
    intro s' hstep
    obtain ⟨hC, hrest⟩ := h s' hstep
    exact ih (hkeep s a s' hs hC hstep) hrest

/-- Where a step that does not meet the condition breaks the property, the property holds in a run
exactly if all its steps meet the condition. -/
theorem always_iff_meets (hkeep : ∀ s a s', Inv s → C s a → step s a = some s' → Inv s')
    (hP : ∀ s, Inv s → P s) (hbreak : ∀ s a s', Inv s → step s a = some s' → P s' → C s a)
    {s : S} (hs : Inv s) (l : List A) : Always step P s l ↔ Meets step C s l := by
  constructor
  · intro h
    induction l generalizing s with
    | nil => trivial
    | cons a l ih =>
      intro s' hstep
      have hrest := h.2 s' hstep
      have hC : C s a := by
        apply hbreak s a s' hs hstep
        cases l with
        | nil => exact hrest
        | cons => exact hrest.1
      exact ⟨hC, ih (hkeep s a s' hs hC hstep) hrest⟩
  · exact always_of_meets hkeep hP hs

/-- The property holds in a state that a run reaches. -/
theorem Always.exec {s s' : S} {l : List A} (h : Always step P s l)
    (hexec : runs.exec step s l = some s') : P s' := by
  induction l generalizing s with
  | nil =>
    cases hexec
    exact h
  | cons a l ih =>
    obtain ⟨t, ht, hexec⟩ := Option.bind_eq_some_iff.mp hexec
    exact ih (h.2 t ht) hexec

variable (step C) in
/-- The actions lead from a state to another, and all of them meet the condition. -/
def Run (s : S) (l : List A) (s' : S) : Prop := runs.exec step s l = some s' ∧ Meets step C s l

theorem Run.nil (s : S) : Run step C s [] s := ⟨rfl, trivial⟩

theorem Run.cons {s s' s'' : S} {a : A} {l : List A} (hstep : step s a = some s') (hC : C s a)
    (h : Run step C s' l s'') : Run step C s (a :: l) s'' := by
  obtain ⟨hexec, hmeets⟩ := h
  refine ⟨Option.bind_eq_some_iff.mpr ⟨s', hstep, hexec⟩, ?_⟩
  intro t ht
  cases hstep.symm.trans ht
  exact ⟨hC, hmeets⟩

theorem Run.append {s s' s'' : S} {l l' : List A} (h : Run step C s l s')
    (h' : Run step C s' l' s'') : Run step C s (l ++ l') s'' := by
  induction l generalizing s with
  | nil =>
    obtain ⟨hexec, -⟩ := h
    cases hexec
    exact h'
  | cons a l ih =>
    obtain ⟨hexec, hmeets⟩ := h
    obtain ⟨t, ht, hexec⟩ := Option.bind_eq_some_iff.mp hexec
    obtain ⟨hC, hmeets⟩ := hmeets t ht
    exact .cons ht hC (ih ⟨hexec, hmeets⟩)

end

/-! ## Machines that answer -/

section
variable {S T A B : Type}

/-- The answers to the actions, and the state after them. -/
def answers (step : S → A → B × S) : S → List A → List B × S
  | s, [] => ([], s)
  | s, a :: l => ((step s a).1 :: (answers step (step s a).2 l).1, (answers step (step s a).2 l).2)

/-- A machine answers like its abstraction as long as its states stay within a bound. -/
theorem answers_refine {step : S → A → B × S} {spec : T → A → B × T} (concrete : T → S)
    (Inv : T → Prop) {V : A → Prop} (Bound : S → Prop)
    (hinv : ∀ t a, Inv t → V a → Inv (spec t a).2)
    (hsim : ∀ t a, Inv t → V a → Bound (concrete t) →
      step (concrete t) a = ((spec t a).1, concrete (spec t a).2))
    {t : T} {l : List A} (ht : Inv t) (hl : ∀ a ∈ l, V a)
    (hbound : ∀ l', l' <+: l → Bound (answers step (concrete t) l').2) :
    answers step (concrete t) l = ((answers spec t l).1, concrete (answers spec t l).2) := by
  induction l generalizing t with
  | nil => rfl
  | cons a l ih =>
    have hone := hsim t a ht (hl a List.mem_cons_self) (hbound [] List.nil_prefix)
    have hrest := ih (hinv t a ht (hl a List.mem_cons_self))
      (fun b hb => hl b (List.mem_cons_of_mem _ hb)) fun l' hl' => by
        have hb := hbound (a :: l') ((List.prefix_cons_inj a).mpr hl')
        rw [answers, hone] at hb
        exact hb
    rw [answers, hone, hrest]
    rfl

end

end runs
