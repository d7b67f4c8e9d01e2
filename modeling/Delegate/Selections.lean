-- Elements picked out of a list by several tests, one pass for each test: when
-- that is the list restricted to the elements that pass a test.
import Mathlib.Data.List.Infix

namespace selections

variable {α β : Type} (s : β → α → Bool)

/-! ## Passes -/

/-- The elements that each test in turn picks. -/
def picked (ts : List β) (xs : List α) : List α := ts.flatMap fun t => xs.filter (s t)

/-- No element that a later test picks is at or before one that an earlier test picks. -/
def Ordered (ts : List β) (xs : List α) : Prop :=
  ∀ as bs, ts = as ++ bs → ∀ u x v, xs = u ++ x :: v → ∀ y ∈ x :: v,
    ¬(bs.any (s · x) = true ∧ as.any (s · y) = true)

variable {s}

theorem picked_cons (t : β) (ts : List β) (xs : List α) :
    picked s (t :: ts) xs = xs.filter (s t) ++ picked s ts xs := List.flatMap_cons

theorem picked_append (as bs : List β) (xs : List α) :
    picked s (as ++ bs) xs = picked s as xs ++ picked s bs xs := List.flatMap_append

theorem any_of_mem_picked {ts : List β} {xs : List α} {x : α} (h : x ∈ picked s ts xs) :
    x ∈ xs ∧ ts.any (s · x) = true := by
  obtain ⟨t, ht, hx⟩ := List.mem_flatMap.mp h
  rw [List.mem_filter] at hx
  exact ⟨hx.1, List.any_eq_true.mpr ⟨t, ht, hx.2⟩⟩

/-! ## Ordered tests -/

/-- Two passes are one, where nothing of the second is at or before something of the first. -/
theorem filter_append_filter {p q : α → Bool} {xs : List α}
    (h : ∀ u x v, xs = u ++ x :: v → ∀ y ∈ x :: v, ¬(q x = true ∧ p y = true)) :
    xs.filter p ++ xs.filter q = xs.filter fun x => p x || q x := by
  induction xs with
  | nil => rfl
  | cons x xs ih =>
    have hrest := ih fun u y v hxs => h (x :: u) y v (by rw [hxs]; rfl)
    cases hq : q x with
    | false =>
      cases hp : p x with
      | false =>
        rw [List.filter_cons_of_neg (by simp [hp]), List.filter_cons_of_neg (by simp [hq]),
          List.filter_cons_of_neg (by simp [hp, hq]), hrest]
      | true =>
        rw [List.filter_cons_of_pos hp, List.filter_cons_of_neg (by simp [hq]),
          List.filter_cons_of_pos (by simp [hp]), List.cons_append, hrest]
    | true =>
      have hno : ∀ y ∈ x :: xs, p y = false := by
        intro y hy
        rw [Bool.eq_false_iff]
        exact fun hp => h [] x xs rfl y hy ⟨hq, hp⟩
      have hnil : (x :: xs).filter p = [] := by
        rw [List.filter_eq_nil_iff]
        intro y hy
        rw [hno y hy]
        exact Bool.false_ne_true
      rw [hnil, List.nil_append]
      refine List.filter_congr fun y hy => ?_
      rw [hno y hy, Bool.false_or]

theorem Ordered.tail {t : β} {ts : List β} {xs : List α} (h : Ordered s (t :: ts) xs) :
    Ordered s ts xs := by
  intro as bs hts u x v hxs y hy hboth
  refine h (t :: as) bs (by rw [hts]; rfl) u x v hxs y hy ⟨hboth.1, ?_⟩
  rw [List.any_cons, hboth.2, Bool.or_true]

theorem Ordered.picked {ts : List β} {xs : List α} (h : Ordered s ts xs) :
    picked s ts xs = xs.filter fun x => ts.any (s · x) := by
  induction ts with
  | nil => simp [selections.picked]
  | cons t ts ih =>
    rw [picked_cons, ih h.tail, filter_append_filter]
    · rfl
    · intro u x v hxs y hy hboth
      refine h [t] ts rfl u x v hxs y hy ⟨hboth.1, ?_⟩
      rw [List.any_cons, hboth.2, Bool.true_or]

/-! ## How often an element is picked -/

theorem length_picked_cons (ts : List β) (x : α) (xs : List α) :
    (picked s ts (x :: xs)).length = ts.countP (s · x) + (picked s ts xs).length := by
  induction ts with
  | nil => rfl
  | cons t ts ih =>
    rw [picked_cons, picked_cons, List.length_append, List.length_append, ih, List.countP_cons,
      List.filter_cons]
    split
    · rw [List.length_cons]
      omega
    · omega

theorem countP_pos_of_any {o : β → α → Bool} {ts : List β} {x : α}
    (hle : ∀ t ∈ ts, o t x = true → s t x = true) (h : ts.any (o · x) = true) :
    0 < ts.countP (s · x) := by
  obtain ⟨t, ht, hx⟩ := List.any_eq_true.mp h
  exact List.countP_pos_iff.mpr ⟨t, ht, hle t ht hx⟩

theorem countP_any_le {o : β → α → Bool} {ts : List β} {xs : List α}
    (hle : ∀ x ∈ xs, ∀ t ∈ ts, o t x = true → s t x = true) :
    xs.countP (fun x => ts.any (o · x)) ≤ (picked s ts xs).length := by
  induction xs with
  | nil => exact Nat.zero_le _
  | cons x xs ih =>
    have hrest := ih fun y hy => hle y (List.mem_cons_of_mem _ hy)
    rw [List.countP_cons, length_picked_cons]
    split
    · rename_i hany
      have hpos := countP_pos_of_any (hle x List.mem_cons_self) hany
      omega
    · omega

/-- Where each element that is picked counts once, it is picked once. -/
theorem countP_eq_of_length {o : β → α → Bool} {ts : List β} {xs : List α}
    (hle : ∀ x ∈ xs, ∀ t ∈ ts, o t x = true → s t x = true)
    (hlen : (picked s ts xs).length = xs.countP fun x => ts.any (o · x)) :
    ∀ x ∈ xs, ts.countP (s · x) = if ts.any (o · x) then 1 else 0 := by
  induction xs with
  | nil => simp
  | cons x xs ih =>
    have hrest := fun y (hy : y ∈ xs) => hle y (List.mem_cons_of_mem _ hy)
    have hxs := countP_any_le hrest
    rw [length_picked_cons, List.countP_cons] at hlen
    have hx : ts.countP (s · x) = (if ts.any (o · x) then 1 else 0) ∧
        (picked s ts xs).length = xs.countP fun x => ts.any (o · x) := by
      by_cases hany : ts.any (o · x) = true
      · have hpos := countP_pos_of_any (hle x List.mem_cons_self) hany
        rw [if_pos hany] at hlen ⊢
        omega
      · rw [if_neg hany] at hlen ⊢
        omega
    exact List.forall_mem_cons.mpr ⟨hx.1, ih hrest hx.2⟩

/-- Where at most one test picks, two that pick are the same. -/
theorem eq_of_countP_le_one {p : β → Bool} {ts : List β} (h : ts.countP p ≤ 1) {t t' : β}
    (ht : t ∈ ts) (ht' : t' ∈ ts) (hp : p t = true) (hp' : p t' = true) : t = t' := by
  rw [List.countP_eq_length_filter] at h
  have hmem : t ∈ ts.filter p := List.mem_filter.mpr ⟨ht, hp⟩
  have hmem' : t' ∈ ts.filter p := List.mem_filter.mpr ⟨ht', hp'⟩
  obtain ⟨u, hu⟩ := List.length_eq_one_iff.mp (Nat.le_antisymm h (List.length_pos_of_mem hmem))
  rw [hu, List.mem_singleton] at hmem hmem'
  rw [hmem, hmem']

/-- The tests pick as the others do. -/
theorem same_of_length {o : β → α → Bool} {ts : List β} {xs : List α}
    (hle : ∀ x ∈ xs, ∀ t ∈ ts, o t x = true → s t x = true)
    (hlen : (picked s ts xs).length = xs.countP fun x => ts.any (o · x)) :
    ∀ x ∈ xs, ∀ t ∈ ts, s t x = o t x := by
  intro x hx t ht
  have hcount := countP_eq_of_length hle hlen x hx
  cases ho : o t x with
  | true => exact hle x hx t ht ho
  | false =>
    rw [Bool.eq_false_iff]
    intro hs
    have hpos : 0 < ts.countP (s · x) := List.countP_pos_iff.mpr ⟨t, ht, hs⟩
    have hany : ts.any (o · x) = true := by
      by_contra hno
      rw [if_neg hno] at hcount
      omega
    obtain ⟨t', ht', ho'⟩ := List.any_eq_true.mp hany
    rw [if_pos hany] at hcount
    have heq := eq_of_countP_le_one (Nat.le_of_eq hcount) ht ht' hs (hle x hx t' ht' ho')
    rw [heq, ho'] at ho
    cases ho

/-- Passes that are one restriction are ordered. -/
theorem ordered_of_picked {ts : List β} {xs : List α}
    (h : picked s ts xs = xs.filter fun x => ts.any (s · x)) : Ordered s ts xs := by
  have hlen : (picked s ts xs).length = xs.countP fun x => ts.any (s · x) := by
    rw [h, List.countP_eq_length_filter]
  have hcount := countP_eq_of_length (fun _ _ _ _ hs => hs) hlen
  intro as bs hts u x v hxs y hy ⟨hx, hy'⟩
  -- No element is picked both by a test of the first and by one of the second.
  have honce : ∀ z ∈ xs, ¬(as.any (s · z) = true ∧ bs.any (s · z) = true) := by
    intro z hz ⟨ha, hb⟩
    have hca := countP_pos_of_any (fun t _ hs => hs) ha
    have hcb := countP_pos_of_any (fun t _ hs => hs) hb
    have hc := hcount z hz
    rw [hts, List.countP_append] at hc
    split at hc <;> omega
  have hsorted : (xs.filter fun x => ts.any (s · x)).Pairwise fun a b =>
      as.any (s · b) = true → as.any (s · a) = true := by
    rw [← h, hts, picked_append, List.pairwise_append]
    refine ⟨?_, ?_, ?_⟩
    · exact List.Pairwise.imp_of_mem (fun ha _ _ _ => (any_of_mem_picked ha).2)
        (List.pairwise_of_forall (fun _ _ => trivial))
    · refine List.Pairwise.imp_of_mem (fun _ hb _ hany => ?_)
        (List.pairwise_of_forall (fun _ _ => trivial))
      obtain ⟨hmem, hsecond⟩ := any_of_mem_picked hb
      exact absurd ⟨hany, hsecond⟩ (honce _ hmem)
    · exact fun a ha _ _ _ => (any_of_mem_picked ha).2
  rw [List.pairwise_filter, hxs, List.pairwise_append, List.pairwise_cons] at hsorted
  have hany : ∀ {z : α}, as.any (s · z) = true ∨ bs.any (s · z) = true →
      ts.any (s · z) = true := by
    intro z hz
    rw [hts, List.any_append, Bool.or_eq_true]
    exact hz
  have hfirst : as.any (s · x) = true := by
    rcases List.mem_cons.mp hy with rfl | hmem
    · exact hy'
    · exact hsorted.2.1.1 y hmem (hany (.inr hx)) (hany (.inl hy')) hy'
  exact honce x (by rw [hxs]; simp) ⟨hfirst, hx⟩

end selections
