-- Open addressing: keys in slots, each found by going from its first slot
-- over slots with other keys, around the end.
import Mathlib.Data.List.ReduceOption

namespace probing

variable {K V : Type}

/-! ## Slots -/

/-- What is in the slot `i`. -/
def slot (a : List (Option (K × V))) (i : Nat) : Option (K × V) := a.getD i none

/-- The slot holds another key. -/
def Other (a : List (Option (K × V))) (k : K) (i : Nat) : Prop := ∃ e, slot a i = some e ∧ e.1 ≠ k

section Slots
variable {a : List (Option (K × V))}

theorem slot_eq_some {i : Nat} {e : K × V} : slot a i = some e ↔ a[i]? = some (some e) := by
  unfold slot
  rw [List.getD_eq_getElem?_getD]
  cases a[i]? <;> simp

theorem slot_lt {i : Nat} {e : K × V} (hi : slot a i = some e) : i < a.length :=
  (List.getElem?_eq_some_iff.mp (slot_eq_some.mp hi)).1

theorem slot_set (i j : Nat) (hi : i < a.length) (e : Option (K × V)) :
    slot (a.set i e) j = if i = j then e else slot a j := by
  unfold slot
  rw [List.getD_eq_getElem?_getD, List.getD_eq_getElem?_getD, List.getElem?_set]
  by_cases hij : i = j
  · rw [if_pos hij, if_pos hij, if_pos (hij ▸ hi)]
    rfl
  · rw [if_neg hij, if_neg hij]

theorem mem_entries {e : K × V} : e ∈ a.reduceOption ↔ ∃ i, slot a i = some e := by
  rw [List.reduceOption_mem_iff, List.mem_iff_getElem?]
  exact exists_congr fun i => slot_eq_some.symm

/-- The table is full exactly if it has as many entries as slots. -/
theorem full_iff : a.reduceOption.length = a.length ↔ ∀ i < a.length, slot a i ≠ none := by
  rw [List.reduceOption_length_eq_iff]
  constructor
  · intro hall i hi hnone
    have hmem := hall a[i] (List.getElem_mem hi)
    unfold slot at hnone
    rw [List.getD_eq_getElem?_getD, List.getElem?_eq_getElem hi, Option.getD_some] at hnone
    rw [hnone] at hmem
    cases hmem
  · intro hall x hx
    obtain ⟨i, hi, rfl⟩ := List.mem_iff_getElem.mp hx
    have hne := hall i hi
    unfold slot at hne
    rw [List.getD_eq_getElem?_getD, List.getElem?_eq_getElem hi, Option.getD_some] at hne
    exact Option.isSome_iff_ne_none.mpr hne

end Slots

/-! ## The invariant -/

/-- From the first slot of each stored key to the slot where it is, there are other keys only. -/
structure Chained (home : K → Nat) (a : List (Option (K × V))) : Prop where
  pos : 0 < a.length
  chain : ∀ i e, slot a i = some e → ∃ c < a.length, i = (home e.1 + c) % a.length ∧
    ∀ c' < c, Other a e.1 ((home e.1 + c') % a.length)

theorem chained_empty (home : K → Nat) {n : Nat} (hn : 0 < n) :
    Chained home (List.replicate n (none : Option (K × V))) where
  pos := by rwa [List.length_replicate]
  chain := by
    intro i e he
    rw [slot_eq_some, List.getElem?_replicate] at he
    split at he <;> cases he

/-- The key is in no slot. -/
def Absent (a : List (Option (K × V))) (k : K) : Prop := ∀ i e, slot a i = some e → e.1 ≠ k

/-! ## Probes -/

variable [DecidableEq K]

/-- The first slot that is free or holds the key, among `m` slots from the `j`th one on. -/
def probe (a : List (Option (K × V))) (h : Nat) (k : K) : Nat → Nat → Option Nat
  | 0, _ => none
  | m + 1, j =>
    match slot a ((h + j) % a.length) with
    | none => some ((h + j) % a.length)
    | some e => if e.1 = k then some ((h + j) % a.length) else probe a h k m (j + 1)

section Probe
variable {a : List (Option (K × V))} {h : Nat} {k : K}

/-- The probe goes over slots with other keys. -/
theorem probe_spec (m j : Nat) :
    (∃ c < m, probe a h k m j = some ((h + j + c) % a.length) ∧
        (∀ c' < c, Other a k ((h + j + c') % a.length)) ∧
        ¬ Other a k ((h + j + c) % a.length)) ∨
      (probe a h k m j = none ∧ ∀ c < m, Other a k ((h + j + c) % a.length)) := by
  induction m generalizing j with
  | zero => exact .inr ⟨rfl, fun c hc => absurd hc (Nat.not_lt_zero c)⟩
  | succ m ih =>
    unfold probe
    cases hs : slot a ((h + j) % a.length) with
    | none =>
      refine .inl ⟨0, Nat.succ_pos m, rfl, fun c hc => absurd hc (Nat.not_lt_zero c), ?_⟩
      rintro ⟨e, he, -⟩
      rw [Nat.add_zero, hs] at he
      cases he
    | some e =>
      by_cases hk : e.1 = k
      · simp only [if_pos hk]
        refine .inl ⟨0, Nat.succ_pos m, rfl, fun c hc => absurd hc (Nat.not_lt_zero c), ?_⟩
        rintro ⟨e', he', hne⟩
        rw [Nat.add_zero, hs] at he'
        cases he'
        exact hne hk
      · simp only [if_neg hk]
        have hstep : ∀ c, h + (j + 1) + c = h + j + (c + 1) := fun c => by omega
        have hall : ∀ n, (∀ c < n, Other a k ((h + (j + 1) + c) % a.length)) →
            ∀ c < n + 1, Other a k ((h + j + c) % a.length) := by
          intro n hn c hc
          cases c with
          | zero => exact ⟨e, hs, hk⟩
          | succ c =>
            rw [← hstep]
            exact hn c (by omega)
        rcases ih (j + 1) with ⟨c, hc, hp, hbefore, hend⟩ | ⟨hp, hothers⟩
        · refine .inl ⟨c + 1, by omega, ?_, hall c hbefore, ?_⟩
          · rw [hp, hstep]
          · rw [← hstep]
            exact hend
        · exact .inr ⟨hp, hall m hothers⟩

end Probe

/-! ## Probes keep the invariant -/

section Chained
variable {home : K → Nat} {a : List (Option (K × V))}

/-- A stored key is found. -/
theorem Chained.probe_stored (h : Chained home a) {i : Nat} {e : K × V} (he : slot a i = some e) :
    probe a (home e.1) e.1 a.length 0 = some i := by
  obtain ⟨c, hc, hi, hbefore⟩ := h.chain i e he
  have hnot : ¬ Other a e.1 ((home e.1 + c) % a.length) := by
    rintro ⟨e', he', hne⟩
    rw [← hi, he] at he'
    cases he'
    exact hne rfl
  rcases probe_spec (a := a) (h := home e.1) (k := e.1) a.length 0 with
    ⟨c', hc', hp, hbefore', hend⟩ | ⟨-, hall⟩
  · rw [Nat.add_zero] at hp hbefore' hend
    have hcc : c' = c := by
      rcases Nat.lt_trichotomy c' c with hlt | heq | hlt
      · exact absurd (hbefore c' hlt) hend
      · exact heq
      · exact absurd (hbefore' c hlt) hnot
    rw [hp, hcc, hi]
  · rw [Nat.add_zero] at hall
    exact absurd (hall c hc) hnot

theorem Chained.unique (h : Chained home a) {i j : Nat} {e e' : K × V} (he : slot a i = some e)
    (he' : slot a j = some e') (hk : e.1 = e'.1) : i = j := by
  have hi := h.probe_stored he
  have hj := h.probe_stored he'
  rw [hk, hj] at hi
  exact (Option.some.inj hi).symm

/-- The `c`th slot after the first one goes over all slots. -/
theorem exists_offset (s : Nat) {i n : Nat} (hi : i < n) : ∃ c < n, (s + c) % n = i := by
  have hn : 0 < n := by omega
  have hs := Nat.mod_lt s hn
  by_cases hle : s % n ≤ i
  · refine ⟨i - s % n, by omega, ?_⟩
    rw [← Nat.mod_add_mod, Nat.add_sub_cancel' hle, Nat.mod_eq_of_lt hi]
  · refine ⟨i + n - s % n, by omega, ?_⟩
    rw [← Nat.mod_add_mod, show s % n + (i + n - s % n) = i + n by omega, Nat.add_mod_right,
      Nat.mod_eq_of_lt hi]

/-- A key that is not stored gets a free slot, if there is one. -/
theorem Chained.probe_absent (h : Chained home a) {k : K} (hk : Absent a k) :
    (∃ i < a.length, probe a (home k) k a.length 0 = some i ∧ slot a i = none) ∨
      (probe a (home k) k a.length 0 = none ∧ ∀ i < a.length, slot a i ≠ none) := by
  rcases probe_spec (a := a) (h := home k) (k := k) a.length 0 with ⟨c, -, hp, -, hend⟩ | ⟨hp, hall⟩
  · refine .inl ⟨_, Nat.mod_lt _ h.pos, hp, ?_⟩
    by_contra hne
    obtain ⟨e, he⟩ := Option.ne_none_iff_exists'.mp hne
    exact hend ⟨e, he, hk _ e he⟩
  · refine .inr ⟨hp, ?_⟩
    intro i hi hnone
    obtain ⟨c, hc, hci⟩ := exists_offset (home k + 0) hi
    obtain ⟨e, he, -⟩ := hall c hc
    rw [hci, hnone] at he
    cases he

/-- The key is put into the slot that the probe gives. -/
theorem Chained.set (h : Chained home a) {k : K} {i : Nat}
    (hp : probe a (home k) k a.length 0 = some i) (v : V) : Chained home (a.set i (some (k, v))) := by
  rcases probe_spec (a := a) (h := home k) (k := k) a.length 0 with
    ⟨c, hc, hpc, hbefore, hend⟩ | ⟨hnone, -⟩
  swap
  · rw [hnone] at hp
    cases hp
  rw [Nat.add_zero] at hpc hbefore hend
  obtain rfl : (home k + c) % a.length = i := Option.some.inj (hpc.symm.trans hp)
  have hlt : (home k + c) % a.length < a.length := Nat.mod_lt _ h.pos
  -- slots with other keys than `k'` stay so, if they are not the slot or `k'` is not `k`
  have hkeep : ∀ k' j, (k' ≠ k ∨ j ≠ (home k + c) % a.length) → Other a k' j →
      Other (a.set ((home k + c) % a.length) (some (k, v))) k' j := by
    rintro k' j hor ⟨e, he, hne⟩
    unfold Other
    rw [slot_set _ _ hlt]
    by_cases hj : (home k + c) % a.length = j
    · rw [if_pos hj]
      exact ⟨(k, v), rfl, fun heq => hor.elim (fun hne => hne heq.symm) (fun hne => hne hj.symm)⟩
    · rw [if_neg hj]
      exact ⟨e, he, hne⟩
  have hother : ∀ c' < c, Other a k ((home k + c') % a.length) → (home k + c') % a.length ≠
      (home k + c) % a.length := by
    intro c' _ ho heq
    rw [heq] at ho
    exact hend ho
  refine ⟨by rw [List.length_set]; exact h.pos, ?_⟩
  rw [List.length_set]
  intro j e he
  rw [slot_set _ _ hlt] at he
  by_cases hj : (home k + c) % a.length = j
  · rw [if_pos hj] at he
    cases he
    refine ⟨c, hc, hj.symm, ?_⟩
    intro c' hc'
    exact hkeep k _ (.inr (hother c' hc' (hbefore c' hc'))) (hbefore c' hc')
  · rw [if_neg hj] at he
    obtain ⟨d, hd, hjd, hchain⟩ := h.chain j e he
    refine ⟨d, hd, hjd, ?_⟩
    intro c' hc'
    apply hkeep _ _ ?_ (hchain c' hc')
    -- the key `k` itself was not behind its slot
    by_cases hek : e.1 = k
    · exfalso
      have hstored := h.probe_stored he
      rw [hek, hpc] at hstored
      exact hj (Option.some.inj hstored)
    · exact .inl hek

/-- No key stands twice. -/
theorem Chained.nodup (h : Chained home a) : (a.reduceOption.map Prod.fst).Nodup := by
  have hpair : a.Pairwise fun x y => ∀ e, x = some e → ∀ e', y = some e' → e.1 ≠ e'.1 := by
    rw [List.pairwise_iff_getElem]
    intro i j hi hj hij e he e' he' hk
    have hne : i = j := h.unique (slot_eq_some.mpr (List.getElem?_eq_some_iff.mpr ⟨hi, he⟩))
      (slot_eq_some.mpr (List.getElem?_eq_some_iff.mpr ⟨hj, he'⟩)) hk
    omega
  unfold List.Nodup
  rw [List.pairwise_map]
  exact hpair.filterMap id fun x y hxy e he e' he' => hxy e he e' he'

end Chained

end probing
