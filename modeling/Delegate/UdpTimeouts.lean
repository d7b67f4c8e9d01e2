-- The idle associations of the relay (udprelay.cpp): the one that is idle
-- for the longest time, and those that are removed after the timeout. The
-- table is an array of pointers here, ended by a null pointer.
import Delegate.UdpRelay

namespace delegate.udp

/-! ## The table in memory -/

/-- The cells of `uassocv`. -/
abbrev Cells := Nat → Option Assoc

/-- The associations stand in the first cells without gaps, and a null cell
ends them. -/
def Terminated (uav : Cells) (l : List Assoc) : Prop := ∀ i ≤ l.length, uav i = l[i]?

/-- The loop of `delUA` over the cells from `uy` on, in at most `n` rounds. -/
def squeeze : Nat → Cells → Nat → Cells
  | 0, uav, _ => uav
  | n + 1, uav, uy =>
    match uav uy with
    | none => uav
    | some _ => squeeze n (Function.update uav uy (uav (uy + 1))) (uy + 1)

/-- The loop of `killTimeouts`: the table and `nkill`. -/
def killCells (cf : Conf) (now : Nat) : Nat → Cells → Nat → Cells × Nat
  | 0, uav, _ => (uav, 0)
  | n + 1, uav, ux =>
    match uav ux with
    | none => (uav, 0)
    | some ua =>
      if cf.IO_TIMEOUT < ua.idle now then
        let r := killCells cf now n (squeeze (MAXASSOC + 1) uav ux) (ux + 1)
        (r.1, r.2 + 1)
      else killCells cf now n uav (ux + 1)

def killTimeouts (cf : Conf) (now : Nat) (uav : Cells) : Cells × Nat :=
  killCells cf now (MAXASSOC + 1) uav 0

/-! ## One removal -/

/-- A table has one list of associations. -/
theorem terminated_unique {uav : Cells} {l l' : List Assoc} (h : Terminated uav l)
    (h' : Terminated uav l') : l = l' := by
  have hle : ∀ {a b : List Assoc}, Terminated uav a → Terminated uav b →
      a.length ≤ b.length := by
    intro a b ha hb
    by_contra hlt
    have h1 := ha b.length (by omega)
    rw [hb b.length (le_refl _), List.getElem?_eq_none (le_refl _),
      List.getElem?_eq_getElem (by omega)] at h1
    cases h1
  have hlen := Nat.le_antisymm (hle h h') (hle h' h)
  apply List.ext_getElem?
  intro i
  by_cases hi : i ≤ l.length
  · rw [← h i hi, ← h' i (hlen ▸ hi)]
  · rw [List.getElem?_eq_none (by omega), List.getElem?_eq_none (by omega)]

/-- The cells from `uy` up to the null cell take what the next one has, and
the others stay. -/
theorem squeeze_cells {l : List Assoc} (n : Nat) {uav : Cells} {uy : Nat}
    (hcells : ∀ i, uy ≤ i → i ≤ l.length → uav i = l[i]?) (huy : uy ≤ l.length)
    (hn : l.length < uy + n) (i : Nat) :
    squeeze n uav uy i = if uy ≤ i ∧ i < l.length then l[i + 1]? else uav i := by
  induction n generalizing uav uy with
  | zero => omega
  | succ n ih =>
    have hcell := hcells uy (le_refl _) huy
    unfold squeeze
    rcases Nat.lt_or_eq_of_le huy with hlt | rfl
    · rw [List.getElem?_eq_getElem hlt] at hcell
      rw [hcell]
      simp only
      rw [ih (fun j hj hj' => ?_) hlt (by omega)]
      · by_cases heq : i = uy
        · subst heq
          rw [if_neg (by omega), if_pos ⟨le_refl _, hlt⟩, Function.update_self]
          exact hcells (i + 1) (by omega) (by omega)
        · rw [Function.update_of_ne heq]
          exact if_congr (by omega) rfl rfl
      · rw [Function.update_of_ne (by omega)]
        exact hcells j (by omega) hj'
    · rw [List.getElem?_eq_none (le_refl _)] at hcell
      rw [hcell]
      simp only
      rw [if_neg (by omega)]

theorem terminated_squeeze {uav : Cells} {l : List Assoc} (h : Terminated uav l) {ux n : Nat}
    (hux : ux < l.length) (hn : l.length < ux + n) :
    Terminated (squeeze n uav ux) (l.eraseIdx ux) := by
  intro i hi
  rw [List.length_eraseIdx_of_lt hux] at hi
  rw [squeeze_cells n (fun j _ hj => h j hj) (by omega) hn, List.getElem?_eraseIdx]
  by_cases hiu : i < ux
  · rw [if_neg (by omega), if_pos hiu]
    exact h i (by omega)
  · rw [if_neg hiu]
    split
    · rfl
    · rw [h i (by omega), List.getElem?_eq_none (by omega), List.getElem?_eq_none (by omega)]

/-! ## What a pass over the table leaves -/

section
variable {α : Type*} {kills idle : α → Bool}

/-- The associations that are left, when the loop goes on behind the one
that moved into the place of a removed one. -/
def spared (kills : α → Bool) : List α → List α
  | [] => []
  | [a] => if kills a then [] else [a]
  | a :: b :: l => if kills a then b :: spared kills l else a :: spared kills (b :: l)

/-- `a` stands before `b` in a table that is treated right. -/
def Beside (kills idle : α → Bool) (a b : α) : Prop :=
  (idle a = true → idle b = false) ∧ (kills b = true → idle b = false → idle a = true)

/-- No two neighbours are idle, and what is wrongly taken for idle stands
behind one that is. -/
structure Spaced (kills idle : α → Bool) (l : List α) : Prop where
  first : ∀ a ∈ l.head?, kills a = true → idle a = true
  next : l.IsChain (Beside kills idle)

/-- A pass keeps the order, and nothing new comes in. -/
theorem spared_sublist (l : List α) : (spared kills l).Sublist l := by
  fun_induction spared kills l with
  | case1 => exact .slnil
  | case2 a h => exact List.nil_sublist _
  | case3 a h => exact List.Sublist.refl _
  | case4 a b l h ih => exact (ih.cons_cons b).cons a
  | case5 a b l h ih => exact ih.cons_cons a

/-- Behind an association that is not idle the table is as spaced as a
table of its own. -/
theorem spaced_tail_iff {b : α} {l : List α} (hb : idle b = false) :
    (b :: l).IsChain (Beside kills idle) ↔ Spaced kills idle l := by
  rcases l with _ | ⟨c, l⟩
  · exact ⟨fun _ => ⟨by simp, .nil⟩, fun _ => .singleton b⟩
  · rw [List.isChain_cons_cons]
    constructor
    · rintro ⟨⟨-, h⟩, hl⟩
      refine ⟨fun a ha hk => ?_, hl⟩
      simp only [List.head?_cons, Option.mem_some_iff] at ha
      subst ha
      by_contra hi
      rw [h hk (by simpa using hi)] at hb
      cases hb
    · rintro ⟨h, hl⟩
      refine ⟨⟨fun hi => ?_, fun hk hi => ?_⟩, hl⟩
      · rw [hb] at hi
        cases hi
      · rw [h c (by simp) hk] at hi
        cases hi

/-- An association that is taken for idle and is not: nothing that comes
behind it makes up for the loss. -/
theorem spared_loss {a b : α} {l : List α} (ha : idle a = false) :
    b :: spared kills l ≠ a :: (b :: l).filter (fun x => !idle x) := by
  intro h
  obtain ⟨rfl, htail⟩ := List.cons_eq_cons.mp h
  rw [List.filter_cons_of_pos (by simp [ha])] at htail
  -- One more association would be left of `l` than `l` has.
  have hsub : (spared kills l).Sublist l := spared_sublist l
  have hle := (hsub.filter (fun x => !idle x)).length_le
  rw [htail, List.filter_cons_of_pos (by simp [ha]), List.filter_filter] at hle
  simp at hle

/-- A pass leaves exactly the associations that are not idle, when and only
when the table is spaced. -/
theorem spared_eq_filter_iff (hik : ∀ a, idle a = true → kills a = true) (l : List α) :
    spared kills l = l.filter (fun a => !idle a) ↔ Spaced kills idle l := by
  fun_induction spared kills l with
  | case1 => exact iff_of_true rfl ⟨by simp, .nil⟩
  | case2 a hk =>
    constructor
    · intro h
      refine ⟨fun b hb _ => ?_, .singleton a⟩
      simp only [List.head?_cons, Option.mem_some_iff] at hb
      subst hb
      by_contra hi
      simp [hi] at h
    · intro h
      simp [h.first a (by simp) hk]
  | case3 a hk =>
    have hi : idle a = false := by
      by_contra hi
      exact hk (hik a (by simpa using hi))
    refine iff_of_true (by simp [hi]) ⟨fun b hb hkb => ?_, .singleton a⟩
    simp only [List.head?_cons, Option.mem_some_iff] at hb
    subst hb
    exact absurd hkb hk
  | case4 a b l hk ih =>
    cases hi : idle a with
    | false =>
      refine iff_of_false ?_ fun h => ?_
      · rw [List.filter_cons_of_pos (by simp [hi])]
        exact spared_loss hi
      · rw [h.first a (by simp) hk] at hi
        cases hi
    | true =>
      rw [List.filter_cons_of_neg (by simp [hi])]
      cases hb : idle b with
      | true =>
        refine iff_of_false (fun h => ?_) fun h => ?_
        · -- What the filter leaves is not idle.
          have hmem : b ∈ (b :: l).filter (fun x => !idle x) := by
            rw [← h]
            exact List.mem_cons_self
          rw [List.mem_filter, hb] at hmem
          cases hmem.2
        · have h1 := (List.isChain_cons_cons.mp h.next).1.1 hi
          rw [hb] at h1
          cases h1
      | false =>
        rw [List.filter_cons_of_pos (by simp [hb]), List.cons_inj_right, ih, ← spaced_tail_iff hb]
        constructor
        · intro h
          refine ⟨fun c hc _ => ?_, List.isChain_cons_cons.mpr ⟨⟨fun _ => hb, fun _ _ => hi⟩, h⟩⟩
          simp only [List.head?_cons, Option.mem_some_iff] at hc
          exact hc ▸ hi
        · exact fun h => (List.isChain_cons_cons.mp h.next).2
  | case5 a b l hk ih =>
    have hi : idle a = false := by
      by_contra hi
      exact hk (hik a (by simpa using hi))
    rw [List.filter_cons_of_pos (by simp [hi]), List.cons_inj_right, ih, ← spaced_tail_iff hi]
    constructor
    · intro h
      refine ⟨fun c hc hkc => ?_, h⟩
      simp only [List.head?_cons, Option.mem_some_iff] at hc
      subst hc
      exact absurd hkc hk
    · exact fun h => h.next

end

/-! ## The pass of `killTimeouts` -/

/-- What the code takes for idle: the difference is unsigned. -/
def Assoc.kills (cf : Conf) (now : Nat) (ua : Assoc) : Bool := decide (cf.IO_TIMEOUT < ua.idle now)

/-- More than the timeout has passed since the last use. -/
def Assoc.timedOut (cf : Conf) (now : Nat) (ua : Assoc) : Bool :=
  decide ((cf.IO_TIMEOUT : Int) < (now : Int) - ua.ua_mtime)

section
variable {cf : Conf} {now : Nat}

theorem getElem?_length_append {α : Type*} (done : List α) (a : α) (l : List α) :
    (done ++ a :: l)[done.length]? = some a := by simp

/-- The array after the pass. -/
theorem killCells_terminated (n : Nat) {uav : Cells} {done l : List Assoc}
    (h : Terminated uav (done ++ l)) (hmax : (done ++ l).length ≤ MAXASSOC) (hn : l.length < n) :
    Terminated (killCells cf now n uav done.length).1
      (done ++ spared (Assoc.kills cf now) l) := by
  induction n generalizing uav done l with
  | zero => omega
  | succ n ih =>
    have hcell := h done.length (by simp)
    rcases l with _ | ⟨ua, l⟩
    · rw [List.getElem?_eq_none (by simp)] at hcell
      simpa [killCells, hcell, spared] using h
    · rw [getElem?_length_append] at hcell
      simp only [List.length_append, List.length_cons] at hmax hn
      by_cases hk : cf.IO_TIMEOUT < ua.idle now
      · have hkills : ua.kills cf now = true := by simp [Assoc.kills, hk]
        have hround : (killCells cf now (n + 1) uav done.length).1 =
            (killCells cf now n (squeeze (MAXASSOC + 1) uav done.length) (done.length + 1)).1 := by
          simp [killCells, hcell, hk]
        have hsq : Terminated (squeeze (MAXASSOC + 1) uav done.length) (done ++ l) := by
          have hsq := terminated_squeeze (n := MAXASSOC + 1) h
            (by simp : done.length < (done ++ ua :: l).length) (by simp; omega)
          rw [List.eraseIdx_append_of_length_le (le_refl _)] at hsq
          simpa using hsq
        rw [hround]
        rcases l with _ | ⟨u2, l⟩
        · -- The next cell is the old null cell.
          have hnull : squeeze (MAXASSOC + 1) uav done.length (done.length + 1) = none := by
            rw [squeeze_cells (l := done ++ [ua]) _ (fun j _ hj => h j hj) (by simp)
              (by simp; omega), if_neg (by simp)]
            have hend := h (done.length + 1) (by simp)
            rwa [List.getElem?_eq_none (by simp)] at hend
          rcases n with _ | n
          · simpa [killCells, spared, hkills] using hsq
          · simpa [killCells, hnull, spared, hkills] using hsq
        · simp only [List.length_cons] at hmax hn
          have hnext : Terminated (squeeze (MAXASSOC + 1) uav done.length) ((done ++ [u2]) ++ l) := by
            simpa using hsq
          have hstep := ih hnext (by simp; omega) (by omega)
          simpa [spared, hkills] using hstep
      · have hkills : ua.kills cf now = false := by simp [Assoc.kills, hk]
        have hround : (killCells cf now (n + 1) uav done.length).1 =
            (killCells cf now n uav (done.length + 1)).1 := by
          simp [killCells, hcell, hk]
        have hspared : spared (Assoc.kills cf now) (ua :: l) =
            ua :: spared (Assoc.kills cf now) l := by
          rcases l with _ | ⟨u2, l⟩ <;> simp [spared, hkills]
        have hnext : Terminated uav ((done ++ [ua]) ++ l) := by simpa using h
        have hstep := ih hnext (by simp; omega) (by omega)
        rw [hround, hspared]
        simpa using hstep

/-- The loop of the machine removes the same associations. -/
theorem killFrom_uassocv (n : Nat) {st : Relay} {done l : List Assoc}
    (h : st.uassocv = done ++ l) (hn : l.length < n) :
    (Relay.killFrom cf now n st done.length).uassocv =
      done ++ spared (Assoc.kills cf now) l := by
  induction n generalizing st done l with
  | zero => omega
  | succ n ih =>
    unfold Relay.killFrom
    rcases l with _ | ⟨ua, l⟩
    · simp [h, spared]
    · rw [h, getElem?_length_append]
      simp only [List.length_cons] at hn
      simp only
      by_cases hk : cf.IO_TIMEOUT < ua.idle now
      · have hkills : ua.kills cf now = true := by simp [Assoc.kills, hk]
        have hdel : ((st.use (some ua.ua_id)).delUA done.length true).uassocv = done ++ l := by
          simp [Relay.delUA, Relay.use, h, List.eraseIdx_append_of_length_le]
        rw [if_pos hk]
        rcases l with _ | ⟨u2, l⟩
        · rcases n with _ | n
          · simpa [Relay.killFrom, spared, hkills] using hdel
          · rw [Relay.killFrom, hdel, List.getElem?_eq_none (by simp)]
            simpa [spared, hkills] using hdel
        · simp only [List.length_cons] at hn
          have hnext : ((st.use (some ua.ua_id)).delUA done.length true).uassocv =
              (done ++ [u2]) ++ l := by simpa using hdel
          have hstep := ih hnext (by omega)
          simpa [spared, hkills] using hstep
      · have hkills : ua.kills cf now = false := by simp [Assoc.kills, hk]
        have hspared : spared (Assoc.kills cf now) (ua :: l) =
            ua :: spared (Assoc.kills cf now) l := by
          rcases l with _ | ⟨u2, l⟩ <;> simp [spared, hkills]
        have hnext : (st.use (some ua.ua_id)).uassocv = (done ++ [ua]) ++ l := by
          simpa [Relay.use] using h
        have hstep := ih hnext (by omega)
        rw [if_neg hk, hspared]
        simpa using hstep

/-- The array and the table of the machine stay the same. -/
theorem killTimeouts_refines {st : Relay} {uav : Cells} (h : Terminated uav st.uassocv)
    (hmax : st.uassocv.length ≤ MAXASSOC) :
    Terminated (killTimeouts cf now uav).1 (st.killTimeouts cf now).uassocv := by
  have hcells : Terminated (killTimeouts cf now uav).1
      ([] ++ spared (Assoc.kills cf now) st.uassocv) :=
    killCells_terminated (MAXASSOC + 1) (l := st.uassocv) h hmax (by omega)
  have hlist : (st.killTimeouts cf now).uassocv = [] ++ spared (Assoc.kills cf now) st.uassocv :=
    @killFrom_uassocv cf now (st.uassocv.length + 1) st [] st.uassocv rfl (by omega)
  rw [hlist]
  exact hcells

/-- The unsigned difference is right for a time that is not in the future. -/
theorem kills_of_timedOut (hnow : now < 2 ^ 31) {ua : Assoc} (h : ua.timedOut cf now = true) :
    ua.kills cf now = true := by
  unfold Assoc.timedOut at h
  unfold Assoc.kills Assoc.idle
  rw [decide_eq_true_eq] at h ⊢
  omega

/-- `killTimeouts` leaves exactly the associations that are not timed out,
when and only when the table is spaced. -/
theorem killTimeouts_iff {uav : Cells} {l : List Assoc} (h : Terminated uav l)
    (hmax : l.length ≤ MAXASSOC) (hnow : now < 2 ^ 31) :
    Terminated (killTimeouts cf now uav).1 (l.filter fun ua => !ua.timedOut cf now) ↔
      Spaced (Assoc.kills cf now) (Assoc.timedOut cf now) l := by
  have hcells : Terminated (killTimeouts cf now uav).1 ([] ++ spared (Assoc.kills cf now) l) :=
    killCells_terminated (MAXASSOC + 1) (l := l) h hmax (by omega)
  rw [← spared_eq_filter_iff (fun ua => kills_of_timedOut hnow)]
  constructor
  · exact fun hf => terminated_unique hcells hf
  · exact fun he => he ▸ hcells

end

/-! ## The longest idle association -/

/-- The index of an association that was used no later than the others. -/
def LeastAt (l : List Assoc) (i : Nat) : Prop :=
  ∃ ua, l[i]? = some ua ∧ ∀ other ∈ l, ua.ua_mtime ≤ other.ua_mtime

/-- There is a last association, and it is one with the time 0 if there is
any such one. -/
def ZeroLast (l : List Assoc) : Prop :=
  ∃ last, l.getLast? = some last ∧ ((∀ ua ∈ l, ua.ua_mtime ≠ 0) ∨ last.ua_mtime = 0)

/-- Without the time 0 the search is the one for the first least time. -/
theorem longestIdleFrom_least (l : List Assoc) (ai mtime mx : Nat)
    (hl : ∀ ua ∈ l, ua.ua_mtime ≠ 0) (hm : mtime ≠ 0) :
    (longestIdleFrom l ai mtime mx = mx ∧ ∀ ua ∈ l, mtime ≤ ua.ua_mtime) ∨
      ∃ j ua, longestIdleFrom l ai mtime mx = ai + j ∧ l[j]? = some ua ∧ ua.ua_mtime < mtime ∧
        ∀ other ∈ l, ua.ua_mtime ≤ other.ua_mtime := by
  induction l generalizing ai mtime mx with
  | nil => exact .inl ⟨rfl, by simp⟩
  | cons ua l ih =>
    have hl' : ∀ ua ∈ l, ua.ua_mtime ≠ 0 := fun u hu => hl u (List.mem_cons_of_mem _ hu)
    unfold longestIdleFrom
    by_cases hlt : ua.ua_mtime < mtime
    · rw [if_pos (.inr hlt)]
      refine .inr ?_
      rcases ih (ai + 1) ua.ua_mtime ai hl' (hl ua (by simp)) with ⟨hr, hle⟩ | ⟨j, u, hr, hj, hu, hle⟩
      · refine ⟨0, ua, hr, by simp, hlt, fun other ho => ?_⟩
        rcases List.mem_cons.mp ho with rfl | ho
        · exact le_refl _
        · exact hle other ho
      · refine ⟨j + 1, u, by rw [hr]; omega, by simpa using hj, by omega, fun other ho => ?_⟩
        rcases List.mem_cons.mp ho with rfl | ho
        · omega
        · exact hle other ho
    · rw [if_neg (by rintro (h | h) <;> contradiction)]
      rcases ih (ai + 1) mtime mx hl' hm with ⟨hr, hle⟩ | ⟨j, u, hr, hj, hu, hle⟩
      · refine .inl ⟨hr, fun other ho => ?_⟩
        rcases List.mem_cons.mp ho with rfl | ho
        · omega
        · exact hle other ho
      · refine .inr ⟨j + 1, u, by rw [hr]; omega, by simpa using hj, hu, fun other ho => ?_⟩
        rcases List.mem_cons.mp ho with rfl | ho
        · omega
        · exact hle other ho

/-- An association with the time 0 is always taken: it ends the search when
it is the last one. -/
theorem longestIdleFrom_last (l : List Assoc) {last : Assoc} (hz : last.ua_mtime = 0)
    (ai mtime mx : Nat) : longestIdleFrom (l ++ [last]) ai mtime mx = ai + l.length := by
  induction l generalizing ai mtime mx with
  | nil =>
    have htake : mtime = 0 ∨ last.ua_mtime < mtime := by omega
    simp [longestIdleFrom, htake]
  | cons ua l ih =>
    rw [List.cons_append, longestIdleFrom]
    split
    · rw [ih, List.length_cons]
      omega
    · rw [ih, List.length_cons]
      omega

/-- After an association with the time 0 the next one is taken whatever its
time is: the search ends at another one if the last has a time. -/
theorem longestIdleFrom_used (l : List Assoc) {last : Assoc} (hz : last.ua_mtime ≠ 0)
    (ai mtime mx : Nat) :
    (longestIdleFrom (l ++ [last]) ai mtime mx = mx ∧ mtime ≠ 0) ∨
      ∃ j ua, longestIdleFrom (l ++ [last]) ai mtime mx = ai + j ∧
        (l ++ [last])[j]? = some ua ∧ ua.ua_mtime ≠ 0 := by
  induction l generalizing ai mtime mx with
  | nil =>
    by_cases htake : mtime = 0 ∨ last.ua_mtime < mtime
    · exact .inr ⟨0, last, by simp [longestIdleFrom, htake], by simp, hz⟩
    · exact .inl ⟨by simp [longestIdleFrom, htake], by omega⟩
  | cons ua l ih =>
    rw [List.cons_append, longestIdleFrom]
    split
    · rcases ih (ai + 1) ua.ua_mtime ai with ⟨hr, hne⟩ | ⟨j, u, hr, hj, hu⟩
      · exact .inr ⟨0, ua, hr, by simp, hne⟩
      · exact .inr ⟨j + 1, u, by rw [hr]; omega, by simpa using hj, hu⟩
    · rcases ih (ai + 1) mtime mx with ⟨hr, hne⟩ | ⟨j, u, hr, hj, hu⟩
      · exact .inl ⟨hr, hne⟩
      · exact .inr ⟨j + 1, u, by rw [hr]; omega, by simpa using hj, hu⟩

/-- The search finds a least time when and only when no time is 0, or the
last one is. -/
theorem longestIdle_iff (l : List Assoc) : LeastAt l (longestIdle l) ↔ ZeroLast l := by
  unfold longestIdle
  rcases List.eq_nil_or_concat l with rfl | ⟨init, last, rfl⟩
  · refine iff_of_false ?_ ?_
    · rintro ⟨ua, h, -⟩
      simp at h
    · rintro ⟨ua, h, -⟩
      simp at h
  rw [List.concat_eq_append]
  by_cases hz : last.ua_mtime = 0
  · refine iff_of_true ?_ ⟨last, by simp, .inr hz⟩
    refine ⟨last, ?_, fun other _ => by omega⟩
    rw [longestIdleFrom_last init hz]
    simp
  by_cases hall : ∀ ua ∈ init ++ [last], ua.ua_mtime ≠ 0
  · refine iff_of_true ?_ ⟨last, by simp, .inl hall⟩
    rcases hl : init ++ [last] with _ | ⟨ua, l⟩
    · simp at hl
    rw [hl] at hall
    rw [longestIdleFrom, if_pos (.inl rfl)]
    rcases longestIdleFrom_least l 1 ua.ua_mtime 0
      (fun u hu => hall u (List.mem_cons_of_mem _ hu)) (hall ua (by simp)) with
      ⟨hr, hle⟩ | ⟨j, u, hr, hj, hu, hle⟩
    · rw [Nat.zero_add, hr]
      refine ⟨ua, by simp, fun other ho => ?_⟩
      rcases List.mem_cons.mp ho with rfl | ho
      · exact le_refl _
      · exact hle other ho
    · rw [Nat.zero_add, hr]
      refine ⟨u, by rw [Nat.add_comm]; simpa using hj, fun other ho => ?_⟩
      rcases List.mem_cons.mp ho with rfl | ho
      · omega
      · exact hle other ho
  · push Not at hall
    obtain ⟨zero, hmem, hzero⟩ := hall
    refine iff_of_false ?_ ?_
    · -- The one that is found has a time, and `zero` has none.
      rintro ⟨ua, hget, hleast⟩
      have hle := hleast zero hmem
      rcases longestIdleFrom_used init hz 0 0 0 with ⟨-, hne⟩ | ⟨j, u, hr, hj, hu⟩
      · exact hne rfl
      · rw [hr, Nat.zero_add, hj, Option.some.injEq] at hget
        subst hget
        omega
    · rintro ⟨u, hu, h⟩
      simp only [List.getLast?_append, List.getLast?_singleton, Option.some_or,
        Option.some.injEq] at hu
      subst hu
      rcases h with h | h
      · exact h zero hmem hzero
      · exact hz h

/-! ## Both -/

/-- The search and the pass are right exactly for the tables that are spaced
and have the time 0 last or not at all. -/
theorem timeouts_iff (cf : Conf) (now : Nat) (uav : Cells) (l : List Assoc)
    (htab : Terminated uav l) (hmax : l.length ≤ MAXASSOC) (hnow : now < 2 ^ 31) :
    (LeastAt l (longestIdle l) ∧
        Terminated (killTimeouts cf now uav).1 (l.filter fun ua => !ua.timedOut cf now)) ↔
      ZeroLast l ∧ Spaced (Assoc.kills cf now) (Assoc.timedOut cf now) l := by
  rw [longestIdle_iff, killTimeouts_iff htab hmax hnow]

/-- An association with a time of its last use. -/
def usedAt (id mtime : Nat) : Assoc :=
  { adr := id, ua_id := id, ua_cl := ("c", 1), ua_sv := ("s", 1), ua_svsock := id,
    ua_mtime := mtime, ua_svbound := true, ua_svtcp := false, ua_svSOCKS := -1 }

/-- The cells of a table with nothing behind it. -/
def cellsOf (l : List Assoc) : Cells := fun i => l[i]?

def timeout600 : Conf :=
  { csc := 0, csv := fun _ => 0, istcp := fun _ => false, sockPort := fun _ => 0, svhost := "s",
    DST_PORT := 1, svportmap := 0, UDPRELAY_MAXASSOC := 32, UDPRELAY_RPORT_FIX := false,
    IO_TIMEOUT := 600, SERVER_TIMEOUT := 0 }

/-- Of three idle neighbours the second stays in the table. -/
theorem timeouts_neighbours :
    Terminated (cellsOf [usedAt 1 5, usedAt 2 5, usedAt 3 5]) [usedAt 1 5, usedAt 2 5, usedAt 3 5] ∧
    ¬ (LeastAt [usedAt 1 5, usedAt 2 5, usedAt 3 5]
          (longestIdle [usedAt 1 5, usedAt 2 5, usedAt 3 5]) ∧
        Terminated (killTimeouts timeout600 1000
            (cellsOf [usedAt 1 5, usedAt 2 5, usedAt 3 5])).1
          ([usedAt 1 5, usedAt 2 5, usedAt 3 5].filter fun ua => !ua.timedOut timeout600 1000)) := by
  refine ⟨fun _ _ => rfl, ?_⟩
  rintro ⟨-, h⟩
  have hempty : ([usedAt 1 5, usedAt 2 5, usedAt 3 5].filter fun ua =>
      !ua.timedOut timeout600 1000) = [] := by
    simp [usedAt, Assoc.timedOut, timeout600]
  rw [hempty] at h
  have hleft := h 0 (by simp)
  revert hleft
  decide

/-- One idle association between two that are in use. -/
theorem timeouts_iff_spaced :
    (Terminated (cellsOf [usedAt 1 900, usedAt 2 5, usedAt 3 900])
        [usedAt 1 900, usedAt 2 5, usedAt 3 900] ∧
      [usedAt 1 900, usedAt 2 5, usedAt 3 900].length ≤ MAXASSOC ∧ 1000 < 2 ^ 31) ∧
    ((LeastAt [usedAt 1 900, usedAt 2 5, usedAt 3 900]
          (longestIdle [usedAt 1 900, usedAt 2 5, usedAt 3 900]) ∧
        Terminated (killTimeouts timeout600 1000
            (cellsOf [usedAt 1 900, usedAt 2 5, usedAt 3 900])).1
          ([usedAt 1 900, usedAt 2 5, usedAt 3 900].filter fun ua =>
            !ua.timedOut timeout600 1000)) ↔
      ZeroLast [usedAt 1 900, usedAt 2 5, usedAt 3 900] ∧
        Spaced (Assoc.kills timeout600 1000) (Assoc.timedOut timeout600 1000)
          [usedAt 1 900, usedAt 2 5, usedAt 3 900]) :=
  have htab : Terminated (cellsOf [usedAt 1 900, usedAt 2 5, usedAt 3 900])
      [usedAt 1 900, usedAt 2 5, usedAt 3 900] := fun _ _ => rfl
  ⟨⟨htab, by simp [MAXASSOC], by simp⟩,
    timeouts_iff timeout600 1000 _ _ htab (by simp [MAXASSOC]) (by simp)⟩

end delegate.udp
