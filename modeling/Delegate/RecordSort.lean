-- `Bsort` on the bytes of an array (rary/bsort.cpp): the pointers to the records of
-- a copy are nulled one by one, and their records are copied back in order.
import Delegate.StableSort

open stablesort

namespace delegate.recsort

/-! ## The pure model -/

/-- An array of `nel` records of `width` bytes. -/
structure Table (nel width : Nat) where
  base : List UInt8
  size_eq : base.length = nel * width

/-- The record that a pointer into an array points to. -/
def recordAt (srcb : List UInt8) (width p : Nat) : List UInt8 := (srcb.drop p).take width

/-- The records of an array, in their order. -/
def records (base : List UInt8) (nel width : Nat) : List (List UInt8) :=
  (List.range nel).map fun sx => recordAt base width (sx * width)

/-- `bcopy(src,&base[off],width)` -/
def bcopy (src base : List UInt8) (off : Nat) : List UInt8 :=
  base.take off ++ src ++ base.drop (off + src.length)

section
variable (srcb : List UInt8) (width : Nat) (compar : List UInt8 → List UInt8 → Int)

/-- The inner loop at `di`. There is no `max` while it is -1. -/
def nearest (srcp : List (Option Nat)) (max : Option Nat) (di : Nat) : Option Nat :=
  match srcp.getD di none with
  | none => max
  | some p =>
    match max with
    | none => some di
    | some m =>
      match srcp.getD m none with
      | none => some m
      | some q =>
        if 0 < compar (recordAt srcb width q) (recordAt srcb width p) then some di else some m

/-- The outer loop at `dx`. No record is read through a null pointer or through `srcp[-1]`. -/
def put (nel : Nat) (s : List (Option Nat) × List UInt8) (dx : Nat) :
    Option (List (Option Nat) × List UInt8) :=
  match (List.range nel).foldl (nearest srcb width compar s.1) none with
  | none => none
  | some m =>
    match s.1.getD m none with
    | none => none
    | some q => some (s.1.set m none, bcopy (recordAt srcb width q) s.2 (dx * width))

end

/-- `Bsort`: the bytes of the array afterwards. -/
def Bsort {nel width : Nat} (t : Table nel width) (compar : List UInt8 → List UInt8 → Int) :
    Option (List UInt8) :=
  let srcb := t.base.take (nel * width)
  let srcp := (List.range nel).map fun sx => some (sx * width)
  ((List.range nel).foldlM (put srcb width compar nel) (srcp, t.base)).map Prod.snd

/-- The comparison is a total preorder of the records. -/
structure Preorder (width : Nat) (compar : List UInt8 → List UInt8 → Int) : Prop where
  total : ∀ a b : List UInt8, a.length = width → b.length = width →
    compar a b ≤ 0 ∨ compar b a ≤ 0
  trans : ∀ a b c : List UInt8, a.length = width → b.length = width → c.length = width →
    compar a b ≤ 0 → compar b c ≤ 0 → compar a c ≤ 0

/-- Two records compare equal. -/
def equal (compar : List UInt8 → List UInt8 → Int) (a b : List UInt8) : Bool :=
  decide (compar a b ≤ 0) && decide (compar b a ≤ 0)

/-! ## The records of an array -/

theorem recordAt_append {r s : List UInt8} {width : Nat} (hr : r.length = width) (k : Nat) :
    recordAt (r ++ s) width ((k + 1) * width) = recordAt s width (k * width) := by
  unfold recordAt
  have hk : (k + 1) * width = r.length + k * width := by
    rw [hr, Nat.succ_mul, Nat.add_comm]
  rw [hk, ← List.drop_drop, List.drop_left]

theorem records_flatten {width : Nat} {out : List (List UInt8)}
    (h : ∀ r ∈ out, r.length = width) : records out.flatten out.length width = out := by
  induction out with
  | nil => rfl
  | cons r out ih =>
    have hr := h r List.mem_cons_self
    have hout := ih fun x hx => h x (List.mem_cons_of_mem _ hx)
    unfold records at hout ⊢
    rw [List.length_cons, List.range_succ_eq_map, List.map_cons, List.map_map, List.flatten_cons]
    have hfirst : recordAt (r ++ out.flatten) width (0 * width) = r := by
      unfold recordAt
      rw [Nat.zero_mul, List.drop_zero, ← hr, List.take_left]
    rw [hfirst]
    have hrest : (fun sx => recordAt (r ++ out.flatten) width (sx * width)) ∘ Nat.succ =
        fun sx => recordAt out.flatten width (sx * width) := by
      funext k
      exact recordAt_append hr k
    rw [hrest, hout]

theorem records_length (base : List UInt8) (nel width : Nat) :
    (records base nel width).length = nel := by
  unfold records
  rw [List.length_map, List.length_range]

/-- Every record of an array is as wide as the others. -/
theorem length_recordAt {nel width : Nat} {base : List UInt8} (h : base.length = nel * width)
    {sx : Nat} (hsx : sx < nel) : (recordAt base width (sx * width)).length = width := by
  have hend : (sx + 1) * width ≤ nel * width := Nat.mul_le_mul_right _ hsx
  rw [Nat.succ_mul] at hend
  unfold recordAt
  rw [List.length_take, List.length_drop]
  omega

theorem length_of_mem_records {nel width : Nat} {base : List UInt8}
    (h : base.length = nel * width) : ∀ x ∈ records base nel width, x.length = width := by
  intro x hx
  obtain ⟨sx, hsx, rfl⟩ := List.mem_map.mp hx
  exact length_recordAt h (List.mem_range.mp hsx)

/-! ## The records that are left -/

section
variable {srcb : List UInt8} {width nel : Nat} {compar : List UInt8 → List UInt8 → Int}
  {srcp : List (Option Nat)}

/-- The records whose pointers are not nulled yet. -/
def live (srcb : List UInt8) (width : Nat) (srcp : List (Option Nat)) : List (List UInt8) :=
  srcp.filterMap fun p => p.map (recordAt srcb width)

/-- The pointers point to whole records. -/
def Whole (srcb : List UInt8) (width : Nat) (srcp : List (Option Nat)) : Prop :=
  ∀ p, some p ∈ srcp → (recordAt srcb width p).length = width

/-- The order of the records. -/
def Le (width : Nat) (compar : List UInt8 → List UInt8 → Int) (a b : List UInt8) : Prop :=
  a.length = width ∧ b.length = width ∧ compar a b ≤ 0

theorem getD_eq_some {i p : Nat} : srcp.getD i none = some p ↔ srcp[i]? = some (some p) := by
  rw [List.getD_eq_getElem?_getD]
  cases srcp[i]? with
  | none => simp
  | some q => simp

theorem mem_of_getD {i p : Nat} (h : srcp.getD i none = some p) : some p ∈ srcp :=
  List.mem_of_getElem? (getD_eq_some.mp h)

theorem mem_live {x : List UInt8} (h : x ∈ live srcb width srcp) :
    ∃ i p, i < srcp.length ∧ srcp.getD i none = some p ∧ recordAt srcb width p = x := by
  obtain ⟨q, hq, hx⟩ := List.mem_filterMap.mp h
  cases q with
  | none => cases hx
  | some p =>
    obtain ⟨i, hi, hp⟩ := List.getElem_of_mem hq
    refine ⟨i, p, hi, ?_, ?_⟩
    · rw [getD_eq_some, List.getElem?_eq_getElem hi, hp]
    · simpa using hx

/-- `max` is the first least of the records before `n`. -/
structure Best (srcb : List UInt8) (width : Nat) (compar : List UInt8 → List UInt8 → Int)
    (srcp : List (Option Nat)) (n m q : Nat) : Prop where
  lt : m < n
  at_max : srcp.getD m none = some q
  before : ∀ i p, i < m → srcp.getD i none = some p →
    compar (recordAt srcb width q) (recordAt srcb width p) ≤ 0 ∧
      ¬compar (recordAt srcb width p) (recordAt srcb width q) ≤ 0
  after : ∀ i p, m < i → i < n → srcp.getD i none = some p →
    compar (recordAt srcb width q) (recordAt srcb width p) ≤ 0

/-- The kept record is least among all before `n`. -/
theorem Best.least (h : Preorder width compar) (hwhole : Whole srcb width srcp) {n m q : Nat}
    (hbest : Best srcb width compar srcp n m q) {i p : Nat} (hi : i < n)
    (hp : srcp.getD i none = some p) :
    compar (recordAt srcb width q) (recordAt srcb width p) ≤ 0 := by
  rcases Nat.lt_trichotomy i m with hlt | heq | hgt
  · exact (hbest.before i p hlt hp).1
  · subst heq
    have hpq : p = q := Option.some.inj (hp.symm.trans hbest.at_max)
    have hlen := hwhole p (mem_of_getD hp)
    subst hpq
    exact (h.total _ _ hlen hlen).elim id id
  · exact hbest.after i p hgt hi hp

/-- One turn of the inner loop. -/
theorem nearest_best (h : Preorder width compar) (hwhole : Whole srcb width srcp) {n m q : Nat}
    (hbest : Best srcb width compar srcp n m q) :
    ∃ m' q', nearest srcb width compar srcp (some m) n = some m' ∧
      Best srcb width compar srcp (n + 1) m' q' := by
  unfold nearest
  cases hn : srcp.getD n none with
  | none =>
    refine ⟨m, q, rfl, Nat.lt_succ_of_lt hbest.lt, hbest.at_max, hbest.before, ?_⟩
    intro i p hmi hi hp
    rcases Nat.lt_succ_iff_lt_or_eq.mp hi with hlt | heq
    · exact hbest.after i p hmi hlt hp
    · subst heq
      rw [hn] at hp
      cases hp
  | some p =>
    dsimp only
    rw [hbest.at_max]
    dsimp only
    have hlenp := hwhole p (mem_of_getD hn)
    have hlenq := hwhole q (mem_of_getD hbest.at_max)
    by_cases hlt : 0 < compar (recordAt srcb width q) (recordAt srcb width p)
    · -- the record at `n` is below all before it
      rw [if_pos hlt]
      refine ⟨n, p, rfl, Nat.lt_succ_self n, hn, ?_, ?_⟩
      · intro i p' hi hp'
        have hlenp' := hwhole p' (mem_of_getD hp')
        have hq := hbest.least h hwhole hi hp'
        have hnot : ¬compar (recordAt srcb width p') (recordAt srcb width p) ≤ 0 := by
          intro hle
          have hqp := h.trans _ _ _ hlenq hlenp' hlenp hq hle
          omega
        exact ⟨(h.total _ _ hlenp hlenp').resolve_right hnot, hnot⟩
      · intro i p' hni hi
        omega
    · rw [if_neg hlt]
      refine ⟨m, q, rfl, Nat.lt_succ_of_lt hbest.lt, hbest.at_max, hbest.before, ?_⟩
      intro i p' hmi hi hp'
      rcases Nat.lt_succ_iff_lt_or_eq.mp hi with hlt' | heq
      · exact hbest.after i p' hmi hlt' hp'
      · subst heq
        rw [hn] at hp'
        cases hp'
        omega

/-- The inner loop keeps the first least record. -/
theorem nearest_run (h : Preorder width compar) (hwhole : Whole srcb width srcp) (n : Nat) :
    ((List.range n).foldl (nearest srcb width compar srcp) none = none ∧
        ∀ i, i < n → srcp.getD i none = none) ∨
      ∃ m q, (List.range n).foldl (nearest srcb width compar srcp) none = some m ∧
        Best srcb width compar srcp n m q := by
  induction n with
  | zero => exact .inl ⟨rfl, by omega⟩
  | succ n ih =>
    rw [List.range_succ, List.foldl_append, List.foldl_cons, List.foldl_nil]
    rcases ih with ⟨hnone, hnull⟩ | ⟨m, q, hmax, hbest⟩
    · rw [hnone]
      cases hn : srcp.getD n none with
      | none =>
        refine .inl ⟨?_, ?_⟩
        · unfold nearest
          rw [hn]
        · intro i hi
          rcases Nat.lt_succ_iff_lt_or_eq.mp hi with hlt | heq
          · exact hnull i hlt
          · exact heq ▸ hn
      | some p =>
        refine .inr ⟨n, p, ?_, Nat.lt_succ_self n, hn, ?_, ?_⟩
        · unfold nearest
          rw [hn]
        · intro i p' hi hp'
          rw [hnull i hi] at hp'
          cases hp'
        · intro i p' hni hi
          omega
    · obtain ⟨m', q', hmax', hbest'⟩ := nearest_best h hwhole hbest
      rw [hmax]
      exact .inr ⟨m', q', hmax', hbest'⟩

/-- The pointers before the one that is nulled, and those behind it. -/
theorem set_eq {m q : Nat} (hq : srcp.getD m none = some q) :
    srcp = srcp.take m ++ some q :: srcp.drop (m + 1) ∧
      srcp.set m none = srcp.take m ++ none :: srcp.drop (m + 1) := by
  have hget := getD_eq_some.mp hq
  obtain ⟨hm, hm'⟩ := List.getElem?_eq_some_iff.mp hget
  constructor
  · rw [← hm', List.getElem_cons_drop, List.take_append_drop]
  · rw [List.set_eq_take_append_cons_drop, if_pos hm]

/-- The turn picks the first least of the records that are left. -/
theorem Best.picked {m q : Nat} (hwhole : Whole srcb width srcp)
    (hbest : Best srcb width compar srcp srcp.length m q) :
    Picked (Le width compar) (live srcb width srcp) (recordAt srcb width q)
      (live srcb width (srcp.set m none)) := by
  obtain ⟨hsplit, hset⟩ := set_eq hbest.at_max
  have hlive : live srcb width srcp = live srcb width (srcp.take m) ++
      recordAt srcb width q :: live srcb width (srcp.drop (m + 1)) := by
    conv_lhs => rw [hsplit]
    exact List.filterMap_append
  have hrest : live srcb width (srcp.set m none) = live srcb width (srcp.take m) ++
      live srcb width (srcp.drop (m + 1)) := by
    rw [hset]
    exact List.filterMap_append
  have hlenq := hwhole q (mem_of_getD hbest.at_max)
  rw [hlive, hrest]
  constructor
  · intro x hx
    obtain ⟨i, p, hi, hp, rfl⟩ := mem_live hx
    rw [List.length_take] at hi
    have hp' : srcp.getD i none = some p := by
      rw [getD_eq_some, List.getElem?_take_of_lt (by omega)] at hp
      exact getD_eq_some.mpr hp
    have hlenp := hwhole p (mem_of_getD hp')
    obtain ⟨hle, hnot⟩ := hbest.before i p (by omega) hp'
    exact ⟨⟨hlenq, hlenp, hle⟩, fun hge => hnot hge.2.2⟩
  · intro x hx
    obtain ⟨i, p, hi, hp, rfl⟩ := mem_live hx
    rw [List.length_drop] at hi
    have hp' : srcp.getD (m + 1 + i) none = some p := by
      rw [getD_eq_some, List.getElem?_drop] at hp
      exact getD_eq_some.mpr hp
    have hlenp := hwhole p (mem_of_getD hp')
    exact ⟨hlenq, hlenp, hbest.after _ p (by omega) (by omega) hp'⟩

/-- One turn of the outer loop, while records are left. -/
theorem put_picked (h : Preorder width compar) (hwhole : Whole srcb width srcp)
    (hlen : srcp.length = nel) (hleft : live srcb width srcp ≠ []) (base : List UInt8)
    (dx : Nat) : ∃ r srcp', put srcb width compar nel (srcp, base) dx =
        some (srcp', bcopy r base (dx * width)) ∧ r.length = width ∧ srcp'.length = nel ∧
      Whole srcb width srcp' ∧
      Picked (Le width compar) (live srcb width srcp) r (live srcb width srcp') := by
  subst hlen
  unfold put
  rcases nearest_run h hwhole srcp.length with ⟨-, hnull⟩ | ⟨m, q, hmax, hbest⟩
  · obtain ⟨x, hx⟩ := List.exists_mem_of_ne_nil _ hleft
    obtain ⟨i, p, hi, hp, -⟩ := mem_live hx
    rw [hnull i hi] at hp
    cases hp
  · dsimp only
    rw [hmax]
    dsimp only
    rw [hbest.at_max]
    refine ⟨_, _, rfl, hwhole q (mem_of_getD hbest.at_max), ?_, ?_, hbest.picked hwhole⟩
    · rw [List.length_set]
    · intro p hp
      rcases List.mem_or_eq_of_mem_set hp with hp | hp
      · exact hwhole p hp
      · cases hp

/-- The turns of the outer loop from `dx` on put the rest of the records in their order behind
those before `dx`. -/
theorem put_run (h : Preorder width compar) (k dx : Nat) (base : List UInt8)
    (hbase : base.length = (dx + k) * width) (hwhole : Whole srcb width srcp)
    (hlen : srcp.length = nel) (hleft : (live srcb width srcp).length = k) :
    ∃ srcp' out, (List.range' dx k).foldlM (put srcb width compar nel) (srcp, base) =
        some (srcp', base.take (dx * width) ++ out.flatten) ∧
      (∀ r ∈ out, r.length = width) ∧ Sorts (Le width compar) (live srcb width srcp) out := by
  induction k generalizing dx base srcp with
  | zero =>
    refine ⟨srcp, [], ?_, by simp, ?_⟩
    · rw [Nat.add_zero] at hbase
      rw [List.flatten_nil, List.append_nil, List.take_of_length_le hbase.le]
      rfl
    · rw [List.length_eq_zero_iff.mp hleft]
      exact .nil
  | succ k ih =>
    have hne : live srcb width srcp ≠ [] := List.ne_nil_of_length_eq_add_one hleft
    obtain ⟨r, srcp₁, hput, hr, hlen₁, hwhole₁, hpick⟩ := put_picked h hwhole hlen hne base dx
    have hsize : dx * width + width ≤ base.length := by
      rw [hbase, ← Nat.succ_mul]
      exact Nat.mul_le_mul_right _ (by omega)
    have hbase₁ : (bcopy r base (dx * width)).length = (dx + 1 + k) * width := by
      have hcount : dx + (k + 1) = dx + 1 + k := by omega
      rw [← hcount, ← hbase]
      unfold bcopy
      simp only [List.length_append, List.length_take, List.length_drop]
      omega
    have hleft₁ : (live srcb width srcp₁).length = k := by
      have hperm := hpick.perm.length_eq
      rw [List.length_cons] at hperm
      omega
    obtain ⟨srcp', out, hrun, hout, hsorts⟩ := ih (dx + 1) _ hbase₁ hwhole₁ hlen₁ hleft₁
    refine ⟨srcp', r :: out, ?_, ?_, .cons hpick hsorts⟩
    · have htake : (bcopy r base (dx * width)).take ((dx + 1) * width) =
          base.take (dx * width) ++ r := by
        unfold bcopy
        rw [List.take_left']
        rw [List.length_append, List.length_take, hr, Nat.succ_mul]
        omega
      rw [List.range'_succ, List.foldlM_cons, hput, Option.bind_eq_bind, Option.bind_some, hrun,
        htake, List.flatten_cons, List.append_assoc]
    · intro x hx
      rcases List.mem_cons.mp hx with rfl | hx
      · exact hr
      · exact hout x hx

end

/-! ## The array in its order -/

/-- `Bsort` of a total preorder is a stable sort: the records are those of the array before, in
their order, and those that compare equal keep their places to each other. -/
theorem Bsort_stable {nel width : Nat} (t : Table nel width)
    (compar : List UInt8 → List UInt8 → Int) (h : Preorder width compar) :
    ∃ base, Bsort t compar = some base ∧ base.length = nel * width ∧
      (records base nel width).Perm (records t.base nel width) ∧
      (records base nel width).Pairwise (fun a b => compar a b ≤ 0) ∧
      ∀ r, r.length = width → (records base nel width).filter (equal compar r) =
        (records t.base nel width).filter (equal compar r) := by
  have hsrcb : t.base.take (nel * width) = t.base := List.take_of_length_le t.size_eq.le
  have hlive : live t.base width ((List.range nel).map fun sx => some (sx * width)) =
      records t.base nel width := by
    unfold live records
    rw [List.filterMap_map]
    exact congrFun List.filterMap_eq_map _
  have hwhole : Whole t.base width ((List.range nel).map fun sx => some (sx * width)) := by
    intro p hp
    obtain ⟨sx, hsx, hp⟩ := List.mem_map.mp hp
    cases hp
    exact length_recordAt t.size_eq (List.mem_range.mp hsx)
  obtain ⟨srcp', out, hrun, hout, hsorts⟩ := put_run h nel 0 t.base
    (by rw [Nat.zero_add]; exact t.size_eq) hwhole (show _ = nel by simp)
    (by rw [hlive, records_length])
  rw [hlive] at hsorts
  have hcount : out.length = nel := by
    rw [hsorts.perm.length_eq, records_length]
  have hrecords : records out.flatten nel width = out := hcount ▸ records_flatten hout
  refine ⟨out.flatten, ?_, ?_, ?_, ?_, ?_⟩
  · unfold Bsort
    dsimp only
    rw [← List.range_eq_range', Nat.zero_mul, List.take_zero, List.nil_append] at hrun
    rw [hsrcb, hrun]
    rfl
  · rw [List.length_flatten, List.map_congr_left hout, List.map_const', List.sum_replicate,
      hcount]
    rfl
  · rw [hrecords]
    exact hsorts.perm
  · rw [hrecords]
    exact hsorts.pairwise.imp fun hle => hle.2.2
  · intro r hr
    rw [hrecords]
    have hclass : ∀ l : List (List UInt8), (∀ x ∈ l, x.length = width) →
        l.filter (equal compar r) =
          l.filter fun x => decide (x.length = width) && equal compar r x := by
      intro l hl
      apply List.filter_congr
      intro x hx
      rw [decide_eq_true (hl x hx), Bool.true_and]
    rw [hclass out hout, hclass _ (length_of_mem_records t.size_eq)]
    apply hsorts.filter
    intro x y hx hy
    simp only [equal, Bool.and_eq_true, decide_eq_true_eq] at hx hy
    exact ⟨hx.1, hy.1, h.trans x r y hx.1 hr hy.1 hx.2.2 hy.2.1⟩

/-- Records are compared by their first characters. -/
def byFirst (a b : List UInt8) : Int := (a.headD 0).toNat - (b.headD 0).toNat

theorem byFirst_preorder (width : Nat) : Preorder width byFirst := by
  constructor
  · intro a b _ _
    unfold byFirst
    omega
  · intro a b c _ _ _ hab hbc
    unfold byFirst at *
    omega

/-- The records `b1`, `a1` and `b0`: `b1` stays before `b0`. -/
theorem Bsort_stable_initials :
    ∃ base, Bsort (⟨[98, 49, 97, 49, 98, 48], rfl⟩ : Table 3 2) byFirst = some base ∧
      base = [97, 49, 98, 49, 98, 48] ∧ (records base 3 2).Pairwise (fun a b => byFirst a b ≤ 0) := by
  obtain ⟨base, hsort, -, -, hpair, -⟩ :=
    Bsort_stable (⟨[98, 49, 97, 49, 98, 48], rfl⟩ : Table 3 2) byFirst (byFirst_preorder 2)
  have heval : Bsort (⟨[98, 49, 97, 49, 98, 48], rfl⟩ : Table 3 2) byFirst =
      some [97, 49, 98, 49, 98, 48] := by decide
  exact ⟨base, hsort, Option.some.inj (hsort.symm.trans heval), hpair⟩

end delegate.recsort
