-- The writers of ystring.cpp into a window of memory: what they store stays
-- in the window, except what XsetVStrEnd stores below it, and Xfgets stores
-- no more than it is asked for, except the terminator of a full read.
import Delegate.Stores

open stores

namespace delegate.vstr

/-! ## The pure model -/

abbrev Byte := UInt8

/-- The stores of a call, in order. -/
abbrev Writes := List (Int × Byte)

/-- `BASE` and `SIZE` of a `PVStr`. -/
structure Window where
  BASE : Int
  SIZE : Nat

/-- The last address of the window. It is before `BASE` if `SIZE` is 0. -/
def Window.TAIL (w : Window) : Int := w.BASE + w.SIZE - 1

/-- The bytes of a source, in the order they are read. -/
abbrev Source := Nat → Byte

/-- The bytes are those of a string. -/
def Spells (s : Source) (t : List Byte) : Prop :=
  (∀ i (h : i < t.length), s i = t[i] ∧ t[i] ≠ 0) ∧ s t.length = 0

def outofrange (w : Window) (d : Int) (z : Nat) : Bool :=
  d < w.BASE || w.TAIL < d || (z ≠ 0 && (d + z < w.BASE || w.TAIL + 1 < d + z))

/-- `memmove` and `bcopy` of `size` bytes. -/
def moved (d : Int) (s : Source) (size : Int) : Writes :=
  run d ((List.range size.toNat).map s)

def Xmemmove (w : Window) (d : Int) (s : Source) (size : Nat) : Writes :=
  if outofrange w d size then []
  else if w.TAIL + 1 < d + size then
    if w.TAIL - d < 0 then [] else moved d s (w.TAIL - d)
  else moved d s size

def Xbcopy (w : Window) (s : Source) (d : Int) (z : Nat) : Writes :=
  if outofrange w d z then []
  else moved d s (if w.TAIL + 1 < d + z then w.TAIL - d else z)

/-- A loop that copies at most `k` bytes and breaks after a zero: the bytes, and if it broke. -/
def copyLoop : Nat → Source → List Byte × Bool
  | 0, _ => ([], false)
  | k + 1, s =>
    if s 0 = 0 then ([0], true)
    else
      let r := copyLoop k fun i => s (i + 1)
      (s 0 :: r.1, r.2)

/-- After the loop a zero is stored, also if the loop stored one. -/
def XStrncpy (w : Window) (d : Int) (s : Source) (z : Nat) : Writes :=
  if outofrange w d 0 then []
  else
    let n : Int := if w.TAIL + 1 < d + z then w.TAIL - d + 1 else z
    run d ((copyLoop (n - 1).toNat s).1 ++ [0])

/-- The bytes `strncpy` stores. -/
def strncpy : Nat → Source → List Byte
  | 0, _ => []
  | k + 1, s => s 0 :: if s 0 = 0 then List.replicate k 0 else strncpy k fun i => s (i + 1)

def Xstrncpy (w : Window) (d : Int) (s : Source) (size : Nat) : Writes :=
  if outofrange w d size then []
  else
    let z := w.TAIL - d + 1
    run d (strncpy (if z < size then z else size).toNat s)

def XsetVStrEnd (w : Window) (d x : Int) : Writes :=
  if w.BASE = 0 ∧ w.SIZE = 0 then []
  else if outofrange w d 0 then [(w.TAIL, 0)]
  else if w.TAIL < d + x then [(w.TAIL, 0)]
  else [(d + x, 0)]

/-- The counter reaches `z` if the loop did not break. -/
def Xstrcpy (w : Window) (d : Int) (s : Source) : Writes :=
  if outofrange w d 0 then []
  else
    let z := w.TAIL - d + 1
    let r := copyLoop (z - 1).toNat s
    run d (r.1 ++ if r.2 then [] else [0])

/-- The first zero of the memory from `d` on is searched only for `d` in the window. -/
def Xstrcat (w : Window) (mem : Int → Byte) (d : Int) (s : Source)
    (h : outofrange w d 0 = false → ∃ n : Nat, mem (d + n) = 0) : Writes :=
  if hd : outofrange w d 0 = true then []
  else Xstrcpy w (d + Nat.find (h (Bool.eq_false_of_not_eq_true hd))) s

/-- A file, and the files pushed under it. -/
structure File where
  chars : List Byte
  pushed : List (List Byte)

/-- `getc`, and once again after `fpop_fd` at the end of a file. -/
def getc : File → Option (Byte × File)
  | ⟨ch :: chars, pushed⟩ => some (ch, ⟨chars, pushed⟩)
  | ⟨[], (ch :: chars) :: pushed⟩ => some (ch, ⟨chars, pushed⟩)
  | ⟨[], _⟩ => none

def newline : Byte := 10

/-- The loop of `Xfgets` with `n` more turns: the bytes it stores. -/
def fgetsLoop (tail : Int) : Nat → Int → File → List Byte
  | 0, _, _ => []
  | n + 1, dp, fp =>
    if tail ≤ dp then []
    else
      match getc fp with
      | none => []
      | some (ch, fp) => ch :: if ch = newline then [] else fgetsLoop tail n (dp + 1) fp

def Xfgets (w : Window) (d : Int) (siz : Nat) (fp : File) : Writes :=
  if outofrange w d 0 then []
  else if siz ≤ 1 then []
  else run d (fgetsLoop w.TAIL siz d fp ++ [0])

/-! ## The window -/

/-- The stores are in the window. -/
def Window.Keeps (w : Window) (l : Writes) : Prop := Within w.BASE w.TAIL l

/-- The address is in the window. -/
def Window.Has (w : Window) (d : Int) : Prop := w.BASE ≤ d ∧ d ≤ w.TAIL

theorem outofrange_zero (w : Window) (d : Int) : outofrange w d 0 = false ↔ w.Has d := by
  unfold outofrange Window.Has
  simp

theorem outofrange_false (w : Window) (d : Int) (z : Nat) :
    outofrange w d z = false ↔ w.Has d ∧ d + z ≤ w.TAIL + 1 := by
  unfold outofrange Window.Has
  simp only [Bool.or_eq_false_iff, Bool.and_eq_false_iff, decide_eq_false_iff_not]
  omega

/-- Either a call does nothing, or its range is in the window. -/
theorem keeps_of_inside {w : Window} {d : Int} {z : Nat} {l : Writes}
    (h : w.Has d → d + z ≤ w.TAIL + 1 → w.Keeps l) :
    w.Keeps (if outofrange w d z then [] else l) := by
  cases hd : outofrange w d z with
  | true => exact within_nil
  | false =>
    have hin := (outofrange_false w d z).mp hd
    exact h hin.1 hin.2

theorem keeps_run {w : Window} {d : Int} {l : List Byte} (hd : w.Has d)
    (hl : d + l.length ≤ w.TAIL + 1) : w.Keeps (run d l) :=
  within_run hd.1 hl

theorem keeps_moved {w : Window} {d : Int} (s : Source) {size : Int} (hd : w.Has d)
    (h : d + size.toNat ≤ w.TAIL + 1) : w.Keeps (moved d s size) := by
  apply keeps_run hd
  rw [List.length_map, List.length_range]
  exact h

theorem keeps_memmove (w : Window) (d : Int) (s : Source) (size : Nat) :
    w.Keeps (Xmemmove w d s size) := by
  apply keeps_of_inside
  intro hd hsize
  have hroom : ¬w.TAIL + 1 < d + size := by omega
  rw [if_neg hroom]
  exact keeps_moved s hd (by omega)

theorem keeps_bcopy (w : Window) (s : Source) (d : Int) (z : Nat) :
    w.Keeps (Xbcopy w s d z) := by
  apply keeps_of_inside
  intro hd hz
  have hroom : ¬w.TAIL + 1 < d + z := by omega
  rw [if_neg hroom]
  exact keeps_moved s hd (by omega)

/-! ## Copies of strings -/

theorem length_copyLoop (k : Nat) (s : Source) : (copyLoop k s).1.length ≤ k := by
  induction k generalizing s with
  | zero => exact Nat.le_refl 0
  | succ k ih =>
    rw [copyLoop]
    split
    · exact Nat.succ_le_succ (Nat.zero_le k)
    · exact Nat.succ_le_succ (ih _)

theorem length_strncpy (k : Nat) (s : Source) : (strncpy k s).length = k := by
  induction k generalizing s with
  | zero => rfl
  | succ k ih =>
    rw [strncpy, List.length_cons]
    split
    · rw [List.length_replicate]
    · rw [ih]

theorem Spells.tail {s : Source} {b : Byte} {t : List Byte} (h : Spells s (b :: t)) :
    Spells (fun i => s (i + 1)) t := by
  refine ⟨?_, h.2⟩
  intro i hi
  exact h.1 (i + 1) (Nat.succ_lt_succ hi)

theorem Spells.head {s : Source} {b : Byte} {t : List Byte} (h : Spells s (b :: t)) :
    s 0 = b ∧ b ≠ 0 := h.1 0 (Nat.zero_lt_succ _)

/-- The loop breaks if there is room for the string and its zero. -/
theorem copyLoop_spells {s : Source} {t : List Byte} (h : Spells s t) (k : Nat) :
    copyLoop k s = if t.length < k then (t ++ [0], true) else (t.take k, false) := by
  induction t generalizing s k with
  | nil =>
    cases k with
    | zero => rfl
    | succ k =>
      have hzero : s 0 = 0 := h.2
      rw [copyLoop, if_pos hzero]
      rfl
  | cons b t ih =>
    cases k with
    | zero => rfl
    | succ k =>
      obtain ⟨hb, hne⟩ := h.head
      have hs : s 0 ≠ 0 := hb ▸ hne
      have hlen : (b :: t).length < k + 1 ↔ t.length < k := by simp
      rw [copyLoop, if_neg hs, ih h.tail k, hb]
      by_cases hk : t.length < k
      · rw [if_pos hk, if_pos (hlen.mpr hk)]
        rfl
      · rw [if_neg hk, if_neg (mt hlen.mp hk)]
        rfl

/-- What is stored begins with the string as far as there is room, and a zero. -/
theorem copied_spells {s : Source} {t : List Byte} (h : Spells s t) (k : Nat) :
    t.take k ++ [0] <+: (copyLoop k s).1 ++ [0] ∧
      t.take k ++ [0] <+: (copyLoop k s).1 ++ (if (copyLoop k s).2 then [] else [0]) := by
  rw [copyLoop_spells h k]
  by_cases hk : t.length < k
  · rw [if_pos hk, List.take_of_length_le (Nat.le_of_lt hk)]
    exact ⟨List.prefix_append _ _, List.prefix_append _ _⟩
  · rw [if_neg hk]
    exact ⟨List.prefix_rfl, List.prefix_rfl⟩

theorem keeps_strncpy (w : Window) (d : Int) (s : Source) (z : Nat) :
    w.Keeps (XStrncpy w d s z) := by
  apply keeps_of_inside
  intro hd _
  apply keeps_run hd
  have hn : (if w.TAIL + 1 < d + z then w.TAIL - d + 1 else z : Int) ≤ w.TAIL - d + 1 := by
    split <;> omega
  have hlen := length_copyLoop
    ((if w.TAIL + 1 < d + z then w.TAIL - d + 1 else z : Int) - 1).toNat s
  have htail := hd.2
  rw [List.length_append, List.length_singleton]
  omega

theorem keeps_strncpy_padded (w : Window) (d : Int) (s : Source) (size : Nat) :
    w.Keeps (Xstrncpy w d s size) := by
  apply keeps_of_inside
  intro hd hsize
  apply keeps_run hd
  have hroom : ¬w.TAIL - d + 1 < size := by omega
  rw [length_strncpy, if_neg hroom]
  omega

theorem keeps_strcpy (w : Window) (d : Int) (s : Source) : w.Keeps (Xstrcpy w d s) := by
  apply keeps_of_inside
  intro hd _
  apply keeps_run hd
  have hlen := length_copyLoop (w.TAIL - d + 1 - 1).toNat s
  have hend : (if (copyLoop (w.TAIL - d + 1 - 1).toNat s).2 then []
      else [(0 : Byte)]).length ≤ 1 := by
    split <;> decide
  have htail := hd.2
  rw [List.length_append]
  omega

theorem keeps_strcat (w : Window) (mem : Int → Byte) (d : Int) (s : Source)
    (h : outofrange w d 0 = false → ∃ n : Nat, mem (d + n) = 0) :
    w.Keeps (Xstrcat w mem d s h) := by
  unfold Xstrcat
  split
  · exact within_nil
  · exact keeps_strcpy w _ s

/-- The memory holds the string and a zero after it. -/
def HoldsStr (mem : Int → Byte) (d : Int) (t : List Byte) : Prop := Holds mem d (t ++ [0])

theorem holds_of_isPrefix {mem : Int → Byte} {d : Int} {a l : List Byte} (h : a <+: l) :
    Holds (after mem (run d l)) d a := by
  obtain ⟨b, rfl⟩ := h
  exact (holds_after_run mem d (a ++ b)).left

/-- `XStrncpy` leaves as much of the string as there is room for in `z` bytes and in the window. -/
theorem holds_strncpy (w : Window) (mem : Int → Byte) {d : Int} (hd : w.Has d) {s : Source}
    {t : List Byte} (hs : Spells s t) (z : Nat) :
    HoldsStr (after mem (XStrncpy w d s z)) d (t.take (min (w.TAIL - d + 1).toNat z - 1)) := by
  have hin := (outofrange_zero w d).mpr hd
  have htail := hd.2
  have hk : ((if w.TAIL + 1 < d + z then w.TAIL - d + 1 else z : Int) - 1).toNat =
      min (w.TAIL - d + 1).toNat z - 1 := by
    split <;> omega
  unfold XStrncpy HoldsStr
  dsimp only
  rw [hin, if_neg Bool.false_ne_true, hk]
  exact holds_of_isPrefix (copied_spells hs _).1

/-- `Xstrcpy` leaves as much of the string as there is room for in the window. -/
theorem holds_strcpy (w : Window) (mem : Int → Byte) {d : Int} (hd : w.Has d) {s : Source}
    {t : List Byte} (hs : Spells s t) :
    HoldsStr (after mem (Xstrcpy w d s)) d (t.take ((w.TAIL - d + 1).toNat - 1)) := by
  have hin := (outofrange_zero w d).mpr hd
  have hk : (w.TAIL - d + 1 - 1).toNat = (w.TAIL - d + 1).toNat - 1 := by omega
  unfold Xstrcpy HoldsStr
  dsimp only
  rw [hin, if_neg Bool.false_ne_true, hk]
  exact holds_of_isPrefix (copied_spells hs _).2

/-! ## The end of a string -/

/-- When `XsetVStrEnd` stores in the window: the window is not empty, and the index does not go
below it. -/
def EndInside (w : Window) (d x : Int) : Prop :=
  (w.BASE = 0 ∧ w.SIZE = 0) ∨ (w.SIZE ≠ 0 ∧ (w.Has d → w.BASE ≤ d + x))

theorem keeps_setVStrEnd (w : Window) (d x : Int) :
    w.Keeps (XsetVStrEnd w d x) ↔ EndInside w d x := by
  have htail : w.TAIL = w.BASE + w.SIZE - 1 := rfl
  unfold XsetVStrEnd EndInside
  by_cases hnone : w.BASE = 0 ∧ w.SIZE = 0
  · rw [if_pos hnone]
    exact ⟨fun _ => .inl hnone, fun _ => within_nil⟩
  rw [if_neg hnone]
  by_cases hd : w.Has d
  · have hsize : w.SIZE ≠ 0 := by
      intro h0
      have := hd.1
      have := hd.2
      omega
    rw [(outofrange_zero w d).mpr hd, if_neg Bool.false_ne_true]
    by_cases hx : w.TAIL < d + x
    · have hbase : w.BASE ≤ d + x := by
        have := hd.1
        have := hd.2
        omega
      rw [if_pos hx]
      exact ⟨fun _ => .inr ⟨hsize, fun _ => hbase⟩,
        fun _ => within_single.mpr ⟨by omega, le_refl _⟩⟩
    · rw [if_neg hx]
      constructor
      · intro h
        exact .inr ⟨hsize, fun _ => (within_single.mp h).1⟩
      · rintro (h | ⟨-, h⟩)
        · exact absurd h hnone
        · exact within_single.mpr ⟨h hd, by omega⟩
  · have hout : outofrange w d 0 = true :=
      Bool.eq_true_of_not_eq_false (mt (outofrange_zero w d).mp hd)
    rw [if_pos hout]
    constructor
    · intro h
      have hle := (within_single.mp h).1
      exact .inr ⟨by omega, fun h' => absurd h' hd⟩
    · rintro (h | ⟨h, -⟩)
      · exact absurd h hnone
      · exact within_single.mpr ⟨by omega, le_refl _⟩

/-! ## Lines of a file -/

/-- `n` bytes can be read from the file, and only the last one may be a newline. -/
def Fills : File → Nat → Prop
  | _, 0 => True
  | fp, n + 1 => ∃ ch fp', getc fp = some (ch, fp') ∧ (ch = newline → n = 0) ∧ Fills fp' n

theorem length_fgetsLoop (tail : Int) (n : Nat) (dp : Int) (fp : File) (h : dp ≤ tail) :
    (fgetsLoop tail n dp fp).length ≤ n ∧ dp + (fgetsLoop tail n dp fp).length ≤ tail := by
  induction n generalizing dp fp with
  | zero => exact ⟨Nat.le_refl 0, by simpa [fgetsLoop] using h⟩
  | succ n ih =>
    rw [fgetsLoop]
    by_cases hdp : tail ≤ dp
    · rw [if_pos hdp]
      exact ⟨Nat.zero_le _, by simpa using h⟩
    rw [if_neg hdp]
    cases getc fp with
    | none => exact ⟨Nat.zero_le _, by simpa using h⟩
    | some r =>
      have hr := ih (dp + 1) r.2 (by omega)
      dsimp only
      rw [List.length_cons]
      split
      · exact ⟨by simp, by simp; omega⟩
      · exact ⟨by omega, by push_cast; omega⟩

/-- The loop makes all its turns if the window and the file are long enough. -/
theorem fgetsLoop_full (tail : Int) (n : Nat) (dp : Int) (fp : File) :
    (fgetsLoop tail n dp fp).length = n ↔ (n = 0 ∨ dp + n ≤ tail) ∧ Fills fp n := by
  induction n generalizing dp fp with
  | zero => simp [fgetsLoop, Fills]
  | succ n ih =>
    rw [fgetsLoop, Fills]
    by_cases hdp : tail ≤ dp
    · rw [if_pos hdp]
      constructor
      · intro h
        exact absurd h.symm (Nat.succ_ne_zero n)
      · rintro ⟨h, -⟩
        omega
    rw [if_neg hdp]
    cases hget : getc fp with
    | none => simp
    | some r =>
      obtain ⟨ch, fp'⟩ := r
      have hone : (∃ c f, some (ch, fp') = some (c, f) ∧ (c = newline → n = 0) ∧ Fills f n) ↔
          (ch = newline → n = 0) ∧ Fills fp' n := by
        constructor
        · rintro ⟨c, f, hcf, h⟩
          obtain ⟨rfl, rfl⟩ := Prod.mk.inj (Option.some.inj hcf)
          exact h
        · intro h
          exact ⟨ch, fp', rfl, h⟩
      dsimp only
      rw [hone, List.length_cons]
      by_cases hch : ch = newline
      · rw [if_pos hch]
        constructor
        · intro h
          have hn : n = 0 := (Nat.succ.inj h).symm
          subst hn
          exact ⟨by omega, fun _ => rfl, trivial⟩
        · rintro ⟨-, h, -⟩
          rw [h hch]
          rfl
      · rw [if_neg hch, Nat.succ_inj, ih]
        constructor
        · rintro ⟨hroom, hfill⟩
          exact ⟨by omega, fun h => absurd h hch, hfill⟩
        · rintro ⟨hroom, -, hfill⟩
          exact ⟨by omega, hfill⟩

theorem keeps_fgets (w : Window) (d : Int) (siz : Nat) (fp : File) :
    w.Keeps (Xfgets w d siz fp) := by
  apply keeps_of_inside
  intro hd _
  split
  · exact within_nil
  · apply keeps_run hd
    have hlen := length_fgetsLoop w.TAIL siz d fp hd.2
    rw [List.length_append, List.length_singleton]
    push_cast
    omega

/-- A full read: `siz` bytes fit before the last one of the window, and the file gives them without
a newline before the last one. -/
def FullRead (w : Window) (d : Int) (siz : Nat) (fp : File) : Prop :=
  w.Has d ∧ 1 < siz ∧ d + siz ≤ w.TAIL ∧ Fills fp siz

theorem length_fgets (w : Window) (d : Int) (siz : Nat) (fp : File) :
    (Xfgets w d siz fp).length ≤ siz ↔ ¬FullRead w d siz fp := by
  unfold Xfgets FullRead
  by_cases hd : w.Has d
  · rw [(outofrange_zero w d).mpr hd, if_neg Bool.false_ne_true]
    by_cases hsiz : siz ≤ 1
    · rw [if_pos hsiz]
      exact ⟨fun _ h => absurd h.2.1 (Nat.not_lt.mpr hsiz), fun _ => Nat.zero_le siz⟩
    · have hlen := (length_fgetsLoop w.TAIL siz d fp hd.2).1
      have hfull := fgetsLoop_full w.TAIL siz d fp
      rw [if_neg hsiz, length_run, List.length_append, List.length_singleton]
      constructor
      · rintro hle ⟨-, -, hroom, hfill⟩
        have := hfull.mpr ⟨.inr hroom, hfill⟩
        omega
      · intro hno
        apply Nat.lt_of_le_of_ne hlen
        intro heq
        obtain ⟨hroom, hfill⟩ := hfull.mp heq
        exact hno ⟨hd, by omega, by omega, hfill⟩
  · have hout : outofrange w d 0 = true :=
      Bool.eq_true_of_not_eq_false (mt (outofrange_zero w d).mp hd)
    rw [if_pos hout]
    exact ⟨fun _ h => hd h.1, fun _ => Nat.zero_le siz⟩

/-! ## All writers -/

/-- What is asked of the writers at given arguments. -/
structure Bounded (w : Window) (mem : Int → Byte) (d : Int) (s : Source) (size : Nat) (x : Int)
    (siz : Nat) (fp : File) : Prop where
  memmove : w.Keeps (Xmemmove w d s size)
  bcopy : w.Keeps (Xbcopy w s d size)
  strncpy : w.Keeps (XStrncpy w d s size)
  padded : w.Keeps (Xstrncpy w d s size)
  setEnd : w.Keeps (XsetVStrEnd w d x)
  strcpy : w.Keeps (Xstrcpy w d s)
  strcat : ∀ h : outofrange w d 0 = false → ∃ n : Nat, mem (d + n) = 0 ∧ d + n ≤ w.TAIL,
    w.Keeps (Xstrcat w mem d s fun hd => (h hd).imp fun _ hn => hn.1)
  fgets : w.Keeps (Xfgets w d siz fp)
  strncpyHolds : w.Has d → ∀ t, Spells s t →
    HoldsStr (after mem (XStrncpy w d s size)) d (t.take (min (w.TAIL - d + 1).toNat size - 1))
  strcpyHolds : w.Has d → ∀ t, Spells s t →
    HoldsStr (after mem (Xstrcpy w d s)) d (t.take ((w.TAIL - d + 1).toNat - 1))
  fgetsCount : (Xfgets w d siz fp).length ≤ siz

/-- The writers are bounded except for an end below the window and for a full read. -/
theorem bounded_iff (w : Window) (mem : Int → Byte) (d : Int) (s : Source) (size : Nat) (x : Int)
    (siz : Nat) (fp : File) :
    Bounded w mem d s size x siz fp ↔ EndInside w d x ∧ ¬FullRead w d siz fp := by
  constructor
  · intro h
    exact ⟨(keeps_setVStrEnd w d x).mp h.setEnd, (length_fgets w d siz fp).mp h.fgetsCount⟩
  · rintro ⟨hend, hread⟩
    exact {
      memmove := keeps_memmove w d s size
      bcopy := keeps_bcopy w s d size
      strncpy := keeps_strncpy w d s size
      padded := keeps_strncpy_padded w d s size
      setEnd := (keeps_setVStrEnd w d x).mpr hend
      strcpy := keeps_strcpy w d s
      strcat := fun _ => keeps_strcat w mem d s _
      fgets := keeps_fgets w d siz fp
      strncpyHolds := fun hd _ hs => holds_strncpy w mem hd hs size
      strcpyHolds := fun hd _ hs => holds_strcpy w mem hd hs
      fgetsCount := (length_fgets w d siz fp).mpr hread }

/-- An index of -1 at the start of a window, and a read of two bytes of a line of three. -/
theorem end_below_and_full_read :
    ¬Bounded ⟨100, 8⟩ (fun _ => 0) 100 (fun _ => 0) 0 (-1) 0 ⟨[], []⟩ ∧
      ¬Bounded ⟨100, 8⟩ (fun _ => 0) 100 (fun _ => 0) 0 0 2 ⟨[97, 98, 99, 10], []⟩ ∧
      XsetVStrEnd ⟨100, 8⟩ 100 (-1) = [(99, 0)] ∧
      Xfgets ⟨100, 8⟩ 100 2 ⟨[97, 98, 99, 10], []⟩ = [(100, 97), (101, 98), (102, 0)] := by
  have hend : XsetVStrEnd ⟨100, 8⟩ 100 (-1) = [(99, 0)] := by decide
  have hread : Xfgets ⟨100, 8⟩ 100 2 ⟨[97, 98, 99, 10], []⟩ =
      [(100, 97), (101, 98), (102, 0)] := by decide
  refine ⟨?_, ?_, hend, hread⟩
  · intro h
    have hkeeps := h.setEnd
    rw [hend] at hkeeps
    exact absurd (within_single.mp hkeeps).1 (by decide)
  · intro h
    have hcount := h.fgetsCount
    rw [hread] at hcount
    exact absurd hcount (by decide)

end delegate.vstr
