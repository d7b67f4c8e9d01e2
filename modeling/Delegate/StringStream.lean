-- A string read as a stream (rary/str_stdio.cpp). str_fgets looks for the end
-- of the line after it has limited the size to that of the buffer, so the
-- lines that fill the buffer lose their bytes; the others are read as they are.
import Delegate.LineText
import Delegate.VStr

open stores linetext delegate.vstr

namespace delegate.strstdio

/-! ## The pure model -/

/-- A string that is read as a stream: its bytes, and the position in it. -/
structure StrHead where
  sh_base : List Byte
  sh_peak : Nat
  deriving DecidableEq

/-- `s_size` -/
def StrHead.sh_size (s : StrHead) : Nat := s.sh_base.length

/-- The bytes from the position on. -/
def StrHead.top (s : StrHead) : List Byte := s.sh_base.drop s.sh_peak

/-- The byte, and the stream after it; `none` is `EOF`. -/
def str_fgetc (s : StrHead) : Option Byte × StrHead :=
  match s.top with
  | [] => (none, s)
  | ch :: _ => (some ch, { s with sh_peak := s.sh_peak + 1 })

/-- The byte in the string is read as a `char`, which has a sign, so that it is stored again when it
is above 127. -/
def str_fungetc (ch : Byte) (s : StrHead) : Option Byte × StrHead :=
  if s.sh_peak = 0 then (none, s)
  else
    let peak := s.sh_peak - 1
    let pch : Int := ((s.sh_base.getD peak 0).toInt8).toInt
    let base := if pch ≠ ch.toNat then s.sh_base.set peak ch else s.sh_base
    (some ch, ⟨base, peak⟩)

/-- `setVStrEnd(p,x)` -/
def setVStrEnd (w : Window) (p x : Int) : Writes :=
  if 0 < w.SIZE ∧ w.BASE ≤ p + x ∧ p + x ≤ w.TAIL then [(p + x, 0)] else XsetVStrEnd w p x

/-- How many bytes `str_fgets` takes. The size is limited to what remains, and is then set to the
length of the line if there is a newline in what remains. -/
def fgetsSize (top : List Byte) (size : Nat) : Nat :=
  let rsize := top.length
  let size := if rsize < size then rsize else size
  match top.findIdx? (· == newline) with
  | some nlx => nlx + 1
  | none => size

/-- The stores into the buffer, and the stream afterwards; without stores, the result is `NULL`. -/
def str_fgets (w : Window) (buf : Int) (size : Nat) (s : StrHead) : Option Writes × StrHead :=
  if s.top.length = 0 then (none, s)
  else
    let size := fgetsSize s.top size
    (some (Xstrncpy w buf (fun i => s.top.getD i 0) size ++ setVStrEnd w buf size),
      { s with sh_peak := s.sh_peak + size })

/-- A call of `str_fgets`: the address and the size of the buffer, and the memory before it. -/
structure Call where
  buf : Int
  siz : Nat
  mem : Int → Byte
  two_le : 2 ≤ siz

/-- The buffer is all of the window. -/
def Call.window (c : Call) : Window := ⟨c.buf, c.siz⟩

/-- The string in a buffer of `siz` bytes. -/
def textIn (mem : Int → Byte) (buf : Int) (siz : Nat) : List Byte :=
  ((List.range siz).map fun (i : Nat) => mem (buf + i)).takeWhile (· ≠ 0)

/-- A call that did not return `NULL`. -/
structure Got where
  call : Call
  writes : Writes

/-- The string that a call left in its buffer. -/
def Got.text (g : Got) : List Byte := textIn (after g.call.mem g.writes) g.call.buf g.call.siz

/-- Calls until one returns `NULL`: those before it, the stream afterwards, and if there was one. -/
def fgetsAll (s : StrHead) : List Call → List Got × StrHead × Bool
  | [] => ([], s, false)
  | c :: calls =>
    match str_fgets c.window c.buf c.siz s with
    | (none, s) => ([], s, true)
    | (some writes, s) =>
      let r := fgetsAll s calls
      (⟨c, writes⟩ :: r.1, r.2)

/-! ## A string in a buffer -/

theorem after_append (mem : Int → Byte) (a b : Writes) :
    after mem (a ++ b) = after (after mem a) b := by
  unfold after
  rw [List.foldl_append]

theorem textIn_of_holds {mem : Int → Byte} {buf : Int} {siz : Nat} {t : List Byte}
    (h : HoldsStr mem buf t) (hnul : (0 : Byte) ∉ t) (hlen : t.length < siz) :
    textIn mem buf siz = t := by
  obtain ⟨m, rfl⟩ : ∃ m, siz = t.length + (1 + m) := ⟨siz - t.length - 1, by omega⟩
  have htext := h.left.map_range
  have hzero : mem (buf + t.length) = 0 := by
    have hend := h t.length (by simp)
    rwa [List.getElem_append_right (Nat.le_refl _), List.getElem_singleton] at hend
  have hall : ∀ b ∈ t, decide (b ≠ 0) = true := by
    intro b hb
    exact decide_eq_true fun h0 => hnul (h0 ▸ hb)
  unfold textIn
  rw [List.range_add, List.map_append, htext, List.takeWhile_append_of_pos hall, Nat.add_comm 1 m,
    List.range_succ_eq_map, List.map_cons, List.map_cons, Nat.add_zero, hzero]
  simp

/-- A buffer with a zero at its end holds a shorter string. -/
theorem length_textIn {mem : Int → Byte} {buf : Int} {n : Nat} (h : mem (buf + n) = 0) :
    (textIn mem buf (n + 1)).length ≤ n := by
  unfold textIn
  rw [List.range_succ, List.map_append, List.map_singleton, h, List.takeWhile_append]
  split
  · simp
  · exact (List.takeWhile_prefix _).length_le.trans (by simp)

theorem strncpy_take {cs : List Byte} (hnul : (0 : Byte) ∉ cs) {k : Nat} (hk : k ≤ cs.length) :
    strncpy k (fun i => cs.getD i 0) = cs.take k := by
  induction k generalizing cs with
  | zero => rfl
  | succ k ih =>
    cases cs with
    | nil => simp at hk
    | cons c cs =>
      rw [List.mem_cons, not_or] at hnul
      have hc : ¬(c :: cs).getD 0 0 = 0 := fun h0 => hnul.1 (Eq.symm h0)
      rw [strncpy, if_neg hc, List.take_succ_cons]
      congr 1
      exact ih hnul.2 (Nat.succ_le_succ_iff.mp hk)

/-! ## One call -/

section
variable {w : Window} {s : StrHead} {c : Call}

theorem fgetsSize_lt_iff (top : List Byte) (size : Nat) :
    fgetsSize top size < size ↔ (first newline top).length < size := by
  rw [length_first]
  unfold fgetsSize
  cases top.findIdx? (· == newline) with
  | some nlx => rfl
  | none =>
    simp only [Option.map_none, Option.getD_none]
    split <;> omega

theorem fgetsSize_of_lt {top : List Byte} {size : Nat} (h : (first newline top).length < size) :
    fgetsSize top size = (first newline top).length := by
  rw [length_first] at h ⊢
  unfold fgetsSize
  cases hfind : top.findIdx? (· == newline) with
  | some nlx => rfl
  | none =>
    rw [hfind] at h
    exact if_pos h

theorem fgetsSize_le (top : List Byte) (size : Nat) : fgetsSize top size ≤ top.length := by
  unfold fgetsSize
  cases hfind : top.findIdx? (· == newline) with
  | some nlx =>
    obtain ⟨hlt, -⟩ := List.findIdx?_eq_some_iff_getElem.mp hfind
    exact hlt
  | none =>
    dsimp only
    split <;> omega

theorem str_fgets_some {writes : Writes} {s' : StrHead}
    (h : str_fgets w c.buf c.siz s = (some writes, s')) :
    s.top ≠ [] ∧ s' = { s with sh_peak := s.sh_peak + fgetsSize s.top c.siz } ∧
      writes = Xstrncpy w c.buf (fun i => s.top.getD i 0) (fgetsSize s.top c.siz) ++
        setVStrEnd w c.buf (fgetsSize s.top c.siz) := by
  unfold str_fgets at h
  by_cases hlen : s.top.length = 0
  · rw [if_pos hlen] at h
    cases h
  · rw [if_neg hlen] at h
    simp only [Prod.mk.injEq, Option.some.injEq] at h
    exact ⟨fun hnil => hlen (List.length_eq_zero_iff.mpr hnil), h.2.symm, h.1.symm⟩

theorem Call.has (c : Call) : c.window.Has c.buf := by
  have htwo := c.two_le
  have htail : c.window.TAIL = c.buf + c.siz - 1 := rfl
  exact ⟨Int.le_refl _, by omega⟩

/-- What fits in the buffer is stored there, with a zero after it. -/
theorem holds_fitting {k : Nat} {cs : List Byte} (hnul : (0 : Byte) ∉ cs) (hcs : k ≤ cs.length)
    (hk : k < c.siz) :
    HoldsStr (after c.mem (Xstrncpy c.window c.buf (fun i => cs.getD i 0) k ++
      setVStrEnd c.window c.buf k)) c.buf (cs.take k) := by
  have htail : c.window.TAIL = c.buf + c.siz - 1 := rfl
  have hbase : c.window.BASE = c.buf := rfl
  have hsize : c.window.SIZE = c.siz := rfl
  have hin : outofrange c.window c.buf k = false := by
    apply (outofrange_false _ _ _).mpr
    exact ⟨c.has, by omega⟩
  have hroom : ¬c.window.TAIL - c.buf + 1 < k := by omega
  have hcopy : Xstrncpy c.window c.buf (fun i => cs.getD i 0) k = run c.buf (cs.take k) := by
    unfold Xstrncpy
    rw [hin, if_neg Bool.false_ne_true]
    dsimp only
    rw [if_neg hroom, Int.toNat_natCast, strncpy_take hnul hcs]
  have hend : setVStrEnd c.window c.buf k = [(c.buf + k, 0)] := if_pos ⟨by omega, by omega, by omega⟩
  have hlen : (cs.take k).length = k := List.length_take_of_le hcs
  rw [hcopy, hend, after_append]
  intro i hi
  rw [List.length_append, hlen, List.length_singleton] at hi
  show Function.update _ (c.buf + k) 0 (c.buf + i) = _
  by_cases hik : i < k
  · have hne : c.buf + (i : Int) ≠ c.buf + k := by omega
    rw [Function.update_of_ne hne, List.getElem_append_left (by omega)]
    exact holds_after_run c.mem c.buf (cs.take k) i (by omega)
  · obtain rfl : i = k := by omega
    rw [Function.update_self, List.getElem_append_right (by omega), List.getElem_singleton]

/-- A line shorter than the buffer is left there. -/
theorem text_short (hnul : (0 : Byte) ∉ s.top) (h : (first newline s.top).length < c.siz)
    {writes : Writes} {s' : StrHead} (hget : str_fgets c.window c.buf c.siz s = (some writes, s')) :
    Got.text ⟨c, writes⟩ = first newline s.top := by
  obtain ⟨-, -, rfl⟩ := str_fgets_some hget
  have htake : s.top.take (first newline s.top).length = first newline s.top := by
    have hall := @first_append_rest Byte _ newline s.top
    exact (congrArg _ hall).symm.trans List.take_left
  have hle : (first newline s.top).length ≤ s.top.length := by
    rw [← fgetsSize_of_lt h]
    exact fgetsSize_le _ _
  have hholds := holds_fitting hnul hle h
  rw [htake] at hholds
  rw [← fgetsSize_of_lt h] at hholds
  apply textIn_of_holds hholds
  · intro hmem
    apply hnul
    rw [← @first_append_rest Byte _ newline s.top]
    exact List.mem_append_left _ hmem
  · exact h

/-- A line that fills the buffer loses at least one byte. -/
theorem text_long (h : c.siz ≤ (first newline s.top).length) {writes : Writes} {s' : StrHead}
    (hget : str_fgets c.window c.buf c.siz s = (some writes, s')) :
    (Got.text ⟨c, writes⟩).length < fgetsSize s.top c.siz := by
  obtain ⟨-, -, rfl⟩ := str_fgets_some hget
  have htwo := c.two_le
  have htail : c.window.TAIL = c.buf + c.siz - 1 := rfl
  have hsize : c.window.SIZE = c.siz := rfl
  have hk : c.siz ≤ fgetsSize s.top c.siz := by
    have := (fgetsSize_lt_iff s.top c.siz).not.mpr (by omega)
    omega
  have hend : setVStrEnd c.window c.buf (fgetsSize s.top c.siz) = [(c.buf + (c.siz - 1 : Nat), 0)] := by
    unfold setVStrEnd XsetVStrEnd
    rw [if_neg (by omega), if_neg (by omega), (outofrange_zero _ _).mpr c.has,
      if_neg Bool.false_ne_true, if_pos (by omega), htail]
    congr 2
    omega
  have hzero : ∀ mem : Int → Byte, after mem (setVStrEnd c.window c.buf (fgetsSize s.top c.siz))
      (c.buf + (c.siz - 1 : Nat)) = 0 := by
    intro mem
    rw [hend]
    exact Function.update_self _ _ _
  have hlen := length_textIn (hzero (after c.mem (Xstrncpy c.window c.buf
    (fun i => s.top.getD i 0) (fgetsSize s.top c.siz))))
  rw [← after_append, Nat.sub_add_cancel (by omega)] at hlen
  exact Nat.lt_of_le_of_lt hlen (by omega)

/-- All stores of a call are in its buffer. -/
theorem keeps_str_fgets {writes : Writes} {s' : StrHead}
    (hget : str_fgets c.window c.buf c.siz s = (some writes, s')) : c.window.Keeps writes := by
  obtain ⟨-, -, rfl⟩ := str_fgets_some hget
  have htwo := c.two_le
  have hbase : c.window.BASE = c.buf := rfl
  have hsize : c.window.SIZE = c.siz := rfl
  have hend : c.window.Keeps (setVStrEnd c.window c.buf (fgetsSize s.top c.siz)) := by
    unfold setVStrEnd
    split
    · rename_i hok
      exact within_single.mpr ⟨hok.2.1, hok.2.2⟩
    · exact (keeps_setVStrEnd _ _ _).mpr (.inr ⟨by omega, fun _ => by omega⟩)
  intro e he
  rcases List.mem_append.mp he with he | he
  · exact keeps_strncpy_padded _ _ _ _ e he
  · exact hend e he

end

/-! ## A byte pushed back -/

theorem str_fungetc_fgetc {s s' : StrHead} {b : Byte} (h : str_fgetc s = (some b, s')) :
    str_fungetc b s' = (some b, s) := by
  unfold str_fgetc at h
  cases htop : s.top with
  | nil =>
    rw [htop] at h
    cases h
  | cons ch cs =>
    rw [htop] at h
    simp only [Prod.mk.injEq, Option.some.injEq] at h
    obtain ⟨rfl, rfl⟩ := h
    have hget : s.sh_base[s.sh_peak]? = some ch := by
      have hhead := congrArg List.head? htop
      rwa [StrHead.top, List.head?_drop] at hhead
    have hset : s.sh_base.set s.sh_peak ch = s.sh_base := by
      obtain ⟨hlt, hch⟩ := List.getElem?_eq_some_iff.mp hget
      rw [← hch]
      exact List.set_getElem_self hlt
    unfold str_fungetc
    simp only [Nat.add_one_ne_zero, if_false, Nat.add_sub_cancel, hset, ite_self]

/-! ## All calls -/

theorem fgetsAll_nil {s : StrHead} (h : s.top = []) (c : Call) (calls : List Call) :
    fgetsAll s (c :: calls) = ([], s, true) := by
  have hnone : str_fgets c.window c.buf c.siz s = (none, s) := if_pos (by rw [h]; rfl)
  rw [fgetsAll, hnone]

theorem exists_fgets {s : StrHead} (h : s.top ≠ []) (c : Call) :
    ∃ writes, str_fgets c.window c.buf c.siz s =
      (some writes, { s with sh_peak := s.sh_peak + fgetsSize s.top c.siz }) :=
  ⟨_, if_neg (mt List.length_eq_zero_iff.mp h)⟩

/-- The stream is read as it is if each line is shorter than its buffer. -/
theorem fgetsAll_fit (calls : List Call) (s : StrHead) (hnul : (0 : Byte) ∉ s.top)
    (h : ∀ p ∈ (split newline s.top).zip calls, p.1.length < p.2.siz) :
    (∀ g ∈ (fgetsAll s calls).1, newline ∉ g.text.dropLast ∧ g.text.length < g.call.siz) ∧
      (fgetsAll s calls).2.1.sh_base = s.sh_base ∧
      s.top = (fgetsAll s calls).1.flatMap Got.text ++ (fgetsAll s calls).2.1.top ∧
      ((fgetsAll s calls).2.2 = true → (fgetsAll s calls).2.1.top = []) := by
  induction calls generalizing s with
  | nil => exact ⟨fun g hg => absurd hg List.not_mem_nil, rfl, rfl, fun h => by cases h⟩
  | cons c calls ih =>
    by_cases htop : s.top = []
    · rw [fgetsAll_nil htop]
      exact ⟨fun g hg => absurd hg List.not_mem_nil, rfl, rfl, fun _ => htop⟩
    · obtain ⟨writes, hget⟩ := exists_fgets htop c
      have hall := @first_append_rest Byte _ newline s.top
      rw [split_of_ne htop, List.zip_cons_cons] at h
      have hshort : (first newline s.top).length < c.siz := h _ List.mem_cons_self
      have htext := text_short hnul hshort hget
      have hrest : StrHead.top { s with sh_peak := s.sh_peak + fgetsSize s.top c.siz } =
          rest newline s.top := by
        rw [fgetsSize_of_lt hshort, StrHead.top, ← List.drop_drop]
        exact (congrArg _ hall).symm.trans List.drop_left
      obtain ⟨hline, hbase, hread, hend⟩ := ih _ (by
        rw [hrest]
        exact fun hmem => hnul (hall ▸ List.mem_append_right _ hmem)) (by
        rw [hrest]
        exact fun p hp => h p (List.mem_cons_of_mem _ hp))
      rw [fgetsAll, hget]
      dsimp only
      refine ⟨?_, hbase, ?_, hend⟩
      · intro g hg
        rcases List.mem_cons.mp hg with rfl | hg
        · rw [htext]
          exact ⟨first_dropLast _, hshort⟩
        · exact hline g hg
      · rw [List.flatMap_cons, htext, List.append_assoc, ← hread, hrest, hall]

/-- Bytes are never gained, and some are lost if a line fills its buffer. -/
theorem fgetsAll_length (calls : List Call) (s : StrHead) (hnul : (0 : Byte) ∉ s.top)
    (hpeak : s.sh_peak ≤ s.sh_size) :
    (fgetsAll s calls).2.1.sh_peak ≤ s.sh_size ∧
      ((fgetsAll s calls).1.flatMap Got.text).length + s.sh_peak ≤ (fgetsAll s calls).2.1.sh_peak ∧
      (¬(∀ p ∈ (split newline s.top).zip calls, p.1.length < p.2.siz) →
        ((fgetsAll s calls).1.flatMap Got.text).length + s.sh_peak <
          (fgetsAll s calls).2.1.sh_peak) := by
  induction calls generalizing s with
  | nil =>
    refine ⟨hpeak, by simp [fgetsAll], ?_⟩
    intro hlost
    exact absurd (fun p hp => by simp at hp) hlost
  | cons c calls ih =>
    by_cases htop : s.top = []
    · rw [fgetsAll_nil htop]
      refine ⟨hpeak, by simp, ?_⟩
      intro hlost
      rw [htop] at hlost
      exact absurd (fun p hp => by simp [split] at hp) hlost
    · obtain ⟨writes, hget⟩ := exists_fgets htop c
      have hall := @first_append_rest Byte _ newline s.top
      have hle := fgetsSize_le s.top c.siz
      have hlen : s.top.length = s.sh_size - s.sh_peak := List.length_drop
      have hdrop : StrHead.top { s with sh_peak := s.sh_peak + fgetsSize s.top c.siz } =
          s.top.drop (fgetsSize s.top c.siz) := List.drop_drop.symm
      obtain ⟨hsize, hmore, hlost⟩ := ih { s with sh_peak := s.sh_peak + fgetsSize s.top c.siz }
        (by
          rw [hdrop]
          exact fun hmem => hnul (List.mem_of_mem_drop hmem))
        (by
          show s.sh_peak + fgetsSize s.top c.siz ≤ s.sh_size
          omega)
      rw [fgetsAll, hget]
      dsimp only at hsize hmore hlost ⊢
      rw [List.flatMap_cons, List.length_append, split_of_ne htop, List.zip_cons_cons,
        List.forall_mem_cons]
      by_cases hshort : (first newline s.top).length < c.siz
      · have htext := text_short hnul hshort hget
        have hfirst := fgetsSize_of_lt hshort
        have hrest : s.top.drop (fgetsSize s.top c.siz) = rest newline s.top := by
          rw [hfirst]
          exact (congrArg _ hall).symm.trans List.drop_left
        rw [hdrop, hrest] at hlost
        rw [htext]
        refine ⟨hsize, by omega, ?_⟩
        intro hnot
        have := hlost fun hfit => hnot ⟨hshort, hfit⟩
        omega
      · have htext := text_long (Nat.le_of_not_lt hshort) hget
        exact ⟨hsize, by omega, fun _ => by omega⟩

theorem keeps_fgetsAll (calls : List Call) (s : StrHead) :
    ∀ g ∈ (fgetsAll s calls).1, g.call.window.Keeps g.writes := by
  induction calls generalizing s with
  | nil => exact fun g hg => absurd hg List.not_mem_nil
  | cons c calls ih =>
    by_cases htop : s.top = []
    · rw [fgetsAll_nil htop]
      exact fun g hg => absurd hg List.not_mem_nil
    · obtain ⟨writes, hget⟩ := exists_fgets htop c
      rw [fgetsAll, hget]
      intro g hg
      rcases List.mem_cons.mp hg with rfl | hg
      · exact keeps_str_fgets hget
      · exact ih _ g hg

/-- What is asked of a stream that is read by some calls. -/
structure Stream (content : List Byte) (calls : List Call) : Prop where
  keeps : ∀ g ∈ (fgetsAll ⟨content, 0⟩ calls).1, g.call.window.Keeps g.writes
  stored : ∀ g ∈ (fgetsAll ⟨content, 0⟩ calls).1, g.text.length + 1 ≤ g.call.siz
  line : ∀ g ∈ (fgetsAll ⟨content, 0⟩ calls).1, newline ∉ g.text.dropLast
  read : (fgetsAll ⟨content, 0⟩ calls).1.flatMap Got.text =
    content.take (fgetsAll ⟨content, 0⟩ calls).2.1.sh_peak
  ended : (fgetsAll ⟨content, 0⟩ calls).2.2 = true →
    (fgetsAll ⟨content, 0⟩ calls).1.flatMap Got.text = content
  restored : ∀ peak b s', str_fgetc ⟨content, peak⟩ = (some b, s') →
    str_fungetc b s' = (some b, ⟨content, peak⟩)

/-- The stream is read as it is if and only if each line is shorter than the buffer that it is read
into. -/
theorem stream_iff (content : List Byte) (hnul : (0 : Byte) ∉ content) (calls : List Call) :
    Stream content calls ↔ ∀ p ∈ (split newline content).zip calls, p.1.length < p.2.siz := by
  have hle := fgetsAll_length calls ⟨content, 0⟩ hnul (Nat.zero_le _)
  constructor
  · intro hstream
    by_contra hlost
    obtain ⟨hsize, -, hlt⟩ := hle
    have hread := congrArg List.length hstream.read
    have hless := hlt hlost
    rw [List.length_take_of_le hsize] at hread
    dsimp only at hless
    omega
  · intro hfit
    obtain ⟨hline, hbase, hread, hend⟩ := fgetsAll_fit calls ⟨content, 0⟩ hnul hfit
    have hcontent : content = (fgetsAll ⟨content, 0⟩ calls).1.flatMap Got.text ++
        content.drop (fgetsAll ⟨content, 0⟩ calls).2.1.sh_peak := by
      rw [StrHead.top, StrHead.top, hbase] at hread
      exact hread
    exact {
      keeps := keeps_fgetsAll calls _
      stored := fun g hg => (hline g hg).2
      line := fun g hg => (hline g hg).1
      read := by
        apply @List.append_cancel_right _ _ (content.drop (fgetsAll ⟨content, 0⟩ calls).2.1.sh_peak)
        rw [List.take_append_drop]
        exact hcontent.symm
      ended := by
        intro hended
        have htop := hend hended
        rw [htop, List.append_nil] at hread
        exact hread.symm
      restored := fun _ _ _ h => str_fungetc_fgetc h }

/-- A line of three bytes, read into a buffer of four. -/
theorem stream_ab : Stream [97, 98, 10] [⟨100, 4, fun _ => 0, by decide⟩] := by
  apply (stream_iff [97, 98, 10] (by decide) [⟨100, 4, fun _ => 0, by decide⟩]).mpr
  intro p hp
  have hsplit : split newline [97, 98, 10] = [[97, 98, 10]] := by simp [split, first, rest, newline]
  rw [hsplit, List.zip_cons_cons, List.zip_nil_left, List.mem_singleton] at hp
  rw [hp]
  exact Nat.lt_succ_self 3

/-- The same line in a buffer of three loses its newline, and a longer one leaves what was in the
buffer before. -/
theorem filled_buffer_loses :
    (fgetsAll ⟨[97, 98, 10], 0⟩ [⟨100, 3, fun _ => 0, by decide⟩]).1.flatMap Got.text = [97, 98] ∧
      (fgetsAll ⟨[97, 98, 99, 10], 0⟩ [⟨100, 3, fun _ => 120, by decide⟩]).1.flatMap Got.text =
        [120, 120] ∧
      ¬Stream [97, 98, 10] [⟨100, 3, fun _ => 0, by decide⟩] := by
  refine ⟨by decide, by decide, ?_⟩
  intro h
  exact absurd h.read (by decide)

end delegate.strstdio
