-- The header block of rary/tar.cpp. Its numbers are octal digits of a fixed width,
-- and a scanner reads them back that passes over all other characters. The checksum
-- counts its own field as blanks.
import Mathlib

namespace delegate.tar

/-! ## The pure model -/

abbrev Bytes := List UInt8

/-- The value of an `int`, from the 32 bits that are kept. -/
def int32 (x : Int) : Int := x.bmod (2 ^ 32)

/-- `strncpy(d,s,n)`, with a string without terminators. -/
def strncpy (s : Bytes) (n : Nat) : Vector UInt8 n :=
  ⟨((s ++ List.replicate n 0).take n).toArray, by simp⟩

/-- The digits of `%o`. -/
def octal (n : Nat) : Bytes := (Nat.toDigits 8 n).map fun c => UInt8.ofNat c.toNat

/-- `sprintf("%0<w>o",val)` -/
def sprintfO (w : Nat) (val : Int) : Bytes :=
  let d := octal (val % 2 ^ 32).toNat
  List.replicate (w - d.length) 48 ++ d

def itoo (siz : Nat) (val : Int) : Vector UInt8 siz := strncpy (sprintfO (siz - 1) val) siz

/-- `HBlock` -/
structure Header where
  x_name : Vector UInt8 100
  x_mode : Vector UInt8 8
  x_uid : Vector UInt8 8
  x_gid : Vector UInt8 8
  x_size : Vector UInt8 12
  x_mtime : Vector UInt8 12
  x_chksum : Vector UInt8 8
  x_linkflag : UInt8
  x_linkname : Vector UInt8 100
  dummy : Vector UInt8 255

/-- The bytes before and after the checksum. -/
def Header.front (h : Header) : Bytes :=
  h.x_name.toList ++ h.x_mode.toList ++ h.x_uid.toList ++ h.x_gid.toList ++ h.x_size.toList ++
    h.x_mtime.toList

def Header.back (h : Header) : Bytes := h.x_linkflag :: (h.x_linkname.toList ++ h.dummy.toList)

/-- The bytes of the block. -/
def Header.block (h : Header) : Bytes := h.front ++ h.x_chksum.toList ++ h.back

/-- `headsum`, of the bytes of a block. -/
def headsum (block : Bytes) : Nat :=
  (block.mapIdx fun i c => if i < 148 ∨ 155 < i then c.toNat else 32).sum

def set_chksum (h : Header) : Header :=
  { h with x_chksum := (itoo 7 (headsum h.block)).push 32 }

/-- One turn of the loop of `otoi`. -/
def otoiStep (i : Int) (oc : UInt8) : Int :=
  if 48 ≤ oc ∧ oc ≤ 55 then int32 (int32 (i * 8) + (oc.toNat - 48 : Nat)) else i

def otoi (str : Bytes) : Int := str.foldl otoiStep 0

/-- `iHeader`, without the checksum, which is not looked at. -/
structure IHeader where
  h_name : Bytes
  h_mode : Int
  h_uid : Int
  h_gid : Int
  h_size : Int
  h_mtime : Int
  h_linkflag : Int
  h_linkname : Bytes
deriving DecidableEq, Repr

/-- The field at a place of the block. -/
def fieldAt (block : Bytes) (off len : Nat) : Bytes := (block.drop off).take len

/-- `strcpy` from a place of the block into a field of 100 bytes. -/
def nameAt (block : Bytes) (off : Nat) : Bytes := ((block.drop off).takeWhile (· ≠ 0)).take 99

def ntoh (block : Bytes) : IHeader where
  h_name := nameAt block 0
  h_mode := otoi (fieldAt block 100 8)
  h_uid := otoi (fieldAt block 108 8)
  h_gid := otoi (fieldAt block 116 8)
  h_size := otoi (fieldAt block 124 12)
  h_mtime := otoi (fieldAt block 136 12)
  h_linkflag := otoi (fieldAt block 156 1)
  h_linkname := nameAt block 157

/-! ## Octal numbers -/

theorem int32_of_lt {x : Int} (h : 0 ≤ x) (h' : x < 2 ^ 31) : int32 x = x := by
  unfold int32
  rw [Int.bmod_def]
  omega

/-- What is kept of an `int` on the way does not matter for what is kept in the end. -/
theorem int32_step (j : Nat) (d : Nat) :
    int32 (int32 (int32 j * 8) + d) = int32 ((8 * j + d : Nat) : Int) := by
  unfold int32
  rw [Int.bmod_mul_bmod, Int.bmod_add_bmod]
  congr 1
  push_cast
  ring

theorem octal_char {n : Nat} {c : Char} (h : c ∈ Nat.toDigits 8 n) : ∃ d < 8, c = Nat.digitChar d := by
  induction n using Nat.strong_induction_on with
  | _ n ih =>
    rw [Nat.toDigits_eq_if (by decide)] at h
    split at h
    · rename_i hlt
      exact ⟨n, hlt, List.mem_singleton.mp h⟩
    · rename_i hge
      rcases List.mem_append.mp h with h | h
      · exact ih (n / 8) (by omega) h
      · exact ⟨n % 8, Nat.mod_lt n (by decide), List.mem_singleton.mp h⟩

/-- A digit adds its value. -/
theorem otoiStep_digit {d : Nat} (h : d < 8) (j : Nat) :
    otoiStep (int32 j) (UInt8.ofNat (Nat.digitChar d).toNat) = int32 ((8 * j + d : Nat) : Int) := by
  have hdigit : 48 ≤ UInt8.ofNat (Nat.digitChar d).toNat ∧ UInt8.ofNat (Nat.digitChar d).toNat ≤ 55 ∧
      (UInt8.ofNat (Nat.digitChar d).toNat).toNat - 48 = d := by
    interval_cases d <;> decide
  unfold otoiStep
  rw [if_pos ⟨hdigit.1, hdigit.2.1⟩, hdigit.2.2, int32_step]

theorem foldl_otoiStep (cs : List Char) (hcs : ∀ c ∈ cs, ∃ d < 8, c = Nat.digitChar d) (j : Nat) :
    (cs.map fun c => UInt8.ofNat c.toNat).foldl otoiStep (int32 j) =
      int32 (Nat.ofDigitChars 8 cs j : Int) := by
  induction cs generalizing j with
  | nil => rw [List.map_nil, List.foldl_nil, Nat.ofDigitChars_nil]
  | cons c cs ih =>
    obtain ⟨d, hd, rfl⟩ := hcs c List.mem_cons_self
    rw [List.map_cons, List.foldl_cons, otoiStep_digit hd,
      ih (fun c hc => hcs c (List.mem_cons_of_mem _ hc)),
      Nat.ofDigitChars_cons_digitChar_of_lt_ten (by omega)]

theorem foldl_zeros (n : Nat) : (List.replicate n (48 : UInt8)).foldl otoiStep 0 = 0 := by
  have hstep : otoiStep 0 48 = 0 := by decide
  induction n with
  | zero => rfl
  | succ n ih => rw [List.replicate_succ, List.foldl_cons, hstep, ih]

theorem length_octal {n w : Nat} (hw : 0 < w) (h : n < 8 ^ w) : (octal n).length ≤ w := by
  unfold octal
  rw [List.length_map]
  exact (Nat.length_toDigits_le_iff (by decide) hw).mpr h

theorem sprintfO_of_lt (w : Nat) {n : Nat} (h : n < 2 ^ 32) :
    sprintfO w n = List.replicate (w - (octal n).length) 48 ++ octal n := by
  have hmod : ((n : Int) % 2 ^ 32).toNat = n := by
    rw [Int.emod_eq_of_lt (Int.natCast_nonneg n) (by exact_mod_cast h), Int.toNat_natCast]
  simp only [sprintfO, hmod]

theorem length_sprintfO {w n : Nat} (hw : 0 < w) (h : n < 8 ^ w) (h' : n < 2 ^ 32) :
    (sprintfO w n).length = w := by
  have hlen := length_octal hw h
  rw [sprintfO_of_lt w h', List.length_append, List.length_replicate]
  omega

theorem strncpy_toList {s : Bytes} {n k : Nat} (h : s.length + k = n) :
    (strncpy s n).toList = s ++ List.replicate k 0 := by
  subst h
  change (s ++ List.replicate (s.length + k) 0).take (s.length + k) = _
  rw [List.take_append, List.take_of_length_le (Nat.le_add_right _ _), Nat.add_sub_cancel_left,
    List.take_replicate, Nat.min_eq_left (Nat.le_add_left _ _)]

/-- A number that fits its field is printed with leading zeros and a terminator. -/
theorem itoo_toList {siz n : Nat} (hsiz : 1 < siz) (h : n < 8 ^ (siz - 1)) (h' : n < 2 ^ 32) :
    (itoo siz n).toList = sprintfO (siz - 1) n ++ [0] := by
  have hlen := length_sprintfO (by omega : 0 < siz - 1) h h'
  unfold itoo
  rw [strncpy_toList (k := 1) (by omega)]
  rfl

theorem otoi_sprintfO (w : Nat) {n : Nat} (h : n < 2 ^ 31) : otoi (sprintfO w n) = n := by
  have hzero : (0 : Int) = int32 (0 : Nat) := rfl
  have hread : (octal n).foldl otoiStep (int32 (0 : Nat)) = int32 (n : Int) := by
    unfold octal
    rw [foldl_otoiStep _ (fun c hc => octal_char hc),
      Nat.ofDigitChars_toDigits (by decide) (by decide)]
  unfold otoi
  rw [sprintfO_of_lt w (by omega), List.foldl_append, foldl_zeros, hzero, hread]
  exact int32_of_lt (Int.natCast_nonneg n) (by exact_mod_cast h)

/-- A number that fits its field is read back. -/
theorem otoi_itoo {siz n : Nat} (hsiz : 1 < siz) (h : n < 8 ^ (siz - 1)) (h' : n < 2 ^ 31) :
    otoi (itoo siz n).toList = n := by
  have hread := otoi_sprintfO (siz - 1) h'
  rw [itoo_toList hsiz h (by omega)]
  unfold otoi at hread ⊢
  rw [List.foldl_append, hread]
  rfl

/-! ## The checksum -/

theorem length_front (h : Header) : h.front.length = 148 := by
  simp [Header.front]

theorem length_back (h : Header) : h.back.length = 356 := by
  simp [Header.back]

theorem length_block (h : Header) : h.block.length = 512 := by
  simp [Header.block, length_front, length_back]

/-- The checksum is that of the bytes around its field, and of eight blanks. -/
theorem headsum_block (h : Header) :
    headsum h.block = (h.front.map UInt8.toNat).sum + 256 + (h.back.map UInt8.toNat).sum := by
  have hfront : h.front.mapIdx (fun i c => if i < 148 ∨ 155 < i then c.toNat else 32) =
      h.front.map UInt8.toNat := by
    apply List.ext_getElem
    · simp
    · intro i h1 h2
      have hi : i < 148 := by simpa [length_front] using h1
      simp [hi]
  have hmid : h.x_chksum.toList.mapIdx
      (fun i c => if i + h.front.length < 148 ∨ 155 < i + h.front.length then c.toNat else 32) =
      List.replicate 8 32 := by
    apply List.ext_getElem
    · simp
    · intro i h1 h2
      have hi : i < 8 := by simpa using h1
      rw [List.getElem_mapIdx, if_neg (by rw [length_front]; omega), List.getElem_replicate]
  have hback : h.back.mapIdx (fun i c => if i + (h.front ++ h.x_chksum.toList).length < 148 ∨
      155 < i + (h.front ++ h.x_chksum.toList).length then c.toNat else 32) =
      h.back.map UInt8.toNat := by
    apply List.ext_getElem
    · simp
    · intro i h1 h2
      have hlen : (h.front ++ h.x_chksum.toList).length = 156 := by simp [length_front]
      rw [List.getElem_mapIdx, if_pos (by rw [hlen]; omega), List.getElem_map]
  unfold headsum Header.block
  rw [List.mapIdx_append, List.mapIdx_append, hfront, hmid, hback, List.sum_append, List.sum_append]
  rfl

theorem sum_toNat_le (s : Bytes) : (s.map UInt8.toNat).sum ≤ 255 * s.length := by
  induction s with
  | nil => exact le_refl 0
  | cons c s ih =>
    have hc := c.toNat_lt
    rw [List.map_cons, List.sum_cons, List.length_cons]
    omega

theorem headsum_lt (h : Header) : headsum h.block < 8 ^ 6 := by
  have hfront := sum_toNat_le h.front
  have hback := sum_toNat_le h.back
  rw [length_front] at hfront
  rw [length_back] at hback
  rw [headsum_block]
  omega

/-- The sum does not depend on the field that holds it. -/
theorem headsum_set_chksum (h : Header) : headsum (set_chksum h).block = headsum h.block := by
  rw [headsum_block, headsum_block]
  rfl

/-! ## The fields of a block -/

theorem fieldAt_eq {block a b c : Bytes} {off len : Nat} (h : block = a ++ (b ++ c))
    (ha : a.length = off) (hb : b.length = len) : fieldAt block off len = b := by
  subst ha hb h
  simp [fieldAt]

/-- The fields are where the scanner looks for them. -/
theorem fieldAt_block (h : Header) :
    fieldAt h.block 100 8 = h.x_mode.toList ∧ fieldAt h.block 108 8 = h.x_uid.toList ∧
      fieldAt h.block 116 8 = h.x_gid.toList ∧ fieldAt h.block 124 12 = h.x_size.toList ∧
      fieldAt h.block 136 12 = h.x_mtime.toList ∧ fieldAt h.block 148 8 = h.x_chksum.toList ∧
      fieldAt h.block 156 1 = [h.x_linkflag] := by
  have hback : h.back = [h.x_linkflag] ++ (h.x_linkname.toList ++ h.dummy.toList) := rfl
  refine ⟨?_, ?_, ?_, ?_, ?_, ?_, ?_⟩
  · apply fieldAt_eq (a := h.x_name.toList) (c := h.x_uid.toList ++ h.x_gid.toList ++
      h.x_size.toList ++ h.x_mtime.toList ++ h.x_chksum.toList ++ h.back) <;>
      simp [Header.block, Header.front]
  · apply fieldAt_eq (a := h.x_name.toList ++ h.x_mode.toList) (c := h.x_gid.toList ++
      h.x_size.toList ++ h.x_mtime.toList ++ h.x_chksum.toList ++ h.back) <;>
      simp [Header.block, Header.front]
  · apply fieldAt_eq (a := h.x_name.toList ++ h.x_mode.toList ++ h.x_uid.toList)
      (c := h.x_size.toList ++ h.x_mtime.toList ++ h.x_chksum.toList ++ h.back) <;>
      simp [Header.block, Header.front]
  · apply fieldAt_eq (a := h.x_name.toList ++ h.x_mode.toList ++ h.x_uid.toList ++ h.x_gid.toList)
      (c := h.x_mtime.toList ++ h.x_chksum.toList ++ h.back) <;>
      simp [Header.block, Header.front]
  · apply fieldAt_eq (a := h.x_name.toList ++ h.x_mode.toList ++ h.x_uid.toList ++
      h.x_gid.toList ++ h.x_size.toList) (c := h.x_chksum.toList ++ h.back) <;>
      simp [Header.block, Header.front]
  · apply fieldAt_eq (a := h.front) (c := h.back) <;>
      simp [Header.block, length_front]
  · apply fieldAt_eq (a := h.front ++ h.x_chksum.toList)
      (c := h.x_linkname.toList ++ h.dummy.toList) <;>
      simp [Header.block, hback, length_front]

/-- A name that is shorter than its field is followed by a terminator. -/
theorem block_named (h : Header) {name : Bytes} (hname : h.x_name = strncpy name 100)
    (hlen : name.length ≤ 99) : ∃ rest, h.block = name ++ 0 :: rest := by
  obtain ⟨k, hk⟩ := Nat.exists_eq_add_of_le hlen
  have hlist : h.x_name.toList = name ++ 0 :: List.replicate k 0 := by
    rw [hname, strncpy_toList (k := k + 1) (by omega)]
    rfl
  refine ⟨List.replicate k 0 ++ (h.x_mode.toList ++ h.x_uid.toList ++ h.x_gid.toList ++
    h.x_size.toList ++ h.x_mtime.toList ++ h.x_chksum.toList ++ h.back), ?_⟩
  simp [Header.block, Header.front, hlist]

theorem nameAt_block (h : Header) {name : Bytes} (hname : h.x_name = strncpy name 100)
    (hz : 0 ∉ name) (hlen : name.length ≤ 99) : nameAt h.block 0 = name := by
  obtain ⟨rest, hblock⟩ := block_named h hname hlen
  have hall : ∀ c ∈ name, decide (c ≠ 0) = true := by
    intro c hc
    have hne : c ≠ 0 := by
      rintro rfl
      exact hz hc
    simpa using hne
  unfold nameAt
  rw [List.drop_zero, hblock, List.takeWhile_append_of_pos hall]
  simp only [ne_eq, not_true_eq_false, decide_false, List.takeWhile_cons, Bool.false_eq_true,
    if_false, List.append_nil]
  exact List.take_of_length_le hlen

end delegate.tar
