-- The archives of rary/tar.cpp, of regular files. The writer pads each file to blocks
-- of 512 bytes, and the scanner works the padding out again from the size it reads. It
-- seeks over the padding, and writes zeros for it where edits are given, even empty ones.
import Delegate.TarHeader

namespace delegate.tar

/-! ## The writer -/

/-- A regular file and what is known of it. The path is relative and does not begin with `./`,
and the numbers fit their fields. -/
structure File where
  path : Bytes
  mode : Nat
  uid : Nat
  gid : Nat
  mtime : Nat
  data : Bytes
  path_text : 0 ∉ path
  path_length : path.length ≤ 97
  path_relative : path.head? ≠ some 47
  path_plain : [46, 47].isPrefixOf path = false
  mode_lt : mode < 2 ^ 21
  uid_lt : uid < 2 ^ 21
  gid_lt : gid < 2 ^ 21
  mtime_lt : mtime < 2 ^ 31
  size_lt : data.length < 2 ^ 31

def File.size (f : File) : Nat := f.data.length

/-- `path`, from `file1`. -/
def pathOf (file1 : Bytes) : Bytes :=
  if [46, 47].isPrefixOf file1 then file1
  else [46, 47] ++ (if file1.head? = some 47 then file1.tail else file1)

/-- The header after `bzero`. -/
def bzero : Header where
  x_name := Vector.replicate 100 0
  x_mode := Vector.replicate 8 0
  x_uid := Vector.replicate 8 0
  x_gid := Vector.replicate 8 0
  x_size := Vector.replicate 12 0
  x_mtime := Vector.replicate 12 0
  x_chksum := Vector.replicate 8 0
  x_linkflag := 0
  x_linkname := Vector.replicate 100 0
  dummy := Vector.replicate 255 0

/-- `head`, filled in for one more file. -/
def fill (head : Header) (f : File) : Header :=
  set_chksum { head with
    x_name := strncpy (pathOf f.path) 100
    x_mode := itoo 8 f.mode
    x_uid := itoo 8 f.uid
    x_gid := itoo 8 f.gid
    x_size := itoo 12 f.size
    x_mtime := itoo 12 f.mtime
    x_linkflag := 48
    x_linkname := strncpy [] 100 }

/-- `((size+511) / 512) * 512` -/
def blocks (size : Int) : Int := int32 (Int.tdiv (int32 (size + 511)) 512 * 512)

/-- The loop that copies the file. -/
def copy (rem : Nat) (fp : Bytes) : Bytes :=
  if 0 < rem then fp.take (min 512 rem) ++ copy (rem - 512) (fp.drop (min 512 rem)) else []
termination_by rem
decreasing_by omega

/-- What is written from `buf` after the file, where `stack` lies behind `buf`. -/
def padding (stack : Bytes) (size1 : Nat) : Bytes :=
  (List.replicate 512 0 ++ stack).take (int32 (blocks size1 - size1)).toNat

/-- What is written for one file. -/
structure Member where
  head : Header
  body : Bytes

def Member.bytes (m : Member) : Bytes := m.head.block ++ m.body

def member (stack : Bytes) (head : Header) (f : File) : Member where
  head := fill head f
  body := if 0 < f.size then copy f.size f.data ++ padding stack f.size else []

/-- `tar_add`, from the header as it is left by the file before. -/
def tar_add (stack : Bytes) (head : Header) : List File → List Member
  | [] => []
  | f :: files => member stack head f :: tar_add stack (fill head f) files

def tar_adding (stack : Bytes) (files : List File) : Bytes :=
  (tar_add stack bzero files).flatMap Member.bytes ++ List.replicate 1024 0

/-! ## The scanner -/

/-- `edits`, where there is nothing to edit. -/
inductive Edits
  | null
  | empty
deriving DecidableEq, Repr

/-- How a scan is called: the edits, if `opts` has an `M`, and if the archive is in a file that
can be sought in. -/
structure Call where
  edits : Edits
  M : Bool
  reg : Bool

/-- A piece of the output: the fields of a part, its type, bytes as they are, or bytes in
base64. -/
inductive Piece
  | part (length mtime : Int) (name : Bytes)
  | type (bin : Bool)
  | raw (s : Bytes)
  | to64 (s : Bytes)

def Piece.content : Piece → Bytes
  | part _ _ _ => []
  | type _ => []
  | raw s => s
  | to64 s => s

def contents (out : List Piece) : Bytes := out.flatMap Piece.content

def isBin (ch : UInt8) : Bool := ch < 0x20 && !(ch == 0x1B || ch == 9 || ch == 10 || ch == 13)

/-- `putbody`: what is written, and what is left of the input. A byte that is missing is written
as `EOF` is, unless it would go into base64. -/
def putbody (M : Bool) (size : Nat) (ifp : Bytes) : List Piece × Bytes :=
  let buf := ifp.take (min size 1080)
  let ifp := ifp.drop (min size 1080)
  let left := size - buf.length
  if M && buf.any isBin then
    ([.type true, .to64 buf] ++ (if 0 < left then [.to64 (ifp.take left)] else []), ifp.drop left)
  else
    ((if M then [.type false] else []) ++
      [.raw buf, .raw (ifp.take left ++ List.replicate (left - ifp.length) 255)], ifp.drop left)

/-- `getbody`, without a list of files to look for. -/
def getbody (c : Call) (h : IHeader) (tfp : Bytes) : List Piece × Bytes :=
  let size := h.h_size
  let bsize := blocks size
  if bsize ≤ 0 then ([], tfp)
  else
    let body := putbody c.M size.toNat tfp
    let pad := (int32 (bsize - size)).toNat
    ((if c.M then [.part size h.h_mtime h.h_name] else []) ++ body.1 ++
        (if c.edits = .null then [] else [.raw (List.replicate pad 0)]),
      if c.reg then body.2.drop pad else body.2)

structure Visit where
  header : IHeader
  out : List Piece

/-- The end of a scan: what was visited, what is left of the input, and if the scan stopped at a
block without a name. -/
structure Scan where
  visits : List Visit
  rest : Bytes
  unnamed : Bool

theorem length_putbody_le (M : Bool) (size : Nat) (ifp : Bytes) :
    (putbody M size ifp).2.length ≤ ifp.length := by
  unfold putbody
  dsimp only
  split <;> simp only [List.length_drop] <;> omega

theorem length_getbody_le (c : Call) (h : IHeader) (tfp : Bytes) :
    (getbody c h tfp).2.length ≤ tfp.length := by
  have hbody := length_putbody_le c.M h.h_size.toNat tfp
  unfold getbody
  dsimp only
  split
  · exact le_refl _
  · dsimp only
    split
    · rw [List.length_drop]
      omega
    · exact hbody

/-- `tar_scan` -/
def tar_scan (c : Call) (ifp : Bytes) : Scan :=
  if ifp.length < 512 then ⟨[], [], false⟩
  else
    let head := ifp.take 512
    if head.headD 0 = 0 then ⟨[], ifp.drop 512, true⟩
    else
      let body := getbody c (ntoh head) (ifp.drop 512)
      let scan := tar_scan c body.2
      ⟨⟨ntoh head, body.1⟩ :: scan.visits, scan.rest, scan.unnamed⟩
termination_by ifp.length
decreasing_by
  have hbody := length_getbody_le c (ntoh (ifp.take 512)) (ifp.drop 512)
  rw [List.length_drop] at hbody
  omega

/-! ## What an archive is for -/

/-- What is listed and written of a file. -/
structure Entry where
  name : Bytes
  size : Int
  mode : Int
  mtime : Int
  data : Bytes
deriving DecidableEq, Repr

def File.entry (f : File) : Entry := ⟨[46, 47] ++ f.path, f.size, f.mode, f.mtime, f.data⟩

def Visit.entry (v : Visit) : Entry :=
  ⟨v.header.h_name, v.header.h_size, v.header.h_mode, v.header.h_mtime, contents v.out⟩

/-- The checksum of the header is in its field, as six octal digits. -/
def Header.checked (h : Header) : Prop :=
  fieldAt h.block 148 8 = sprintfO 6 (headsum h.block) ++ [0, 32] ∧
    otoi (fieldAt h.block 148 8) = headsum h.block

/-- The archive is made of blocks, its headers are checked, and a scan visits the files in their
order and stops at the two blocks of zeros, of which it has read the first. -/
structure Sound (c : Call) (stack : Bytes) (files : List File) : Prop where
  aligned : 512 ∣ (tar_adding stack files).length
  checked : ∀ m ∈ tar_add stack bzero files, m.head.checked
  visited : (tar_scan c (tar_adding stack files)).visits.map Visit.entry = files.map File.entry
  stopped : (tar_scan c (tar_adding stack files)).unnamed = true ∧
    (tar_scan c (tar_adding stack files)).rest = List.replicate 512 0

/-- The rounding up does not overflow. -/
def File.rounds (f : File) : Prop := f.size ≤ 2 ^ 31 - 512

/-- The padding is skipped and leaves no trace, or there is none. -/
def File.skipped (c : Call) (f : File) : Prop := (c.edits = .null ∧ c.reg = true) ∨ 512 ∣ f.size

/-! ## The header of a file -/

theorem pathOf_path (f : File) : pathOf f.path = [46, 47] ++ f.path := by
  unfold pathOf
  rw [f.path_plain, if_neg Bool.false_ne_true, if_neg f.path_relative]

theorem length_pathOf (f : File) : (pathOf f.path).length ≤ 99 := by
  have hlen := f.path_length
  rw [pathOf_path, List.length_append]
  exact Nat.add_le_add_left hlen 2

/-- The first byte of a header is that of its name, and not a terminator. -/
theorem headD_fill (head : Header) (f : File) : (fill head f).block.headD 0 = 46 := by
  obtain ⟨rest, hblock⟩ := block_named (fill head f) rfl (length_pathOf f)
  rw [hblock, pathOf_path]
  rfl

theorem name_fill (head : Header) (f : File) :
    (ntoh (fill head f).block).h_name = [46, 47] ++ f.path := by
  have hz : (0 : UInt8) ∉ pathOf f.path := by
    rw [pathOf_path]
    simpa using f.path_text
  rw [← pathOf_path]
  exact nameAt_block (fill head f) rfl hz (length_pathOf f)

/-- The numbers that are listed are those of the file. -/
theorem numbers_fill (head : Header) (f : File) :
    (ntoh (fill head f).block).h_size = f.size ∧ (ntoh (fill head f).block).h_mode = f.mode ∧
      (ntoh (fill head f).block).h_mtime = f.mtime := by
  have hsize := f.size_lt
  have hmode := f.mode_lt
  have hmtime := f.mtime_lt
  obtain ⟨hm, -, -, hs, ht, -, -⟩ := fieldAt_block (fill head f)
  refine ⟨?_, ?_, ?_⟩
  · calc otoi (fieldAt (fill head f).block 124 12) = otoi (itoo 12 f.size).toList :=
          congrArg otoi hs
      _ = f.size := otoi_itoo (by omega) (lt_trans hsize (by norm_num)) hsize
  · calc otoi (fieldAt (fill head f).block 100 8) = otoi (itoo 8 f.mode).toList :=
          congrArg otoi hm
      _ = f.mode := otoi_itoo (by omega) (lt_of_lt_of_eq hmode (by norm_num))
          (lt_trans hmode (by norm_num))
  · calc otoi (fieldAt (fill head f).block 136 12) = otoi (itoo 12 f.mtime).toList :=
          congrArg otoi ht
      _ = f.mtime := otoi_itoo (by omega) (lt_trans hmtime (by norm_num)) hmtime

theorem checked_set_chksum (h : Header) : (set_chksum h).checked := by
  have hsum := headsum_set_chksum h
  have hlt := headsum_lt h
  have hfield : fieldAt (set_chksum h).block 148 8 =
      sprintfO 6 (headsum (set_chksum h).block) ++ [0, 32] := by
    calc fieldAt (set_chksum h).block 148 8 = ((itoo 7 (headsum h.block)).push 32).toList :=
          (fieldAt_block (set_chksum h)).2.2.2.2.2.1
      _ = (itoo 7 (headsum h.block)).toList ++ [32] := Vector.toList_push
      _ = (sprintfO 6 (headsum h.block) ++ [0]) ++ [32] := by
          rw [itoo_toList (by omega) hlt (lt_trans hlt (by norm_num))]
      _ = sprintfO 6 (headsum (set_chksum h).block) ++ [0, 32] := by
          rw [hsum, List.append_assoc]
          rfl
  refine ⟨hfield, ?_⟩
  have hread : otoi (sprintfO 6 (headsum h.block)) = headsum h.block :=
    otoi_sprintfO 6 (lt_trans hlt (by norm_num))
  rw [hfield, hsum]
  unfold otoi at hread ⊢
  rw [List.foldl_append, hread]
  rfl

theorem checked_tar_add (stack : Bytes) (head : Header) (files : List File) :
    ∀ m ∈ tar_add stack head files, m.head.checked := by
  induction files generalizing head with
  | nil => simp [tar_add]
  | cons f files ih =>
    intro m hm
    rcases List.mem_cons.mp hm with rfl | hm
    · exact checked_set_chksum _
    · exact ih (fill head f) m hm

/-! ## Blocks -/

/-- The bytes that are missing to a multiple of 512. -/
def pad (n : Nat) : Nat := (n + 511) / 512 * 512 - n

theorem pad_lt (n : Nat) : pad n < 512 := by
  unfold pad
  omega

theorem dvd_add_pad (n : Nat) : 512 ∣ n + pad n := by
  unfold pad
  omega

theorem pad_eq_zero {n : Nat} (h : 512 ∣ n) : pad n = 0 := by
  unfold pad
  omega

theorem pad_pos {n : Nat} (h : ¬ 512 ∣ n) : 0 < pad n := by
  unfold pad
  omega

/-- The rounding up of a size that leaves room for it. -/
theorem blocks_of_le {n : Nat} (h : n ≤ 2 ^ 31 - 512) : blocks n = n + pad n := by
  have hsum : int32 ((n : Int) + 511) = ((n + 511 : Nat) : Int) := by
    rw [int32_of_lt (by omega) (by omega)]
    rfl
  have hdiv : Int.tdiv ((n + 511 : Nat) : Int) 512 * 512 = ((n + pad n : Nat) : Int) := by
    rw [Int.tdiv_eq_ediv_of_nonneg (by omega)]
    unfold pad
    omega
  have hpad := pad_lt n
  unfold blocks
  rw [hsum, hdiv, int32_of_lt (by omega) (by omega)]
  rfl

/-- Of the other sizes the sum is below zero, and so are the blocks. -/
theorem blocks_of_gt {n : Nat} (h : 2 ^ 31 - 512 < n) (h' : n < 2 ^ 31) : blocks n ≤ 0 := by
  obtain ⟨k, hk⟩ : ∃ k : Nat, n + 511 + k = 2 ^ 32 := ⟨2 ^ 32 - (n + 511), by omega⟩
  have hsum : int32 ((n : Int) + 511) = -(k : Int) := by
    unfold int32
    rw [Int.bmod_def]
    omega
  have hdiv : Int.tdiv (-(k : Int)) 512 * 512 = -((k / 512 * 512 : Nat) : Int) := by
    rw [Int.neg_tdiv, Int.tdiv_eq_ediv_of_nonneg (by omega)]
    omega
  unfold blocks
  rw [hsum, hdiv]
  unfold int32
  rw [Int.bmod_def]
  omega

theorem blocks_sub {n : Nat} (h : n ≤ 2 ^ 31 - 512) : (int32 (blocks n - n)).toNat = pad n := by
  have hpad := pad_lt n
  have hsub : blocks n - n = (pad n : Int) := by
    rw [blocks_of_le h]
    omega
  rw [hsub, int32_of_lt (by omega) (by omega), Int.toNat_natCast]

/-! ## The body of a file -/

theorem copy_length (data : Bytes) : copy data.length data = data := by
  induction hn : data.length using Nat.strong_induction_on generalizing data with
  | _ n ih =>
    rw [copy]
    split
    · rename_i hpos
      have hmin : min 512 n = data.length - (data.drop (min 512 n)).length := by
        rw [List.length_drop]
        omega
      have hrest : (data.drop (min 512 n)).length = n - 512 := by
        rw [List.length_drop]
        omega
      have hcopy := ih (n - 512) (by omega) (data.drop (min 512 n)) hrest
      rw [hcopy, List.take_append_drop]
    · rename_i hzero
      exact (List.length_eq_zero_iff.mp (by omega)).symm

/-- The body of a file is the file and the zeros that are missing. -/
theorem body_member (stack : Bytes) (head : Header) {f : File} (hr : f.rounds) :
    (member stack head f).body = f.data ++ List.replicate (pad f.size) 0 := by
  have hpad := pad_lt f.size
  unfold member
  dsimp only
  split
  · unfold padding
    rw [blocks_sub hr, List.take_append_of_le_length (by rw [List.length_replicate]; omega),
      List.take_replicate,
      Nat.min_eq_left (by omega)]
    congr 1
    exact copy_length f.data
  · rename_i hzero
    have hsize : f.size = 0 := by omega
    have hdata : f.data = [] := List.length_eq_zero_iff.mp hsize
    rw [hsize, hdata]
    rfl

theorem aligned_member (stack : Bytes) (head : Header) {f : File} (hr : f.rounds) :
    512 ∣ (member stack head f).bytes.length := by
  have hbody := dvd_add_pad f.size
  unfold Member.bytes
  rw [body_member stack head hr, List.length_append, length_block, List.length_append,
    List.length_replicate]
  exact dvd_add (dvd_refl 512) hbody

theorem aligned_tar_add (stack : Bytes) (head : Header) {files : List File}
    (hr : ∀ f ∈ files, f.rounds) :
    512 ∣ ((tar_add stack head files).flatMap Member.bytes).length := by
  induction files generalizing head with
  | nil => exact dvd_zero 512
  | cons f files ih =>
    have hf := aligned_member stack head (hr f List.mem_cons_self)
    have hrest := ih (fill head f) fun g hg => hr g (List.mem_cons_of_mem f hg)
    unfold tar_add
    rw [List.flatMap_cons, List.length_append]
    exact dvd_add hf hrest

/-- `putbody` writes what it is told to, and no more. -/
theorem putbody_append (M : Bool) (data rest : Bytes) :
    contents (putbody M data.length (data ++ rest)).1 = data ∧
      (putbody M data.length (data ++ rest)).2 = rest := by
  obtain ⟨k, hk, hle⟩ : ∃ k, min data.length 1080 = k ∧ k ≤ data.length :=
    ⟨_, rfl, Nat.min_le_left _ _⟩
  have htake : (data ++ rest).take k = data.take k := List.take_append_of_le_length hle
  have hdrop : (data ++ rest).drop k = data.drop k ++ rest := List.drop_append_of_le_length hle
  have hleft : data.length - (data.take k).length = (data.drop k).length := by
    rw [List.length_take, List.length_drop, Nat.min_eq_left hle]
  have hnone : (data.drop k).length - (data.drop k ++ rest).length = 0 := by
    rw [List.length_append]
    omega
  unfold putbody
  dsimp only
  rw [hk, htake, hdrop, hleft, List.take_left, List.drop_left]
  split
  · refine ⟨?_, rfl⟩
    by_cases hpos : 0 < (data.drop k).length
    · rw [if_pos hpos]
      simp [contents, Piece.content]
    · have hall : data.take k = data := List.take_of_length_le (by
        rw [List.length_drop] at hpos
        omega)
      rw [if_neg hpos]
      simpa [contents, Piece.content] using hall
  · refine ⟨?_, rfl⟩
    rw [hnone]
    cases M <;> simp [contents, Piece.content]

/-- The contents of a body, and of the zeros that are written for its padding. -/
theorem getbody_contents (c : Call) {f : File} (hr : f.rounds) {h : IHeader}
    (hsize : h.h_size = f.size) (rest : Bytes) :
    contents (getbody c h (f.data ++ rest)).1 =
      f.data ++ if c.edits = .null then [] else List.replicate (pad f.size) 0 := by
  have hbody := (putbody_append c.M f.data rest).1
  have hsub := blocks_sub hr
  unfold getbody
  dsimp only
  rw [hsize]
  split
  · rename_i hle
    rw [blocks_of_le hr] at hle
    have hzero : f.size = 0 := by omega
    have hdata : f.data = [] := List.length_eq_zero_iff.mp hzero
    rw [hzero, hdata]
    simp [contents, pad]
  · rw [hsub, Int.toNat_natCast]
    change contents (_ ++ (putbody c.M f.data.length _).1 ++ _) = _
    unfold contents at hbody ⊢
    rw [List.flatMap_append, List.flatMap_append, hbody]
    cases c.M <;> cases c.edits <;> simp [Piece.content]

/-- What is left of the input behind a body and its padding. -/
theorem getbody_rest (c : Call) {f : File} (hr : f.rounds) {h : IHeader}
    (hsize : h.h_size = f.size) (rest : Bytes) :
    (getbody c h (f.data ++ (List.replicate (pad f.size) 0 ++ rest))).2 =
      if c.reg then rest else List.replicate (pad f.size) 0 ++ rest := by
  have hbody := (putbody_append c.M f.data (List.replicate (pad f.size) 0 ++ rest)).2
  have hsub := blocks_sub hr
  unfold getbody
  dsimp only
  rw [hsize]
  split
  · rename_i hle
    rw [blocks_of_le hr] at hle
    have hzero : f.size = 0 := by omega
    have hdata : f.data = [] := List.length_eq_zero_iff.mp hzero
    rw [hzero, hdata]
    simp [pad]
  · rw [hsub, Int.toNat_natCast]
    change (if c.reg then (putbody c.M f.data.length _).2.drop _ else
      (putbody c.M f.data.length _).2) = _
    rw [hbody, List.drop_left' List.length_replicate]

/-- A file that cannot be rounded up has no contents. -/
theorem getbody_of_not_rounds (c : Call) {f : File} (hr : ¬ f.rounds) {h : IHeader}
    (hsize : h.h_size = f.size) (tfp : Bytes) : contents (getbody c h tfp).1 = [] := by
  have hle : blocks f.size ≤ 0 := blocks_of_gt (not_le.mp hr) f.size_lt
  unfold getbody
  dsimp only
  rw [hsize, if_pos hle]
  rfl

/-! ## The run of a scan -/

theorem tar_scan_unnamed (c : Call) {ifp : Bytes} (hlen : 512 ≤ ifp.length)
    (hzero : (ifp.take 512).headD 0 = 0) : tar_scan c ifp = ⟨[], ifp.drop 512, true⟩ := by
  rw [tar_scan, if_neg (not_lt.mpr hlen)]
  dsimp only
  rw [if_pos hzero]

theorem headD_take_zeros (n : Nat) (rest : Bytes) :
    ((List.replicate (n + 1) 0 ++ rest).take 512).headD 0 = (0 : UInt8) := rfl

/-- A scan visits the file whose header it stands at. -/
theorem tar_scan_fill (c : Call) (head : Header) (f : File) (tfp : Bytes) :
    tar_scan c ((fill head f).block ++ tfp) =
      ⟨⟨ntoh (fill head f).block, (getbody c (ntoh (fill head f).block) tfp).1⟩ ::
          (tar_scan c (getbody c (ntoh (fill head f).block) tfp).2).visits,
        (tar_scan c (getbody c (ntoh (fill head f).block) tfp).2).rest,
        (tar_scan c (getbody c (ntoh (fill head f).block) tfp).2).unnamed⟩ := by
  have hlen := length_block (fill head f)
  have hname : (fill head f).block.headD 0 ≠ 0 := by
    rw [headD_fill]
    decide
  rw [tar_scan, if_neg (by rw [List.length_append]; omega)]
  dsimp only
  rw [List.take_left' hlen, List.drop_left' hlen, if_neg hname]

/-- The part of `Sound` that is about the scan, from any state of the header. -/
def Listed (c : Call) (stack : Bytes) (head : Header) (files : List File) : Prop :=
  let scan := tar_scan c
    ((tar_add stack head files).flatMap Member.bytes ++ List.replicate 1024 0)
  scan.visits.map Visit.entry = files.map File.entry ∧ scan.unnamed = true ∧
    scan.rest = List.replicate 512 0

theorem listed_nil (c : Call) (stack : Bytes) (head : Header) : Listed c stack head [] := by
  have hscan := @tar_scan_unnamed c (List.replicate 1024 0)
    (by rw [List.length_replicate]; omega) rfl
  unfold Listed tar_add
  dsimp only
  rw [List.flatMap_nil, List.nil_append, hscan, List.drop_replicate]
  exact ⟨rfl, rfl, rfl⟩

/-- What is listed of a file is right where its contents are. -/
theorem entry_eq_iff (head : Header) (f : File) (out : List Piece) :
    (⟨ntoh (fill head f).block, out⟩ : Visit).entry = f.entry ↔ contents out = f.data := by
  obtain ⟨hs, hm, ht⟩ := numbers_fill head f
  unfold Visit.entry File.entry
  dsimp only
  rw [name_fill, hs, hm, ht, Entry.mk.injEq]
  simp

/-- The archive of one more file. -/
theorem archive_cons (stack : Bytes) (head : Header) (f : File) (files : List File) :
    (tar_add stack head (f :: files)).flatMap Member.bytes ++ List.replicate 1024 0 =
      (fill head f).block ++ ((member stack head f).body ++
        ((tar_add stack (fill head f) files).flatMap Member.bytes ++ List.replicate 1024 0)) := by
  change (member stack head f :: tar_add stack (fill head f) files).flatMap Member.bytes ++ _ = _
  rw [List.flatMap_cons, List.append_assoc]
  exact List.append_assoc _ _ _

/-- A file that is rounded up and skipped is listed, and the rest is scanned behind it. -/
theorem listed_cons (c : Call) (stack : Bytes) (head : Header) {f : File} (hr : f.rounds)
    (hs : f.skipped c) (files : List File) :
    Listed c stack head (f :: files) ↔ Listed c stack (fill head f) files := by
  have hsize := (numbers_fill head f).1
  unfold Listed
  rw [archive_cons, body_member stack head hr, List.append_assoc, tar_scan_fill]
  generalize (tar_add stack (fill head f) files).flatMap Member.bytes ++ List.replicate 1024 0 = tail
  have hrest : (getbody c (ntoh (fill head f).block)
      (f.data ++ (List.replicate (pad f.size) 0 ++ tail))).2 = tail := by
    rw [getbody_rest c hr hsize]
    rcases hs with ⟨-, hreg⟩ | hdvd
    · rw [hreg, if_pos rfl]
    · rw [pad_eq_zero hdvd]
      exact ite_self _
  have hentry : contents (getbody c (ntoh (fill head f).block)
      (f.data ++ (List.replicate (pad f.size) 0 ++ tail))).1 = f.data := by
    rw [getbody_contents c hr hsize]
    rcases hs with ⟨hnull, -⟩ | hdvd
    · rw [hnull, if_pos rfl, List.append_nil]
    · rw [pad_eq_zero hdvd]
      simp
  dsimp only
  rw [hrest, List.map_cons, List.map_cons, (entry_eq_iff head f _).mpr hentry, List.cons_inj_right]

/-- Of a file that is rounded up and not skipped, the zeros are written with the contents, or the
scan stops at them. -/
theorem not_listed_of_not_skipped (c : Call) (stack : Bytes) (head : Header) {f : File}
    (hr : f.rounds) (hs : ¬ f.skipped c) (files : List File) :
    ¬ Listed c stack head (f :: files) := by
  have hsize := (numbers_fill head f).1
  have hdvd : ¬ 512 ∣ f.size := fun h => hs (.inr h)
  have hpad := pad_pos hdvd
  unfold Listed
  rw [archive_cons, body_member stack head hr, List.append_assoc, tar_scan_fill]
  generalize htail : (tar_add stack (fill head f) files).flatMap Member.bytes = tail
  dsimp only
  rw [List.map_cons, List.map_cons, List.cons.injEq, entry_eq_iff, getbody_contents c hr hsize,
    getbody_rest c hr hsize]
  rintro ⟨⟨hentry, -⟩, -, hrest⟩
  cases hedits : c.edits with
  | empty =>
    rw [hedits, if_neg (by decide), List.append_right_eq_self, List.replicate_eq_nil_iff] at hentry
    omega
  | null =>
    have hreg : c.reg = false := by
      cases h : c.reg with
      | false => rfl
      | true => exact absurd (.inl ⟨hedits, h⟩) hs
    obtain ⟨n, hn⟩ : ∃ n, pad f.size = n + 1 := Nat.exists_eq_succ_of_ne_zero (by omega)
    rw [hreg, if_neg Bool.false_ne_true, hn, tar_scan_unnamed c _ (headD_take_zeros n _)] at hrest
    · have hlen := congrArg List.length hrest
      dsimp only at hlen
      rw [List.length_drop, List.length_append, List.length_append, List.length_replicate,
        List.length_replicate, List.length_replicate] at hlen
      omega
    · rw [List.length_append, List.length_append, List.length_replicate, List.length_replicate]
      omega

theorem not_listed_of_not_rounds (c : Call) (stack : Bytes) (head : Header) {f : File}
    (hr : ¬ f.rounds) (files : List File) : ¬ Listed c stack head (f :: files) := by
  have hsize := (numbers_fill head f).1
  have hpos : f.data ≠ [] := by
    intro hnil
    apply hr
    unfold File.rounds File.size
    rw [hnil]
    decide
  unfold Listed
  rw [archive_cons, tar_scan_fill]
  dsimp only
  rw [List.map_cons, List.map_cons, List.cons.injEq, entry_eq_iff,
    getbody_of_not_rounds c hr hsize]
  exact fun h => hpos h.1.1.symm

theorem listed_iff (c : Call) (stack : Bytes) (head : Header) (files : List File) :
    Listed c stack head files ↔ ∀ f ∈ files, f.rounds ∧ f.skipped c := by
  induction files generalizing head with
  | nil => simpa using listed_nil c stack head
  | cons f files ih =>
    rw [List.forall_mem_cons]
    by_cases hr : f.rounds
    · by_cases hs : f.skipped c
      · rw [listed_cons c stack head hr hs, ih]
        simp [hr, hs]
      · exact iff_of_false (not_listed_of_not_skipped c stack head hr hs files)
          fun h => hs h.1.2
    · exact iff_of_false (not_listed_of_not_rounds c stack head hr files) fun h => hr h.1.1

/-- An archive lists back what was added, where each size leaves room for the rounding up and the
padding is skipped without a trace. -/
theorem tar_scan_sound_iff (c : Call) (stack : Bytes) (files : List File) :
    Sound c stack files ↔ ∀ f ∈ files, f.rounds ∧ f.skipped c := by
  constructor
  · intro h
    exact (listed_iff c stack bzero files).mp ⟨h.visited, h.stopped⟩
  · intro h
    have hlisted := (listed_iff c stack bzero files).mpr h
    exact {
      aligned := by
        unfold tar_adding
        rw [List.length_append, List.length_replicate]
        exact dvd_add (aligned_tar_add stack bzero fun f hf => (h f hf).1) (by norm_num)
      checked := checked_tar_add stack bzero files
      visited := hlisted.1
      stopped := hlisted.2 }

/-- A file of one byte. -/
def letter : File where
  path := [97]
  mode := 0o644
  uid := 0
  gid := 0
  mtime := 0
  data := [65]
  path_text := by decide
  path_length := by decide
  path_relative := by decide
  path_plain := by decide
  mode_lt := by decide
  uid_lt := by decide
  gid_lt := by decide
  mtime_lt := by decide
  size_lt := by decide

/-- The largest file there is. -/
def large : File :=
  { letter with
    data := List.replicate (2 ^ 31 - 1) 65
    size_lt := by
      rw [List.length_replicate]
      omega }

/-- The largest file comes back empty. The file of one byte gets zeros where the edits are the
empty string, and its padding is taken for the end of an archive that comes through a pipe. -/
theorem tar_scan_unsound :
    ¬ Sound ⟨.null, false, true⟩ [] [large] ∧ ¬ Sound ⟨.empty, false, true⟩ [] [letter] ∧
      ¬ Sound ⟨.null, false, false⟩ [] [letter] := by
  have hrounds : letter.rounds := by
    unfold File.rounds
    decide
  have hlarge : ¬ large.rounds := by
    have hlen : large.size = 2 ^ 31 - 1 := List.length_replicate
    unfold File.rounds
    rw [hlen]
    omega
  have hdvd : ¬ 512 ∣ letter.size := by decide
  refine ⟨?_, ?_, ?_⟩
  · intro h
    exact not_listed_of_not_rounds _ [] bzero hlarge [] ⟨h.visited, h.stopped⟩
  · intro h
    apply not_listed_of_not_skipped _ [] bzero hrounds ?_ [] ⟨h.visited, h.stopped⟩
    rintro (⟨hedits, -⟩ | hd)
    · exact absurd hedits (by decide)
    · exact hdvd hd
  · intro h
    apply not_listed_of_not_skipped _ [] bzero hrounds ?_ [] ⟨h.visited, h.stopped⟩
    rintro (⟨-, hreg⟩ | hd)
    · exact absurd hreg (by decide)
    · exact hdvd hd

end delegate.tar
