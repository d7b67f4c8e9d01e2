-- What is put in DNS messages, and the buffers it is put in. Names and data look
-- for the end of their buffer, and the plain numbers do not, so a pointer can
-- stand behind the end.
import Delegate.DnsMessage

namespace delegate.dns

/-! ## What is written -/

/-- `putShort` -/
def putShort (v : Nat) : Bytes := [UInt8.ofNat (v >>> 8), UInt8.ofNat v]

/-- `putLong` -/
def putLong (v : UInt32) : Bytes :=
  [(v >>> 24).toUInt8, (v >>> 16).toUInt8, (v >>> 8).toUInt8, v.toUInt8]

/-- `putName`, in a buffer that has room for the name. It stops at an empty label, and a label that
is too long loses one byte. -/
def putName : Bytes → Bytes
  | [] => [0]
  | c :: np =>
    if c = 46 then [0]
    else
      let label := ((c :: np).takeWhile (· != 46)).take 63
      UInt8.ofNat label.length :: label ++
        if (c :: np).drop label.length = [] then [0]
        else putName ((c :: np).drop (label.length + 1))
termination_by np => np.length
decreasing_by
  simp only [List.length_drop, List.length_cons]
  omega

/-- The labels that `putName` writes. -/
def nameLabels : Bytes → List Bytes
  | [] => []
  | c :: np =>
    if c = 46 then []
    else
      let label := ((c :: np).takeWhile (· != 46)).take 63
      label :: if (c :: np).drop label.length = [] then []
        else nameLabels ((c :: np).drop (label.length + 1))
termination_by np => np.length
decreasing_by
  simp only [List.length_drop, List.length_cons]
  omega

/-- Labels with their lengths, and the end of the name. -/
def wire (ls : List Bytes) : Bytes := ls.flatMap (fun l => UInt8.ofNat l.length :: l) ++ [0]

theorem wire_cons (l : Bytes) (ls : List Bytes) :
    wire (l :: ls) = UInt8.ofNat l.length :: (l ++ wire ls) := by
  simp [wire]

/-- Labels with their lengths. -/
def bare (ls : List Bytes) : Bytes := ls.flatMap fun l => UInt8.ofNat l.length :: l

theorem wire_eq (ls : List Bytes) : wire ls = bare ls ++ [0] := rfl

theorem bare_concat (ls : List Bytes) (l : Bytes) :
    bare (ls ++ [l]) = bare ls ++ (UInt8.ofNat l.length :: l) := by
  simp [bare]

theorem putName_eq (t : Bytes) : putName t = wire (nameLabels t) := by
  induction t using putName.induct with
  | case1 =>
    rw [putName, nameLabels]
    rfl
  | case2 np =>
    rw [putName, nameLabels, if_pos rfl, if_pos rfl]
    rfl
  | case3 c np hc label ih =>
    rw [putName, nameLabels, if_neg hc, if_neg hc]
    dsimp only
    rw [wire_cons]
    split
    · rfl
    · rw [ih]
      rfl

/-- The class of the Internet. -/
def CL_IN : Nat := 1

/-- `putRR`, in a buffer that has room for the record. -/
def putRR (name : Bytes) (type : Nat) (ttl : UInt32) (data : Bytes) : Bytes :=
  putName name ++ putShort type ++ putShort CL_IN ++ putLong ttl ++ putShort data.length ++ data

theorem length_putShort (v : Nat) : (putShort v).length = 2 := rfl

theorem length_putLong (v : UInt32) : (putLong v).length = 4 := rfl

theorem length_putRR (name : Bytes) (type : Nat) (ttl : UInt32) (data : Bytes) :
    (putRR name type ttl data).length = (putName name).length + 10 + data.length := by
  unfold putRR
  simp only [List.length_append, length_putShort, length_putLong]

/-! ## Buffers

A buffer is the memory from its start up to the pointer. `size` is its size, and `found` is what
stood in the memory from its start on, also behind its end. -/

/-- `setVStrPtrInc`. Where the pointer is behind the end, the last byte is set to zero. -/
def setVStrPtrInc (size : Nat) (b : Bytes) (v : Octet) : Bytes :=
  if b.length < size then b ++ [v] else b.set (size - 1) 0

/-- The pointer goes on to the next zero byte. -/
def strlenInc (found b : Bytes) : Bytes := b ++ (found.drop b.length).takeWhile (· != 0)

/-- The pointer goes on over `length` bytes that are not written. -/
def skip (found b : Bytes) (length : Nat) : Bytes :=
  b ++ (List.range length).map fun i => found.getD (b.length + i) 0

/-- One label of `putName`: its length, `strcpy` of the label with a zero byte, and `strlen`. -/
def putLabel (size : Nat) (found b label : Bytes) : Bytes :=
  let qp := setVStrPtrInc size b (UInt8.ofNat label.length)
  if qp.length < size then qp ++ label.take (size - 1 - qp.length) else strlenInc found qp

/-- `putName` -/
def putNameIn (size : Nat) (found b : Bytes) : Bytes → Bytes
  | [] => setVStrPtrInc size b 0
  | c :: np =>
    if c = 46 then setVStrPtrInc size b 0
    else
      let label := ((c :: np).takeWhile (· != 46)).take 63
      if (c :: np).drop label.length = [] then setVStrPtrInc size (putLabel size found b label) 0
      else putNameIn size found (putLabel size found b label) ((c :: np).drop (label.length + 1))
termination_by np => np.length
decreasing_by
  simp only [List.length_drop, List.length_cons]
  omega

/-- What is put at a pointer. -/
inductive Put
  | putName (np : Bytes)
  | putShort (v : Nat)
  | putLong (v : UInt32)
  | putLongVStr (v : UInt32)
  | Bcopy (data : Bytes)
  deriving DecidableEq, Repr

/-- The bytes that are put where there is room. -/
def Put.bytes : Put → Bytes
  | .putName np => dns.putName np
  | .putShort v => dns.putShort v
  | .putLong v => dns.putLong v
  | .putLongVStr v => dns.putLong v
  | .Bcopy data => data

/-- The buffer after `p`. The pointer goes on by the length of the data also where `Bcopy` copies
nothing. -/
def Put.run (size : Nat) (found : Put → Bytes) (b : Bytes) (p : Put) : Bytes :=
  match p with
  | .putName np => putNameIn size (found p) b np
  | .putShort v => b ++ dns.putShort v
  | .putLong v => b ++ dns.putLong v
  | .putLongVStr v => (dns.putLong v).foldl (setVStrPtrInc size) b
  | .Bcopy data =>
    if b.length + data.length ≤ size then b ++ data else skip (found p) b data.length

/-- The buffer after all of `ps`. -/
def runs (size : Nat) (found : Put → Bytes) (b : Bytes) (ps : List Put) : Bytes :=
  ps.foldl (Put.run size found) b

/-- A record. -/
structure PutRR where
  name : Bytes
  type : Nat
  ttl : UInt32
  data : Bytes
  deriving DecidableEq, Repr

def PutRR.bytes (r : PutRR) : Bytes := putRR r.name r.type r.ttl r.data

/-- `putRR` -/
def PutRR.puts (r : PutRR) : List Put :=
  [.putName r.name, .putShort r.type, .putShort CL_IN, .putLong r.ttl, .putShort r.data.length,
    .Bcopy r.data]

theorem PutRR.puts_bytes (r : PutRR) : r.puts.flatMap Put.bytes = r.bytes := by
  simp [PutRR.puts, PutRR.bytes, Put.bytes, putRR]

/-! ## Names in a buffer -/

section Names
variable {size : Nat} {found : Bytes}

theorem length_setVStrPtrInc (b : Bytes) (v : Octet) :
    (setVStrPtrInc size b v).length = if b.length < size then b.length + 1 else b.length := by
  unfold setVStrPtrInc
  split
  · rw [List.length_append, List.length_singleton]
  · rw [List.length_set]

/-- How far the next zero byte is. -/
def nextZero (found : Bytes) (pos : Nat) : Nat := ((found.drop pos).takeWhile (· != 0)).length

theorem length_strlenInc (b : Bytes) :
    (strlenInc found b).length = b.length + nextZero found b.length := List.length_append

/-- At a zero byte the pointer stays. -/
theorem nextZero_next (found : Bytes) (pos : Nat) :
    nextZero found (pos + nextZero found pos) = 0 := by
  unfold nextZero
  rw [← List.drop_drop]
  induction found.drop pos with
  | nil => rfl
  | cons v l ih =>
    rw [List.takeWhile_cons]
    split
    · exact ih
    · rename_i hv
      rw [List.length_nil, List.drop_zero, List.takeWhile_cons, if_neg hv]
      rfl

/-- A label that has room behind the pointer, with a byte left. -/
theorem putLabel_room {b l : Bytes} (h : b.length + l.length + 1 < size) :
    putLabel size found b l = b ++ (UInt8.ofNat l.length :: l) := by
  have hset : setVStrPtrInc size b (UInt8.ofNat l.length) = b ++ [UInt8.ofNat l.length] := by
    unfold setVStrPtrInc
    rw [if_pos (by omega)]
  unfold putLabel
  dsimp only
  rw [hset, List.length_append, List.length_singleton, if_pos (by omega),
    List.take_of_length_le (by omega), List.append_assoc, List.singleton_append]

/-- A label that is cut leaves the last byte of the buffer. -/
theorem length_putLabel_cut {b l : Bytes} (h : size ≤ b.length + l.length + 1)
    (hb : b.length + 1 < size) : (putLabel size found b l).length = size - 1 := by
  have hlen := @length_setVStrPtrInc size b (UInt8.ofNat l.length)
  rw [if_pos (by omega)] at hlen
  unfold putLabel
  dsimp only
  rw [if_pos (by omega), List.length_append, List.length_take, hlen]
  omega

/-- Behind the end of the buffer, the pointer goes on to the next zero byte. -/
theorem length_putLabel_end {b l : Bytes} (h : size ≤ b.length + 1) :
    (putLabel size found b l).length =
      max b.length size + nextZero found (max b.length size) := by
  have hlen : (setVStrPtrInc size b (UInt8.ofNat l.length)).length = max b.length size := by
    rw [length_setVStrPtrInc]
    split <;> omega
  unfold putLabel
  dsimp only
  rw [if_neg (by omega), length_strlenInc, hlen]

/-- The labels of a name. -/
def putLabels (size : Nat) (found b : Bytes) (ls : List Bytes) : Bytes :=
  ls.foldl (putLabel size found) b

theorem putNameIn_eq (b t : Bytes) :
    putNameIn size found b t =
      setVStrPtrInc size (putLabels size found b (nameLabels t)) 0 := by
  induction t using putName.induct generalizing b with
  | case1 =>
    rw [putNameIn, nameLabels]
    rfl
  | case2 np =>
    rw [putNameIn, nameLabels, if_pos rfl, if_pos rfl]
    rfl
  | case3 c np hc label ih =>
    rw [putNameIn, nameLabels, if_neg hc, if_neg hc]
    dsimp only
    rw [putLabels, List.foldl_cons]
    split
    · rfl
    · exact ih _

theorem putLabels_room {b : Bytes} {ls : List Bytes} (h : b.length + (bare ls).length < size) :
    putLabels size found b ls = b ++ bare ls := by
  induction ls using List.reverseRecOn with
  | nil => simp [putLabels, bare]
  | append_singleton ls l ih =>
    rw [bare_concat, List.length_append, List.length_cons] at h
    have hinit := ih (by omega)
    unfold putLabels at hinit ⊢
    rw [List.foldl_append, List.foldl_cons, List.foldl_nil, hinit, bare_concat,
      putLabel_room (by rw [List.length_append]; omega), List.append_assoc]

/-- Where the labels that have no room end. -/
theorem length_putLabels_full {b : Bytes} {ls : List Bytes} {l : Bytes}
    (h : size ≤ b.length + (bare (ls ++ [l])).length) :
    (putLabels size found b (ls ++ [l])).length =
      if b.length + (bare (ls ++ [l])).length < size + l.length then size - 1
      else max b.length size + nextZero found (max b.length size) := by
  induction ls using List.reverseRecOn generalizing l with
  | nil =>
    have hone : putLabels size found b ([] ++ [l]) = putLabel size found b l := rfl
    have hbare : (bare ([] ++ [l])).length = l.length + 1 := by simp [bare]
    rw [hone]
    rw [hbare] at h ⊢
    split
    · exact length_putLabel_cut h (by omega)
    · exact length_putLabel_end (by omega)
  | append_singleton ls m ih =>
    have hlast : ∀ ls' : List Bytes, putLabels size found b (ls' ++ [l]) =
        putLabel size found (putLabels size found b ls') l := fun ls' => by
      simp [putLabels, List.foldl_append]
    rw [bare_concat, List.length_append, List.length_cons] at h ⊢
    rw [hlast]
    by_cases hroom : b.length + (bare (ls ++ [m])).length < size
    · rw [putLabels_room hroom]
      split
      · exact length_putLabel_cut (by rw [List.length_append]; omega)
          (by rw [List.length_append]; omega)
      · have hend := @length_putLabel_end size found (b ++ bare (ls ++ [m])) l
          (by rw [List.length_append]; omega)
        have hmax : max (b ++ bare (ls ++ [m])).length size = max b.length size := by
          rw [List.length_append]
          omega
        rw [hend, hmax]
    · have hinit := ih (l := m) (not_lt.mp hroom)
      rw [if_neg (by omega)]
      rw [bare_concat, List.length_append, List.length_cons] at hroom hinit
      split at hinit
      · -- the label before was cut, and this one is behind the end
        rw [length_putLabel_end (by omega), hinit]
        have hmax : max (size - 1) size = max b.length size := by omega
        rw [hmax]
      · -- the pointer stands at a zero byte
        rw [length_putLabel_end (by omega), hinit, max_eq_left (by omega), nextZero_next, add_zero]

theorem putNameIn_room {b t : Bytes} (h : b.length + (putName t).length ≤ size) :
    putNameIn size found b t = b ++ putName t := by
  rw [putName_eq, wire_eq, List.length_append, List.length_singleton] at h
  rw [putNameIn_eq, putName_eq, wire_eq, putLabels_room (by omega)]
  unfold setVStrPtrInc
  rw [if_pos (by rw [List.length_append]; omega), List.append_assoc]

/-- The last label and its length stand before the zero byte. -/
theorem length_getLast {t label : Bytes} (h : (nameLabels t).getLast? = some label) :
    label.length + 2 ≤ (putName t).length := by
  obtain ⟨ls, hls⟩ := List.getLast?_eq_some_iff.mp h
  rw [putName_eq, hls, wire_eq, bare_concat, List.length_append, List.length_append, List.length_cons,
    List.length_singleton]
  omega

/-- Where a name that is put at `pos` ends: a last label that begins in front of the last byte is
cut there, and a label behind that takes the pointer to the next zero byte behind the buffer. -/
def nameEnd (size : Nat) (found : Bytes) (pos : Nat) (t : Bytes) : Nat :=
  let fin := pos + (putName t).length
  if fin ≤ size then fin
  else
    match (nameLabels t).getLast? with
    | none => pos
    | some label =>
      if fin ≤ size + label.length then size
      else max pos size + nextZero found (max pos size)

theorem length_putNameIn (b t : Bytes) :
    (putNameIn size found b t).length = nameEnd size found b.length t := by
  have hfin : (putName t).length = (bare (nameLabels t)).length + 1 := by
    rw [putName_eq, wire_eq, List.length_append, List.length_singleton]
  unfold nameEnd
  dsimp only
  by_cases hroom : b.length + (putName t).length ≤ size
  · rw [if_pos hroom, putNameIn_room hroom, List.length_append]
  · rw [if_neg hroom, putNameIn_eq, length_setVStrPtrInc]
    rcases List.eq_nil_or_concat' (nameLabels t) with hnil | ⟨ls, l, hls⟩
    · have hnone : putLabels size found b [] = b := rfl
      rw [hnil, bare, List.flatMap_nil, List.length_nil] at hfin
      rw [hnil, hnone, if_neg (by omega)]
      rfl
    · rw [hls] at hfin ⊢
      have hfull := @length_putLabels_full size found b ls l
        (show size ≤ _ by omega)
      rw [List.getLast?_concat, hfull, hfin]
      dsimp only
      by_cases hcut : b.length + (bare (ls ++ [l])).length < size + l.length
      · have hlast : (bare (ls ++ [l])).length = (bare ls).length + (l.length + 1) := by
          rw [bare_concat, List.length_append, List.length_cons]
        rw [if_pos hcut, if_pos (by omega), if_pos (by omega)]
        omega
      · rw [if_neg hcut, if_neg (by omega), if_neg (by omega)]

end Names

/-! ## The pointer -/

section Pointer
variable {size : Nat} {found : Put → Bytes}

/-- Where the pointer stands after `p`. -/
def Put.fin (size : Nat) (found : Put → Bytes) (pos : Nat) (p : Put) : Nat :=
  match p with
  | .putName np => nameEnd size (found p) pos np
  | .putShort _ => pos + 2
  | .putLong _ => pos + 4
  | .putLongVStr _ => if pos + 4 ≤ size then pos + 4 else max pos size
  | .Bcopy data => pos + data.length

/-- Where the pointer stands after all of `ps`. -/
def fins (size : Nat) (found : Put → Bytes) (pos : Nat) (ps : List Put) : Nat :=
  ps.foldl (Put.fin size found) pos

theorem length_setVStrPtrIncs (b data : Bytes) :
    (data.foldl (setVStrPtrInc size) b).length =
      if b.length + data.length ≤ size then b.length + data.length else max b.length size := by
  induction data generalizing b with
  | nil =>
    rw [List.foldl_nil, List.length_nil, add_zero]
    split <;> omega
  | cons v data ih =>
    rw [List.foldl_cons, ih, length_setVStrPtrInc, List.length_cons]
    repeat' split
    all_goals omega

theorem setVStrPtrIncs_room {b data : Bytes} (h : b.length + data.length ≤ size) :
    data.foldl (setVStrPtrInc size) b = b ++ data := by
  induction data generalizing b with
  | nil => rw [List.foldl_nil, List.append_nil]
  | cons v data ih =>
    rw [List.length_cons] at h
    have hset : setVStrPtrInc size b v = b ++ [v] := by
      unfold setVStrPtrInc
      rw [if_pos (by omega)]
    rw [List.foldl_cons, hset, ih (by rw [List.length_append, List.length_singleton]; omega),
      List.append_assoc, List.singleton_append]

theorem Put.length_run (b : Bytes) (p : Put) :
    (p.run size found b).length = p.fin size found b.length := by
  cases p with
  | putName np => exact length_putNameIn b np
  | putShort v => exact List.length_append
  | putLong v => exact List.length_append
  | putLongVStr v => exact length_setVStrPtrIncs b (dns.putLong v)
  | Bcopy data =>
    unfold Put.run Put.fin skip
    dsimp only
    split
    · exact List.length_append
    · rw [List.length_append, List.length_map, List.length_range]

theorem length_runs (b : Bytes) (ps : List Put) :
    (runs size found b ps).length = fins size found b.length ps := by
  induction ps generalizing b with
  | nil => rfl
  | cons p ps ih =>
    unfold runs fins at ih ⊢
    rw [List.foldl_cons, List.foldl_cons, ih, Put.length_run]

/-- Where there is room, the bytes are put behind those before. -/
theorem Put.run_room {b : Bytes} {p : Put} (h : b.length + p.bytes.length ≤ size) :
    p.run size found b = b ++ p.bytes := by
  cases p with
  | putName np => exact putNameIn_room h
  | putShort v => rfl
  | putLong v => rfl
  | putLongVStr v => exact setVStrPtrIncs_room h
  | Bcopy data => exact if_pos h

theorem runs_room {b : Bytes} {ps : List Put}
    (h : b.length + (ps.flatMap Put.bytes).length ≤ size) :
    runs size found b ps = b ++ ps.flatMap Put.bytes := by
  induction ps generalizing b with
  | nil => simp [runs]
  | cons p ps ih =>
    rw [List.flatMap_cons, List.length_append] at h
    have hrest := ih (b := b ++ p.bytes) (by rw [List.length_append]; omega)
    unfold runs at hrest ⊢
    rw [List.foldl_cons, Put.run_room (by omega), hrest, List.flatMap_cons, List.append_assoc]

/-- Where there is no room, the pointer comes to the end of the buffer. -/
theorem Put.fin_full {pos : Nat} {p : Put} (h : size < pos + p.bytes.length) :
    size ≤ p.fin size found pos := by
  cases p with
  | putName np =>
    change size < pos + (dns.putName np).length at h
    unfold Put.fin nameEnd
    dsimp only
    rw [if_neg (by omega)]
    cases hlast : (nameLabels np).getLast? with
    | none =>
      have hone : dns.putName np = [0] := by
        rw [putName_eq, List.getLast?_eq_none_iff.mp hlast]
        rfl
      rw [hone, List.length_singleton] at h
      exact Nat.lt_succ_iff.mp h
    | some label =>
      dsimp only
      split <;> omega
  | putShort v =>
    change size < pos + 2 at h
    exact h.le
  | putLong v =>
    change size < pos + 4 at h
    exact h.le
  | putLongVStr v =>
    change size < pos + 4 at h
    unfold Put.fin
    dsimp only
    split <;> omega
  | Bcopy data => exact h.le

/-- The pointer never goes back. -/
theorem Put.le_fin (pos : Nat) (p : Put) : pos ≤ p.fin size found pos := by
  cases p with
  | putName np =>
    unfold Put.fin nameEnd
    dsimp only
    split
    · exact Nat.le_add_right _ _
    · cases hlast : (nameLabels np).getLast? with
      | none => exact le_rfl
      | some label =>
        have hlen := length_getLast hlast
        dsimp only
        split <;> omega
  | putShort v => exact Nat.le_add_right _ _
  | putLong v => exact Nat.le_add_right _ _
  | putLongVStr v =>
    unfold Put.fin
    dsimp only
    split <;> omega
  | Bcopy data => exact Nat.le_add_right _ _

theorem le_fins (pos : Nat) (ps : List Put) : pos ≤ fins size found pos ps := by
  induction ps generalizing pos with
  | nil => exact le_rfl
  | cons p ps ih => exact (p.le_fin pos).trans (ih _)

theorem Put.fin_room {pos : Nat} {p : Put} (h : pos + p.bytes.length ≤ size) :
    p.fin size found pos = pos + p.bytes.length := by
  cases p with
  | putName np => exact if_pos h
  | putShort v => rfl
  | putLong v => rfl
  | putLongVStr v => exact if_pos h
  | Bcopy data => rfl

/-! ## Records in a buffer -/

/-- The pointer stands behind the end after a record that has no room. -/
theorem PutRR.fins_puts_full {pos : Nat} {r : PutRR} (h : size < pos + r.bytes.length) :
    size < fins size found pos r.puts := by
  have hbytes : r.bytes.length = (dns.putName r.name).length + 10 + r.data.length :=
    length_putRR _ _ _ _
  have hputs : fins size found pos r.puts =
      (Put.putName r.name).fin size found pos + 2 + 2 + 4 + 2 + r.data.length := rfl
  rw [hputs]
  by_cases hroom : pos + (dns.putName r.name).length ≤ size
  · rw [@Put.fin_room size found pos (.putName r.name) hroom]
    change size < pos + (dns.putName r.name).length + 2 + 2 + 4 + 2 + r.data.length
    omega
  · have hfull := @Put.fin_full size found pos (.putName r.name) (not_le.mp hroom)
    omega

/-- Records are put one after the other. -/
def putRRs (size : Nat) (found : Put → Bytes) (b : Bytes) (rrs : List PutRR) : Bytes :=
  runs size found b (rrs.flatMap PutRR.puts)

theorem flatMap_puts (rrs : List PutRR) :
    (rrs.flatMap PutRR.puts).flatMap Put.bytes = rrs.flatMap PutRR.bytes := by
  rw [List.flatMap_assoc]
  congr 1
  funext r
  exact r.puts_bytes

theorem putRRs_append (b : Bytes) (rrs rrs' : List PutRR) :
    putRRs size found b (rrs ++ rrs') = putRRs size found (putRRs size found b rrs) rrs' := by
  unfold putRRs runs
  rw [List.flatMap_append, List.foldl_append]

theorem putRRs_room {b : Bytes} {rrs : List PutRR}
    (h : b.length + (rrs.flatMap PutRR.bytes).length ≤ size) :
    putRRs size found b rrs = b ++ rrs.flatMap PutRR.bytes := by
  rw [← flatMap_puts] at h ⊢
  exact runs_room h

theorem length_putRRs_full {b : Bytes} {rrs : List PutRR}
    (h : size < b.length + (rrs.flatMap PutRR.bytes).length) :
    size < (putRRs size found b rrs).length := by
  induction rrs generalizing b with
  | nil => exact h
  | cons r rrs ih =>
    rw [List.flatMap_cons, List.length_append] at h
    rw [← List.singleton_append, putRRs_append]
    by_cases hroom : b.length + r.bytes.length ≤ size
    · have hone : putRRs size found b [r] = b ++ r.bytes := by
        rw [putRRs_room (by simpa using hroom), List.flatMap_singleton]
      rw [hone]
      exact ih (by rw [List.length_append]; omega)
    · have hone : (putRRs size found b [r]).length = fins size found b.length r.puts := by
        unfold putRRs
        rw [length_runs, List.flatMap_singleton]
      have hrest : (putRRs size found (putRRs size found b [r]) rrs).length =
          fins size found (putRRs size found b [r]).length (rrs.flatMap PutRR.puts) := length_runs _ _
      rw [hrest, hone]
      exact (PutRR.fins_puts_full (not_le.mp hroom)).trans_le (le_fins _ _)

/-- Records end in front of a place in the buffer exactly if their bytes do. -/
theorem length_putRRs_le_iff {b : Bytes} {rrs : List PutRR} {n : Nat} (hn : n ≤ size) :
    (putRRs size found b rrs).length ≤ n ↔ b.length + (rrs.flatMap PutRR.bytes).length ≤ n := by
  by_cases hroom : b.length + (rrs.flatMap PutRR.bytes).length ≤ size
  · rw [putRRs_room hroom, List.length_append]
  · have hfull := @length_putRRs_full size found b rrs (not_le.mp hroom)
    exact iff_of_false (by omega) (by omega)

end Pointer

end delegate.dns
