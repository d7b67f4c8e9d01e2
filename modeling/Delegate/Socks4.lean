-- A SOCKS4 request (src/socks4.cpp): makePacket writes it into a buffer of 128
-- bytes, and SocksV4_serverA reads it. The length that is sent is that of the
-- user and the host, also where they did not fit.
import Delegate.VAddr
import Delegate.VStr

open ctext stores delegate.vaddr delegate.vstr

namespace delegate.socks4

/-! ## The pure model -/

def SOCKS_VERSION : Nat := 4
def SOCKS_CONNECT : Nat := 1
def SOCKS_BIND : Nat := 2
def SOCKS_RESULT : Nat := 90
def SOCKS_FAIL : Nat := 91
def SOCKS_NO_IDENTD : Nat := 92
def SOCKS_BAD_ID : Nat := 93

/-- The characters of a string. -/
def textOf (s : List Byte) : Text := s.map fun b => Char.ofNat b.toNat

/-- A string in the memory. -/
def source (s : List Byte) : Source := fun i => s.getD i 0

/-- A literal dot in the format of `sscanf`. -/
def scanDot : Text → Option Text
  | '.' :: s => some s
  | _ => none

/-- The numbers that `sscanf(s,"%d.%d.%d.%d",..)` reads, if it reads all four. -/
def scan4 (s : Text) : Option (List Int) := do
  let (a, s) ← strtol s
  let (b, s) ← strtol (← scanDot s)
  let (c, s) ← strtol (← scanDot s)
  let (d, _) ← strtol (← scanDot s)
  pure [toInt32 a, toInt32 b, toInt32 c, toInt32 d]

/-- An `int` stored as a `char`. -/
def byteOf (n : Int) : Byte := UInt8.ofNat (n % 256).toNat

/-- The version of the set of reply codes is 0. -/
def versionOf (version command : Nat) : Nat :=
  if command = SOCKS_RESULT ∨ command = SOCKS_FAIL ∨ command = SOCKS_NO_IDENTD ∨
      command = SOCKS_BAD_ID then 0
  else version

/-- What `makePacket` does: it fails, it aborts at a pointer behind the buffer, or it leaves the
memory from the buffer on and returns the length of the packet. -/
inductive Packet
  | refused
  | aborted
  | made (obuf : Int → Byte) (pc : Nat)

/-- `CStr(obuf,128)`. Addresses are those from its first byte on. -/
def obufWindow : Window := ⟨0, 128⟩

/-- The bytes of the address, and `none` where the function fails before it writes. -/
def addrBytes (forwrslv : Bool) (command : Nat) (addr : List Byte) : Option (List Byte) :=
  if forwrslv then some [0, 0, 0, 1]
  else if command = SOCKS_CONNECT ∧ textOf addr = ['0', '.', '0', '.', '0', '.', '0'] then none
  else (scan4 (textOf addr)).map fun av => av.map byteOf

def makePacket (pton6 : Text → Option Addr) (mem : Int → Byte) (version command : Nat)
    (addr : List Byte) (port : Nat) (user : List Byte) : Packet :=
  let forwrslv := !isinetAddr pton6 (textOf addr)
  match addrBytes forwrslv command addr with
  | none => .refused
  | some ip =>
    let mem := after mem (run 0 ([UInt8.ofNat (versionOf version command), UInt8.ofNat command,
      UInt8.ofNat (port / 256), UInt8.ofNat port] ++ ip))
    let mem := after mem (Xstrcpy obufWindow 8 (source user))
    let pc := 8 + user.length + 1
    if forwrslv then
      if obufWindow.TAIL < pc then .aborted
      else .made (after mem (Xstrcpy obufWindow pc (source addr))) (pc + addr.length + 1)
    else .made mem pc

/-- What `SocksV4_clientStart` writes, if it comes to that: the bytes from the buffer on. -/
def sent : Packet → Option (List Byte)
  | .made obuf pc => some ((List.range pc).map fun (i : Nat) => obuf i)
  | _ => none

/-- The loop of `fgetstr` with `n` more turns. -/
def fgetstr.loop : Nat → List Byte → Option (List Byte × List Byte)
  | 0, _ => none
  | _, [] => none
  | n + 1, ch :: fc => if ch = 0 then some ([], fc) else (loop n fc).map fun r => (ch :: r.1, r.2)

/-- The string, and what remains of the input. -/
def fgetstr (size : Nat) (fc : List Byte) : Option (List Byte × List Byte) :=
  fgetstr.loop (size - 1) fc

/-- Where a request goes: an address, or a name. -/
inductive Dest
  | addr (ip : List Byte)
  | name (host : List Byte)
  deriving DecidableEq, Repr

/-- What the server has read of a request. -/
structure Parsed where
  com : Nat
  dstport : Nat
  user : List Byte
  dst : Dest
  deriving DecidableEq, Repr

/-- The reading of a request, with what remains of the input; `none` where the server gives up. -/
def SocksV4_serverA (fc : List Byte) : Option (Parsed × List Byte) :=
  let ibuf := fc.take 8
  if ibuf.length < 8 then none
  else
    let com := (ibuf.getD 1 0).toNat
    let dstport := (ibuf.getD 2 0).toNat * 256 + (ibuf.getD 3 0).toNat
    if com ≠ SOCKS_CONNECT ∧ com ≠ SOCKS_BIND then none
    else
      match fgetstr 512 (fc.drop 8) with
      | none => none
      | some (user, fc) =>
        if ibuf.getD 4 0 = 0 ∧ ibuf.getD 5 0 = 0 ∧ ibuf.getD 6 0 = 0 ∧ ibuf.getD 7 0 ≠ 0 then
          match fgetstr 512 fc with
          | none => none
          | some (host, fc) => if host = [] then none else some (⟨com, dstport, user, .name host⟩, fc)
        else some (⟨com, dstport, user, .addr (ibuf.drop 4)⟩, fc)

/-- A request of a client: the host is the text of an IPv4 address outside of 0.0.0.0/24, or one
that `isinetAddr` rejects. -/
structure Request (pton6 : Text → Option Addr) where
  command : Nat
  port : Nat
  user : List Byte
  host : List Byte
  command_ok : command = SOCKS_CONNECT ∨ command = SOCKS_BIND
  port_lt : port < 65536
  user_nul : (0 : Byte) ∉ user
  host_nul : (0 : Byte) ∉ host
  kind : (∃ w, inet_addrV4 (textOf host) = some w ∧ w >>> 8 ≠ 0) ∨
    isinetAddr pton6 (textOf host) = false

/-- The bytes of an IPv4 address. -/
def octets (w : BitVec 32) : List Byte :=
  [UInt8.ofNat (w.toNat / 2 ^ 24), UInt8.ofNat (w.toNat / 2 ^ 16), UInt8.ofNat (w.toNat / 2 ^ 8),
    UInt8.ofNat w.toNat]

section
variable {pton6 : Text → Option Addr}

/-- The destination that the host stands for. -/
def Request.dest (r : Request pton6) : Dest :=
  match inet_addrV4 (textOf r.host) with
  | some w => .addr (octets w)
  | none => .name r.host

/-- The packet of `SocksV4_clientStart`. `mem` is the memory from `obuf` on. -/
def Request.packet (r : Request pton6) (mem : Int → Byte) : Packet :=
  makePacket pton6 mem SOCKS_VERSION r.command r.host r.port r.user

/-- Nothing is sent, or bytes of the buffer that the server reads as the request, whatever comes
after them. -/
def Request.Delivered (r : Request pton6) (mem : Int → Byte) : Prop :=
  match r.packet mem with
  | .made obuf pc => pc ≤ 128 ∧ ∀ more, SocksV4_serverA
      ((List.range pc).map (fun (i : Nat) => obuf i) ++ more) =
        some (⟨r.command, r.port, r.user, r.dest⟩, more)
  | _ => True

/-- The request fits in the buffer. An address is read in decimal by `sscanf` as it is by
`inet_addr`, or not at all; and for a name nothing is sent when the user leaves no room at all. -/
def Request.Fits (r : Request pton6) : Prop :=
  match inet_addrV4 (textOf r.host) with
  | some w => ∀ av, scan4 (textOf r.host) = some av →
      av.map byteOf = octets w ∧ r.user.length + 9 ≤ 128
  | none => 127 < r.user.length + 9 ∨ (r.host ≠ [] ∧ r.user.length + r.host.length + 10 ≤ 128)

end

/-! ## The packet in the buffer -/

theorem spells_source {t : List Byte} (h : (0 : Byte) ∉ t) : Spells (source t) t := by
  constructor
  · intro i hi
    refine ⟨List.getD_eq_getElem _ _ hi, ?_⟩
    intro h0
    exact h (h0 ▸ List.getElem_mem hi)
  · exact List.getD_eq_default _ _ (Nat.le_refl _)

/-- A string that fits is copied with its zero. -/
theorem holds_copied {t : List Byte} (h : (0 : Byte) ∉ t) (mem : Int → Byte) {d : Nat}
    (hd : d + t.length < 128) :
    HoldsStr (after mem (Xstrcpy obufWindow d (source t))) d t := by
  have htail : obufWindow.TAIL = 127 := rfl
  have hbase : obufWindow.BASE = 0 := rfl
  have hhas : obufWindow.Has d := ⟨by omega, by omega⟩
  have hholds := holds_strcpy obufWindow mem hhas (spells_source h)
  rwa [List.take_of_length_le (by omega)] at hholds

/-- A copy leaves what stands before it. -/
theorem holds_before {l : List Byte} {mem : Int → Byte} (h : Holds mem 0 l) {d : Nat}
    (hd : l.length ≤ d) (s : Source) : Holds (after mem (Xstrcpy obufWindow d s)) 0 l := by
  unfold Xstrcpy
  split
  · exact h
  · exact h.frame _ (by omega)

/-! ## The server -/

theorem fgetstr_append {t : List Byte} (h : (0 : Byte) ∉ t) {size : Nat} (hsize : t.length + 1 < size)
    (more : List Byte) : fgetstr size (t ++ 0 :: more) = some (t, more) := by
  have hloop : ∀ n, t.length < n → fgetstr.loop n (t ++ 0 :: more) = some (t, more) := by
    induction t with
    | nil =>
      intro n hn
      obtain ⟨m, rfl⟩ : ∃ m, n = m + 1 := ⟨n - 1, by rw [List.length_nil] at hn; omega⟩
      rfl
    | cons c t ih =>
      intro n hn
      rw [List.length_cons] at hn hsize
      obtain ⟨m, rfl⟩ : ∃ m, n = m + 1 := ⟨n - 1, by omega⟩
      rw [List.mem_cons, not_or] at h
      rw [List.cons_append, fgetstr.loop, if_neg (Ne.symm h.1), ih h.2 (by omega) m (by omega)]
      rfl
  exact hloop (size - 1) (by omega)

/-- What the server makes of the bytes before the name. -/
theorem server_header {t : List Byte} (h : (0 : Byte) ∉ t) (hlen : t.length ≤ 510)
    {com : Nat} (hcom : com = SOCKS_CONNECT ∨ com = SOCKS_BIND) {port : Nat} (hport : port < 65536)
    (ver i0 i1 i2 i3 : Byte) (fc : List Byte) :
    SocksV4_serverA ([ver, UInt8.ofNat com, UInt8.ofNat (port / 256), UInt8.ofNat port, i0, i1, i2, i3]
        ++ (t ++ 0 :: fc)) =
      if i0 = 0 ∧ i1 = 0 ∧ i2 = 0 ∧ i3 ≠ 0 then
        match fgetstr 512 fc with
        | none => none
        | some (host, fc) => if host = [] then none else some (⟨com, port, t, .name host⟩, fc)
      else some (⟨com, port, t, .addr [i0, i1, i2, i3]⟩, fc) := by
  have hnat : (UInt8.ofNat com).toNat = com := by
    rcases hcom with rfl | rfl <;> rfl
  have hdst : (UInt8.ofNat (port / 256)).toNat * 256 + (UInt8.ofNat port).toNat = port := by
    rw [UInt8.toNat_ofNat', UInt8.toNat_ofNat']
    omega
  have hok : ¬(com ≠ SOCKS_CONNECT ∧ com ≠ SOCKS_BIND) := by
    rintro ⟨h1, h2⟩
    exact hcom.elim h1 h2
  unfold SocksV4_serverA
  simp only [List.cons_append, List.nil_append, List.take_succ_cons, List.take_zero,
    List.length_cons, List.length_nil, List.getD_cons_succ, List.getD_cons_zero,
    List.drop_succ_cons, List.drop_zero, hnat, hdst, if_neg hok, Nat.reduceAdd, Nat.lt_irrefl,
    if_false, fgetstr_append h (by omega : t.length + 1 < 512) fc]

/-! ## One request -/

section
variable {pton6 : Text → Option Addr} (r : Request pton6)

/-- The bytes before the user. -/
def Request.header (ip : List Byte) : List Byte :=
  [UInt8.ofNat (versionOf SOCKS_VERSION r.command), UInt8.ofNat r.command,
    UInt8.ofNat (r.port / 256), UInt8.ofNat r.port] ++ ip

/-- The memory after the user is copied. -/
def Request.withUser (mem : Int → Byte) (ip : List Byte) : Int → Byte :=
  after (after mem (run 0 (r.header ip))) (Xstrcpy obufWindow 8 (source r.user))

theorem Request.holds_user (mem : Int → Byte) (ip : List Byte) (hip : ip.length = 4)
    (hlen : r.user.length + 9 ≤ 128) :
    Holds (r.withUser mem ip) 0 (r.header ip ++ (r.user ++ [0])) := by
  have hheader : (r.header ip).length = 8 := by simp [Request.header, hip]
  apply Holds.append
  · exact holds_before (holds_after_run mem 0 _) (d := 8) (by omega) _
  · rw [hheader]
    exact holds_copied r.user_nul _ (d := 8) (by omega)

theorem isinetAddr_of_v4 {s : Text} {w : BitVec 32} (h : inet_addrV4 s = some w) :
    isinetAddr pton6 s = true := by
  rw [isinetAddr, h]
  rfl

theorem v4_of_not_isinetAddr {s : Text} (h : isinetAddr pton6 s = false) : inet_addrV4 s = none := by
  cases hw : inet_addrV4 s with
  | none => rfl
  | some w =>
    rw [isinetAddr_of_v4 hw] at h
    cases h

/-- The text 0.0.0.0 is no host of a request. -/
theorem Request.addrBytes_v4 {w : BitVec 32} (hw : inet_addrV4 (textOf r.host) = some w) :
    addrBytes false r.command r.host = (scan4 (textOf r.host)).map fun av => av.map byteOf := by
  have hzero : ¬(r.command = SOCKS_CONNECT ∧
      textOf r.host = ['0', '.', '0', '.', '0', '.', '0']) := by
    rintro ⟨-, htext⟩
    rcases r.kind with ⟨w', hw', hnet⟩ | hnone
    · have haddr : inet_addrV4 ['0', '.', '0', '.', '0', '.', '0'] = some 0 := by decide +kernel
      rw [htext, haddr] at hw'
      exact hnet (Option.some.inj hw' ▸ rfl)
    · rw [v4_of_not_isinetAddr hnone] at hw
      cases hw
  rw [addrBytes, if_neg Bool.false_ne_true, if_neg hzero]

theorem length_scan4 {s : Text} {av : List Int} (h : scan4 s = some av) : av.length = 4 := by
  unfold scan4 at h
  simp only [Option.bind_eq_bind, Option.bind_eq_some_iff, Option.pure_def, Option.some.injEq] at h
  obtain ⟨a, -, s1, -, b, -, s2, -, c, -, s3, -, d, -, rfl⟩ := h
  rfl

/-- The packet for an address. -/
theorem Request.packet_v4 {w : BitVec 32} (hw : inet_addrV4 (textOf r.host) = some w)
    (mem : Int → Byte) :
    r.packet mem = match scan4 (textOf r.host) with
      | none => .refused
      | some av => .made (r.withUser mem (av.map byteOf)) (8 + r.user.length + 1) := by
  have haddr := r.addrBytes_v4 hw
  unfold Request.packet makePacket
  rw [isinetAddr_of_v4 hw, Bool.not_true]
  dsimp only
  rw [haddr]
  cases scan4 (textOf r.host) with
  | none => rfl
  | some av => rfl

/-- The packet for a name. -/
theorem Request.packet_name (hw : isinetAddr pton6 (textOf r.host) = false) (mem : Int → Byte) :
    r.packet mem = if 127 < 8 + r.user.length + 1 then .aborted
      else .made (after (r.withUser mem [0, 0, 0, 1])
        (Xstrcpy obufWindow (8 + r.user.length + 1 : Nat) (source r.host)))
        (8 + r.user.length + 1 + r.host.length + 1) := by
  have htail : (obufWindow.TAIL < (8 + r.user.length + 1 : Nat)) ↔ 127 < 8 + r.user.length + 1 := by
    have htail : obufWindow.TAIL = 127 := rfl
    omega
  unfold Request.packet makePacket
  rw [hw]
  simp only [Bool.not_false, addrBytes, if_true, htail]
  rfl

theorem octets_ne {w : BitVec 32} (h : w >>> 8 ≠ 0) :
    ¬(UInt8.ofNat (w.toNat / 2 ^ 24) = 0 ∧ UInt8.ofNat (w.toNat / 2 ^ 16) = 0 ∧
      UInt8.ofNat (w.toNat / 2 ^ 8) = 0) := by
  rintro ⟨h0, h1, h2⟩
  apply h
  have hlt := w.isLt
  have hnat : ∀ n, UInt8.ofNat n = 0 → n % 256 = 0 := by
    intro n hn
    have := congrArg UInt8.toNat hn
    rwa [UInt8.toNat_ofNat'] at this
  have := hnat _ h0
  have := hnat _ h1
  have := hnat _ h2
  apply BitVec.eq_of_toNat_eq
  rw [BitVec.toNat_ushiftRight, Nat.shiftRight_eq_div_pow]
  simp only [BitVec.ofNat_eq_ofNat, BitVec.toNat_ofNat]
  omega

theorem Request.delivered_v4_iff {w : BitVec 32} (hw : inet_addrV4 (textOf r.host) = some w)
    (mem : Int → Byte) :
    r.Delivered mem ↔ ∀ av, scan4 (textOf r.host) = some av →
      av.map byteOf = octets w ∧ r.user.length + 9 ≤ 128 := by
  have hnet : w >>> 8 ≠ 0 := by
    rcases r.kind with ⟨w', hw', hnet⟩ | hnone
    · rw [hw] at hw'
      exact Option.some.inj hw' ▸ hnet
    · rw [isinetAddr_of_v4 hw] at hnone
      cases hnone
  have hdest : r.dest = .addr (octets w) := by rw [Request.dest, hw]
  unfold Request.Delivered
  rw [r.packet_v4 hw, hdest]
  cases hscan : scan4 (textOf r.host) with
  | none => simp
  | some av =>
    have hav := length_scan4 hscan
    simp only [Option.some.injEq, forall_eq']
    by_cases hlen : r.user.length + 9 ≤ 128
    · obtain ⟨i0, i1, i2, i3, hip⟩ : ∃ i0 i1 i2 i3, av.map byteOf = [i0, i1, i2, i3] := by
        match av, hav with
        | [a, b, c, d], _ => exact ⟨_, _, _, _, rfl⟩
      have hholds := (r.holds_user mem (av.map byteOf) (by rw [hip]; rfl) hlen).map_range
      have hpc : (r.header (av.map byteOf) ++ (r.user ++ [0])).length = 8 + r.user.length + 1 := by
        simp [Request.header, hav]
        omega
      simp only [hpc, zero_add] at hholds
      rw [hholds]
      have hserver := fun more => server_header r.user_nul (by omega) r.command_ok r.port_lt
        (UInt8.ofNat (versionOf SOCKS_VERSION r.command)) i0 i1 i2 i3 more
      have hbytes : ∀ more, r.header (av.map byteOf) ++ (r.user ++ [0]) ++ more =
          [UInt8.ofNat (versionOf SOCKS_VERSION r.command), UInt8.ofNat r.command,
            UInt8.ofNat (r.port / 256), UInt8.ofNat r.port, i0, i1, i2, i3] ++
            (r.user ++ 0 :: more) := by
        intro more
        simp [Request.header, hip]
      constructor
      · rintro ⟨-, hall⟩
        refine ⟨?_, hlen⟩
        have hone := hall []
        rw [hbytes, hserver] at hone
        split at hone
        · cases hone
        · rw [hip]
          simpa using hone
      · rintro ⟨hsame, -⟩
        refine ⟨by omega, ?_⟩
        intro more
        rw [hip] at hsame
        have hzero : ¬(i0 = 0 ∧ i1 = 0 ∧ i2 = 0 ∧ i3 ≠ 0) := by
          rintro ⟨h0, h1, h2, -⟩
          simp only [octets, List.cons.injEq] at hsame
          obtain ⟨e0, e1, e2, -⟩ := hsame
          exact octets_ne hnet ⟨e0 ▸ h0, e1 ▸ h1, e2 ▸ h2⟩
        rw [hbytes, hserver, if_neg hzero, hsame]
    · constructor
      · rintro ⟨hpc, -⟩
        omega
      · rintro ⟨-, hle⟩
        exact absurd hle hlen

theorem Request.delivered_name_iff (hw : isinetAddr pton6 (textOf r.host) = false)
    (mem : Int → Byte) :
    r.Delivered mem ↔ 127 < r.user.length + 9 ∨
      (r.host ≠ [] ∧ r.user.length + r.host.length + 10 ≤ 128) := by
  have hdest : r.dest = .name r.host := by rw [Request.dest, v4_of_not_isinetAddr hw]
  unfold Request.Delivered
  rw [r.packet_name hw, hdest]
  by_cases habort : 127 < 8 + r.user.length + 1
  · rw [if_pos habort]
    exact ⟨fun _ => .inl (by omega), fun _ => trivial⟩
  rw [if_neg habort]
  dsimp only
  by_cases hlen : r.user.length + r.host.length + 10 ≤ 128
  · have hholds := r.holds_user mem [0, 0, 0, 1] rfl (by omega)
    have hpc : (r.header [0, 0, 0, 1] ++ (r.user ++ [0])).length = 8 + r.user.length + 1 := by
      simp [Request.header]
      omega
    have hname := holds_copied r.host_nul (r.withUser mem [0, 0, 0, 1])
      (d := 8 + r.user.length + 1) (by omega)
    have hall := (Holds.append (holds_before hholds (d := 8 + r.user.length + 1) (by omega)
      (source r.host)) (by rw [hpc]; simpa [HoldsStr] using hname)).map_range
    have hlength : (r.header [0, 0, 0, 1] ++ (r.user ++ [0]) ++ (r.host ++ [0])).length =
        8 + r.user.length + 1 + r.host.length + 1 := by
      rw [List.length_append, hpc, List.length_append]
      rfl
    simp only [hlength, zero_add] at hall
    rw [hall]
    have hserver : ∀ more, SocksV4_serverA
        (r.header [0, 0, 0, 1] ++ (r.user ++ [0]) ++ (r.host ++ [0]) ++ more) =
          if r.host = [] then none
          else some (⟨r.command, r.port, r.user, .name r.host⟩, more) := by
      intro more
      have hbytes : r.header [0, 0, 0, 1] ++ (r.user ++ [0]) ++ (r.host ++ [0]) ++ more =
          [UInt8.ofNat (versionOf SOCKS_VERSION r.command), UInt8.ofNat r.command,
            UInt8.ofNat (r.port / 256), UInt8.ofNat r.port, 0, 0, 0, 1] ++
            (r.user ++ 0 :: (r.host ++ 0 :: more)) := by
        simp [Request.header]
      rw [hbytes, server_header r.user_nul (by omega) r.command_ok r.port_lt,
        if_pos (by decide), fgetstr_append r.host_nul (by omega) more]
    constructor
    · rintro ⟨-, hread⟩
      refine .inr ⟨?_, hlen⟩
      intro hnil
      have hone := hread []
      rw [hserver, if_pos hnil] at hone
      cases hone
    · rintro (hno | ⟨hne, -⟩)
      · exact absurd (by omega) habort
      · refine ⟨by omega, ?_⟩
        intro more
        rw [hserver, if_neg hne]
  · constructor
    · rintro ⟨hpc, -⟩
      omega
    · rintro (hno | ⟨-, hle⟩)
      · exact absurd (by omega) habort
      · exact absurd hle hlen

/-- A request is read by the server as it was meant, or not sent, if and only if it fits. -/
theorem Request.delivered_iff (mem : Int → Byte) : r.Delivered mem ↔ r.Fits := by
  rcases r.kind with ⟨w, hw, -⟩ | hnone
  · rw [r.delivered_v4_iff hw, Request.Fits, hw]
  · rw [r.delivered_name_iff hnone, Request.Fits, v4_of_not_isinetAddr hnone]

end

/-- CONNECT to port 80 of a host of one letter, from a user of `n` letters. -/
def toX (n : Nat) : Request fun _ => none where
  command := SOCKS_CONNECT
  port := 80
  user := List.replicate n 117
  host := [120]
  command_ok := .inl rfl
  port_lt := by decide
  user_nul := by simp
  host_nul := by simp
  kind := .inr (by decide +kernel)

/-- BIND for 010.0.0.1, which `inet_addr` reads in octal. -/
def toOctal : Request fun _ => none where
  command := SOCKS_BIND
  port := 0
  user := []
  host := [48, 49, 48, 46, 48, 46, 48, 46, 49]
  command_ok := .inr rfl
  port_lt := by decide
  user_nul := by simp
  host_nul := by simp
  kind := .inl ⟨0x08000001, by decide +kernel, by decide⟩

/-- With a user of 118 letters, the packet is one byte longer than the buffer; and 010.0.0.1 is
sent as 10.0.0.1. -/
theorem long_user_not_delivered :
    ¬(toX 118).Delivered (fun _ => 0) ∧ ¬toOctal.Delivered (fun _ => 0) := by
  constructor
  · rw [(toX 118).delivered_name_iff (by decide +kernel)]
    rintro (h | ⟨-, h⟩) <;> simp [toX] at h
  · have hw : inet_addrV4 (textOf toOctal.host) = some 0x08000001 := by decide +kernel
    have hscan : scan4 (textOf toOctal.host) = some [10, 0, 0, 1] := by decide +kernel
    rw [toOctal.delivered_v4_iff hw]
    intro h
    exact absurd (h _ hscan).1 (by decide)

end delegate.socks4
