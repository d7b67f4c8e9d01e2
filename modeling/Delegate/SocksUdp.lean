-- UDP over SOCKS5: the header before the payload of a datagram, as the client
-- side and the relay build it and strip it. The length of the header is taken
-- to be that of IPv4.
import Delegate.DnsReply

open reads
open delegate.dns (Octet Bytes AF)

namespace delegate.socks

/-! ## Addresses -/

/-- An address and a port, in network byte order. -/
structure VSAddr where
  family : AF
  addr : Bytes
  port : Bytes
  addrLen : addr.length = if family = .inet6 then 16 else 4
  portLen : port.length = 2
  deriving DecidableEq

/-- The bytes of the memory from `p` on. -/
def bytes (mem : Nat → Octet) (p n : Nat) : Bytes := (span mem p n).val

theorem length_bytes (mem : Nat → Octet) (p n : Nat) : (bytes mem p n).length = n := by
  simp [bytes, span]

/-- `VSA_stosa` of the bytes at `p`. -/
def VSA_stosa (atype : AF) (mem : Nat → Octet) (p : Nat) : VSAddr :=
  if h : atype = .inet6 then
    ⟨atype, bytes mem p 16, bytes mem (p + 16) 2, by simp [h, length_bytes], length_bytes _ _ _⟩
  else ⟨atype, bytes mem p 4, bytes mem (p + 4) 2, by simp [h, length_bytes], length_bytes _ _ _⟩

def VSA_stosaX (resp : Nat → Octet) : VSAddr :=
  VSA_stosa (if resp 3 = 4 then .inet6 else .inet) resp 4

/-- `VSA_comp` is 0. It does not look at IPv6 addresses. -/
def sameAddr (a b : VSAddr) : Bool :=
  a.family == b.family && a.port == b.port && (a.family == .inet6 || a.addr == b.addr)

/-- `VSA_addr` is 0. -/
def noAddr (a : VSAddr) : Bool := (a.addr.drop (a.addr.length - 4)).all (· == 0)

/-! ## Datagrams -/

/-- The datagram that `SOCKS_sendto0` sends. -/
def SOCKS_sendto0 (msg : Bytes) (dst : VSAddr) : Bytes :=
  [0, 0, 0, if dst.family = .inet6 then 4 else 1] ++ dst.addr ++ dst.port ++ msg

/-- `SOCKS_gotudp`: the address, the value and the buffer after it. -/
def SOCKS_gotudp (msg : Nat → Octet) (rcc : Nat) : VSAddr × Int × (Nat → Octet) :=
  (VSA_stosaX msg, rcc - 10, poke msg 0 (bytes msg 10 (rcc - 10)))

/-- The relay between a client and servers. -/
structure Relay where
  /-- One socket is used for the client and for servers. -/
  shared : Bool
  clnt : VSAddr
  /-- Nothing was received yet. -/
  first : Bool
  /-- Datagrams go through another SOCKS server as they are. -/
  viaSocks : Bool
  serv : Option VSAddr
  rbuf : Nat → Octet

/-- How another SOCKS server is chosen and asked for an association. -/
structure Upstream where
  selectSockServ : Bytes → Bool
  setupSockServ : Bytes → Option VSAddr

inductive Event
  | clnt (src : VSAddr) (dgram : Bytes)
  | serv (src : VSAddr) (dgram : Bytes)

inductive Sent
  | toClient (dst : VSAddr) (dgram : Bytes)
  | toServer (dst : VSAddr) (dgram : Bytes)
  deriving DecidableEq

def sizeofRbuf : Nat := 8 * 1024

def hlen : Nat := 10

/-- From `SV2CL` on: a datagram of `rcc` bytes from a server is in the buffer, after the place for
the header. -/
def sv2cl (r : Relay) (src : VSAddr) (rcc : Nat) : Relay × Option Sent :=
  if r.viaSocks then (r, some (.toClient r.clnt (bytes r.rbuf hlen rcc)))
  else
    let rbuf := poke r.rbuf 0 [0, 0, 0, 1]
    let rbuf := poke rbuf 4 src.addr
    let rbuf := poke rbuf (4 + src.addr.length) src.port
    ({ r with rbuf },
      some (.toClient r.clnt (bytes rbuf 0 (4 + src.addr.length + src.port.length + rcc))))

/-- A datagram of the client is sent to its destination. -/
def direct (r : Relay) (rcc : Nat) : Relay × Option Sent :=
  (r, if rcc < hlen then none
    else some (.toServer (VSA_stosaX r.rbuf) (bytes r.rbuf hlen (rcc - hlen))))

/-- A datagram of the client is in the buffer. -/
def cl2sv (up : Upstream) (r : Relay) (dgram : Bytes) (first : Bool) : Relay × Option Sent :=
  let viaSocks := r.viaSocks || (first && up.selectSockServ dgram)
  if viaSocks then
    match r.serv.or (up.setupSockServ dgram) with
    | none => direct { r with viaSocks } dgram.length
    | some serv =>
      ({ r with viaSocks, serv := some serv }, some (.toServer serv (bytes r.rbuf 0 dgram.length)))
  else direct r dgram.length

/-- One datagram in the loop of `udp_relay_socks`. The loop ends at an empty one. -/
def relayStep (up : Upstream) (r : Relay) : Event → Option (Relay × Option Sent)
  | .clnt src dgram =>
    let dgram := dgram.take sizeofRbuf
    if dgram = [] then none
    else
      let r' := { r with rbuf := poke r.rbuf 0 dgram, first := false }
      let zeros := dgram.getD 0 (r.rbuf 0) = 0 ∧ dgram.getD 1 (r.rbuf 1) = 0
      if noAddr r.clnt ∨ (r.first ∧ zeros) then
        some (cl2sv up { r' with clnt := src } dgram r.first)
      else if sameAddr r.clnt src then some (cl2sv up r' dgram r.first)
      else if r.shared ∨ ¬zeros then
        some (sv2cl { r' with rbuf := poke r'.rbuf hlen dgram } src dgram.length)
      else some (r', none)
  | .serv src dgram =>
    let dgram := dgram.take (sizeofRbuf - hlen)
    if dgram = [] then none
    else
      some (sv2cl { r with rbuf := poke r.rbuf hlen dgram, first := false } src dgram.length)

/-! ## Headers -/

theorem length_sendto0 (msg : Bytes) (a : VSAddr) :
    (SOCKS_sendto0 msg a).length = 6 + a.addr.length + msg.length := by
  have hport := a.portLen
  unfold SOCKS_sendto0
  simp only [List.length_append, List.length_cons, List.length_nil]
  omega

/-- The memory holds the parts of the datagram. -/
theorem at_sendto0 {mem : Nat → Octet} {msg : Bytes} {a : VSAddr} :
    At mem 0 (SOCKS_sendto0 msg a) ↔
      At mem 0 [0, 0, 0, if a.family = .inet6 then 4 else 1] ∧ At mem 4 a.addr ∧
        At mem (4 + a.addr.length) a.port ∧ At mem (6 + a.addr.length) msg := by
  have hport := a.portLen
  unfold SOCKS_sendto0
  simp only [at_append, List.length_append, List.length_cons, List.length_nil, hport]
  have h4 : 0 + (0 + 1 + 1 + 1 + 1) = 4 := rfl
  have hp : 0 + (0 + 1 + 1 + 1 + 1 + a.addr.length) = 4 + a.addr.length := by omega
  have hm : 0 + (0 + 1 + 1 + 1 + 1 + a.addr.length + 2) = 6 + a.addr.length := by omega
  rw [h4, hp, hm, and_assoc, and_assoc]

theorem bytes_at {mem : Nat → Octet} {p n : Nat} {l : Bytes} (h : At mem p l) (hn : n = l.length) :
    bytes mem p n = l := by
  subst hn
  exact at_iff_span.mp h

/-- The address is read back from the header, for both types. -/
theorem stosaX_sendto0 {mem : Nat → Octet} {msg : Bytes} {a : VSAddr}
    (h : At mem 0 (SOCKS_sendto0 msg a)) : VSA_stosaX mem = a := by
  obtain ⟨hhead, haddr, hport, -⟩ := at_sendto0.mp h
  have htype : mem 3 = if a.family = .inet6 then 4 else 1 := hhead 3 (by simp)
  obtain ⟨family, addr, port, addrLen, portLen⟩ := a
  unfold VSA_stosaX VSA_stosa
  cases family with
  | inet =>
    have hlen : addr.length = 4 := addrLen
    rw [hlen] at hport
    have hadr : bytes mem 4 4 = addr := bytes_at haddr hlen.symm
    have hprt : bytes mem 8 2 = port := bytes_at hport portLen.symm
    simp [htype, hadr, hprt]
  | inet6 =>
    have hlen : addr.length = 16 := addrLen
    rw [hlen] at hport
    have hadr : bytes mem 4 16 = addr := bytes_at haddr hlen.symm
    have hprt : bytes mem 20 2 = port := bytes_at hport portLen.symm
    simp [htype, hadr, hprt]

theorem length_addr_iff (a : VSAddr) : a.addr.length = 4 ↔ a.family = .inet := by
  have hlen := a.addrLen
  cases hf : a.family with
  | inet =>
    rw [hf] at hlen
    simpa using hlen
  | inet6 =>
    rw [hf] at hlen
    simp [hlen]

/-! ## Reversibility -/

/-- No other SOCKS server is used. -/
def Direct (up : Upstream) (r : Relay) : Prop := r.viaSocks = false ∧ ∀ p, up.selectSockServ p = false

/-- A datagram with a SOCKS header from the client, or from anyone while there is no client. -/
def FromClient (r : Relay) (src : VSAddr) : Prop :=
  noAddr r.clnt = true ∨ r.first = true ∨ sameAddr r.clnt src = true

/-- The socket of the client is used for servers too, and the server is not the client. -/
def FromServer (r : Relay) (src : VSAddr) : Prop :=
  r.shared = true ∧ r.first = false ∧ noAddr r.clnt = false ∧ sameAddr r.clnt src = false

/-- The encapsulation of the payload for the address is reversible. -/
structure Reversible (a : VSAddr) (payload : Bytes) : Prop where
  got : ∀ msg, At msg 0 (SOCKS_sendto0 payload a) →
    (SOCKS_gotudp msg (SOCKS_sendto0 payload a).length).1 = a ∧
      (SOCKS_gotudp msg (SOCKS_sendto0 payload a).length).2.1 = payload.length ∧
      At (SOCKS_gotudp msg (SOCKS_sendto0 payload a).length).2.2 0 payload
  reply : ∀ up r, Direct up r → ∃ r', relayStep up r (.serv a payload) =
    some (r', some (.toClient r.clnt (SOCKS_sendto0 payload a)))
  shared : ∀ up r, Direct up r → FromServer r a → ∃ r', relayStep up r (.clnt a payload) =
    some (r', some (.toClient r.clnt (SOCKS_sendto0 payload a)))
  request : ∀ up r client, Direct up r → FromClient r client →
    ∃ r', relayStep up r (.clnt client (SOCKS_sendto0 payload a)) =
      some (r', some (.toServer a payload))

theorem got_inet {a : VSAddr} (ha : a.family = .inet) {payload : Bytes} {msg : Nat → Octet}
    (h : At msg 0 (SOCKS_sendto0 payload a)) :
    (SOCKS_gotudp msg (SOCKS_sendto0 payload a).length).1 = a ∧
      (SOCKS_gotudp msg (SOCKS_sendto0 payload a).length).2.1 = payload.length ∧
      At (SOCKS_gotudp msg (SOCKS_sendto0 payload a).length).2.2 0 payload := by
  have hlen := (length_addr_iff a).mpr ha
  obtain ⟨-, -, -, hpay⟩ := at_sendto0.mp h
  rw [hlen] at hpay
  unfold SOCKS_gotudp
  rw [length_sendto0, hlen]
  refine ⟨stosaX_sendto0 h, ?_, ?_⟩
  · dsimp only
    omega
  · dsimp only
    rw [bytes_at hpay (by omega)]
    exact at_poke _ _ _

/-- The header of an IPv4 address fits in its place before the payload. -/
theorem sv2cl_inet {a : VSAddr} (ha : a.family = .inet) {payload : Bytes} {r : Relay}
    (hvia : r.viaSocks = false) (h : At r.rbuf hlen payload) :
    ∃ r', sv2cl r a payload.length = (r', some (.toClient r.clnt (SOCKS_sendto0 payload a))) := by
  have hlen' := (length_addr_iff a).mpr ha
  have hport := a.portLen
  have hat : At (poke (poke (poke r.rbuf 0 [0, 0, 0, 1]) 4 a.addr) (4 + a.addr.length) a.port) 0
      (SOCKS_sendto0 payload a) := by
    rw [at_sendto0, hlen', ha]
    refine ⟨?_, ?_, at_poke _ _ _, ?_⟩
    · exact ((at_poke _ _ _).poke (.inl (by simp))).poke (.inl (by simp))
    · exact (at_poke _ _ _).poke (.inl (by omega))
    · apply ((h.poke (.inr _)).poke (.inr _)).poke (.inr _)
      · simp [hlen]
      · simp [hlen, hlen']
      · simp [hlen, hport]
  unfold sv2cl
  rw [hvia, if_neg Bool.false_ne_true]
  dsimp only
  rw [bytes_at hat (by rw [length_sendto0]; omega)]
  exact ⟨_, rfl⟩

theorem sendto0_zeros (payload : Bytes) (a : VSAddr) (x y : Octet) :
    (SOCKS_sendto0 payload a).getD 0 x = 0 ∧ (SOCKS_sendto0 payload a).getD 1 y = 0 := ⟨rfl, rfl⟩

/-- A datagram with the header of an IPv4 address goes to its destination. -/
theorem cl2sv_inet {a : VSAddr} (ha : a.family = .inet) {payload : Bytes} {up : Upstream}
    {r : Relay} (first : Bool) (hdirect : Direct up r)
    (h : At r.rbuf 0 (SOCKS_sendto0 payload a)) :
    cl2sv up r (SOCKS_sendto0 payload a) first = (r, some (.toServer a payload)) := by
  obtain ⟨hvia, hselect⟩ := hdirect
  have hlen' := (length_addr_iff a).mpr ha
  obtain ⟨-, -, -, hpay⟩ := at_sendto0.mp h
  rw [hlen'] at hpay
  change At r.rbuf hlen payload at hpay
  have hdirect : direct r (SOCKS_sendto0 payload a).length = (r, some (.toServer a payload)) := by
    unfold direct
    rw [length_sendto0, hlen', if_neg (by unfold hlen; omega), stosaX_sendto0 h,
      bytes_at hpay (by unfold hlen; omega)]
  unfold cl2sv
  simp only [hvia, hselect, Bool.and_false, Bool.or_false, if_neg Bool.false_ne_true, hdirect]

theorem reversible_inet {a : VSAddr} (ha : a.family = .inet) {payload : Bytes} (hne : payload ≠ [])
    (hfit : (SOCKS_sendto0 payload a).length ≤ sizeofRbuf) : Reversible a payload := by
  have hlen' := (length_addr_iff a).mpr ha
  rw [length_sendto0, hlen'] at hfit
  refine ⟨fun msg h => got_inet ha h, ?_, ?_, ?_⟩
  · rintro up r ⟨hvia, -⟩
    have htake : payload.take (sizeofRbuf - hlen) = payload :=
      List.take_of_length_le (by unfold hlen; omega)
    obtain ⟨r', hr'⟩ := @sv2cl_inet a ha payload
      { r with rbuf := poke r.rbuf hlen payload, first := false } hvia (at_poke _ _ _)
    unfold relayStep
    simp only [htake, if_neg hne, hr']
    exact ⟨r', rfl⟩
  · rintro up r ⟨hvia, -⟩ ⟨hshared, hfirst, hset, hother⟩
    have htake : payload.take sizeofRbuf = payload := List.take_of_length_le (by omega)
    obtain ⟨r', hr'⟩ := @sv2cl_inet a ha payload
      { r with rbuf := poke (poke r.rbuf 0 payload) hlen payload, first := false } hvia
      (at_poke _ _ _)
    unfold relayStep
    dsimp only
    rw [htake, if_neg hne, if_neg (by simp [hset, hfirst]), if_neg (by simp [hother]),
      if_pos (.inl hshared), hr']
    exact ⟨r', rfl⟩
  · rintro up r client hdirect hclient
    have htake : (SOCKS_sendto0 payload a).take sizeofRbuf = SOCKS_sendto0 payload a :=
      List.take_of_length_le (by rw [length_sendto0]; omega)
    have hne' : SOCKS_sendto0 payload a ≠ [] := by
      unfold SOCKS_sendto0
      simp
    unfold relayStep
    dsimp only
    rw [htake, if_neg hne']
    by_cases hset : noAddr r.clnt = true ∨ r.first = true ∧
        (SOCKS_sendto0 payload a).getD 0 (r.rbuf 0) = 0 ∧
          (SOCKS_sendto0 payload a).getD 1 (r.rbuf 1) = 0
    · rw [if_pos hset, cl2sv_inet ha _ (by exact hdirect) (at_poke _ _ _)]
      exact ⟨_, rfl⟩
    · have hsame : sameAddr r.clnt client = true := by
        rcases hclient with h | h | h
        · exact absurd (.inl h) hset
        · exact absurd (.inr ⟨h, sendto0_zeros payload a _ _⟩) hset
        · exact h
      rw [if_neg hset, if_pos hsame, cl2sv_inet ha _ (by exact hdirect) (at_poke _ _ _)]
      exact ⟨_, rfl⟩

/-- The encapsulation is reversible exactly for IPv4 addresses and payloads that are not
empty. -/
theorem reversible_iff (a : VSAddr) (payload : Bytes)
    (hfit : (SOCKS_sendto0 payload a).length ≤ sizeofRbuf) :
    Reversible a payload ↔ a.family = .inet ∧ payload ≠ [] := by
  constructor
  · intro h
    refine ⟨?_, ?_⟩
    · have hat : At (fun i => (SOCKS_sendto0 payload a).getD i 0) 0 (SOCKS_sendto0 payload a) := by
        intro i hi
        simp [hi]
      obtain ⟨-, hval, -⟩ := h.got _ hat
      unfold SOCKS_gotudp at hval
      dsimp only at hval
      rw [length_sendto0] at hval
      rw [← length_addr_iff]
      omega
    · -- the relay ends at an empty datagram of a server
      rintro rfl
      obtain ⟨r', hr'⟩ := h.reply ⟨fun _ => false, fun _ => none⟩
        ⟨false, a, false, false, none, fun _ => 0⟩ ⟨rfl, fun _ => rfl⟩
      cases hr'
  · rintro ⟨ha, hne⟩
    exact reversible_inet ha hne hfit

def loopback6 : VSAddr := ⟨.inet6, [0, 0, 0, 0, 0, 0, 0, 0, 0, 0, 0, 0, 0, 0, 0, 1], [0, 53], rfl, rfl⟩

def loopback4 : VSAddr := ⟨.inet, [127, 0, 0, 1], [0, 53], rfl, rfl⟩

theorem reversible_iff_loopback :
    Reversible loopback4 [104, 105] ↔ loopback4.family = .inet ∧ ([104, 105] : Bytes) ≠ [] :=
  reversible_iff loopback4 [104, 105] (by decide)

/-- The payload of two bytes for an IPv6 address comes back as 14 bytes. -/
theorem loopback6_not_stripped :
    (SOCKS_gotudp (fun i => (SOCKS_sendto0 [104, 105] loopback6).getD i 0)
        (SOCKS_sendto0 [104, 105] loopback6).length).2.1 = 14 ∧
      ¬Reversible loopback6 [104, 105] := by
  refine ⟨by decide, ?_⟩
  intro h
  obtain ⟨-, hval, -⟩ := h.got (fun i => (SOCKS_sendto0 [104, 105] loopback6).getD i 0)
    (at_iff_span.mpr (by decide))
  exact absurd hval (by decide)

end delegate.socks
