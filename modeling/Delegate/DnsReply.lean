-- The replies of the DNS server (`dns_search`): a header, the question of the
-- query, and records from host lookups and from the cache. The records are put
-- in `RRbuf`, and the data of some of them in `rbuff` before.
import Delegate.DnsBounds
import Delegate.DnsBuffer
import Delegate.DnsLookup

open reads
open delegate.dnsnode (typemask)

namespace delegate.dns

/-! ## The question -/

/-- `makeQuestion`. A name of less than 512 bytes has room in the buffer of a reply. -/
def makeQuestion (name : Bytes) (type xclass : Nat) : Option Bytes :=
  if putName name = [0] then none else some (putName name ++ putShort type ++ putShort xclass)

/-! ## The header -/

def H_QR (M : Nat) : Nat := (M &&& 0x8000) >>> 15
def H_OPCODE (M : Nat) : Nat := (M &&& 0x7800) >>> 11
def H_RD (M : Nat) : Nat := (M &&& 0x0100) >>> 8
def H_RCODE (M : Nat) : Nat := M &&& 0xF

/-- A field of the header is set to `v`. -/
def setField (mask shift M v : Nat) : Nat := (M &&& (0xFFFF ^^^ mask)) ||| (mask &&& (v <<< shift))

def SET_QR : Nat → Nat → Nat := setField 0x8000 15
def SET_OPCODE : Nat → Nat → Nat := setField 0x7800 11
def SET_AA : Nat → Nat → Nat := setField 0x0400 10
def SET_RD : Nat → Nat → Nat := setField 0x0100 8
def SET_RA : Nat → Nat → Nat := setField 0x0080 7
def SET_RCODE : Nat → Nat → Nat := setField 0x000F 0

/-! ## Lookups -/

inductive AF
  | inet
  | inet6
  deriving DecidableEq, Repr

/-- The addresses have the length that the host tells. -/
structure Hostent where
  h_name : Bytes
  h_addrtype : AF
  h_length : Nat
  h_addr_list : List Bytes
  lengths : ∀ a ∈ h_addr_list, a.length = h_length

/-- The data of a record in the cache. Only the types that `dumpResourceRecord` knows get
there. -/
structure Cached where
  data : Bytes
  known : knownType (data.getD 0 0).toNat CL_IN = true

def Cached.type (a : Cached) : Nat := (a.data.getD 0 0).toNat

/-- Four bytes of the data. -/
def Cached.long (a : Cached) (i : Nat) : UInt32 :=
  ((a.data.getD i 0).toUInt32 <<< 24) ||| ((a.data.getD (i + 1) 0).toUInt32 <<< 16) |||
    ((a.data.getD (i + 2) 0).toUInt32 <<< 8) ||| (a.data.getD (i + 3) 0).toUInt32

/-- The lookups of hosts, names and cached records, on the state `σ` of the resolver. `rbuff` and
`RRbuf` are what stood in the two buffers, and behind them, where something is put in them. -/
structure Lookups (σ : Type) where
  gethostbyNX : Bytes → Option Bytes → StateM σ (Option Hostent)
  GETHOSTBYADDR : Bytes → AF → StateM σ (Option Hostent)
  getRRbynameaddr : Bytes → Nat → StateM σ Unit
  DNS_getbyname : Bytes → σ → Nat
  DNS_getattr : Nat → UInt32 → σ → List Cached
  DNS_nodename : UInt32 → σ → Bytes
  LastSOAdom : σ → Bytes
  RES_CACHED_UNKNOWN : σ → Bool
  clearUnknown : σ → σ
  RES_proxy : σ → Bool
  VSA_dnstosa : Bytes → Option (Bytes × AF)
  rbuff : σ → Put → Bytes
  RRbuf : σ → Put → Bytes

/-- The configuration. `DNSCONF` is scanned in pieces of at most 127 bytes. -/
structure Conf where
  DNS_DOMAIN : Bytes
  DNS_ORIGIN : Bytes
  DNS_ADMIN : Bytes
  DNS_MX : Option Bytes
  DNS_SERIAL : UInt32
  DNS_REFRESH : UInt32
  DNS_RETRY : UInt32
  DNS_EXPIRE : UInt32
  DNS_MINTTL : UInt32
  domain : DNS_DOMAIN.length < 128

/-! ## Records -/

/-- What a call puts: the count of records it returns, the records from `*rrpp` on, and the most
bytes that their data need in `rbuff`. -/
structure Out where
  anc : Nat := 0
  rrs : List PutRR := []
  rbuff : Nat := 0
  deriving DecidableEq, Repr

/-- The bytes of the records where they have room. -/
def Out.rr (o : Out) : Bytes := o.rrs.flatMap PutRR.bytes

def Out.next (a b : Out) : Out := ⟨a.anc + b.anc, a.rrs ++ b.rrs, max a.rbuff b.rbuff⟩

/-- One record with data that are not from `rbuff`. -/
def outAddr (name : Bytes) (type : Nat) (ttl : UInt32) (data : Bytes) : Out :=
  { anc := 1, rrs := [⟨name, type, ttl, data⟩] }

/-- One record with data that are put in `rbuff` of 512 bytes. -/
def outData (found : Put → Bytes) (name : Bytes) (type : Nat) (ttl : UInt32) (data : List Put) :
    Out :=
  { anc := 1
    rrs := [⟨name, type, ttl, runs 512 found [] data⟩]
    rbuff := (data.flatMap Put.bytes).length }

def outs (l : List Out) : Out := l.foldr Out.next {}

/-- The text `pat` in a text, up to case. -/
def strcasestr (s pat : Bytes) : Bool :=
  let lower (c : Octet) : Octet := if 65 ≤ c ∧ c ≤ 90 then c + 32 else c
  s.tails.any fun t => (pat.map lower).isPrefixOf (t.map lower)

/-- The name without its labels that begin with `_`. -/
def serviceDomain : Bytes → Bytes
  | [] => []
  | c :: hp =>
    if c = 95 then
      if (46 : Octet) ∈ c :: hp then serviceDomain (((c :: hp).dropWhile (· != 46)).drop 1)
      else c :: hp
    else c :: hp
termination_by hp => hp.length
decreasing_by
  have hdrop := (List.dropWhile_suffix (l := c :: hp) (· != 46)).length_le
  simp only [List.length_drop, List.length_cons] at hdrop ⊢
  omega

section Records
variable {σ : Type} (L : Lookups σ) (cf : Conf)

def putRR_A (name : Bytes) : StateM σ Out := do
  match ← L.gethostbyNX name (some (ascii "4")) with
  | none => pure {}
  | some ht =>
    if ht.h_addrtype = .inet6 then pure {}
    else pure (outs (ht.h_addr_list.map (outAddr name TY_A cf.DNS_MINTTL)))

def putRR_AAAA (name : Bytes) : StateM σ Out := do
  match ← L.gethostbyNX ((ascii "-AAAA." ++ name).take 511) (some (ascii "6")) with
  | none => pure {}
  | some ht => pure (outs (ht.h_addr_list.map (outAddr name TY_AAAA cf.DNS_MINTTL)))

/-- The loop of `putRR_name` over the addresses of a mail exchanger. -/
def putMXs (name : Bytes) (btype : AF) : List Bytes → StateM σ Out
  | [] => pure {}
  | baddr :: baddrs => do
    match ← L.GETHOSTBYADDR baddr btype with
    | none => putMXs name btype baddrs
    | some ht1 => do
      let found := L.rbuff (← get)
      let rest ← putMXs name btype baddrs
      pure ((outData found name TY_MX cf.DNS_MINTTL [.putShort 0, .putName ht1.h_name]).next rest)

def putRR_name (ht : Hostent) (type : Nat) (name : Bytes) : StateM σ Out :=
  if type = TY_MX then putMXs L cf name ht.h_addrtype (ht.h_addr_list.take 16)
  else do pure (outData (L.rbuff (← get)) name type cf.DNS_MINTTL [.putName ht.h_name])

/-- One record of the cache in `relay_cachedRR`. -/
def relayOne (name : Bytes) (qtype : Nat) (s : σ) (a : Cached) : Out :=
  if a.type ≠ qtype then {}
  else if a.type = TY_SOA then
    outData (L.rbuff s) name a.type cf.DNS_MINTTL
      [.putName (L.DNS_nodename (a.long 2) s), .putName (L.DNS_nodename (a.long 6) s),
        .putLongVStr (a.long 10), .putLongVStr (a.long 14), .putLongVStr (a.long 18),
        .putLongVStr (a.long 22), .putLongVStr (a.long 26)]
  else
    outData (L.rbuff s) name a.type cf.DNS_MINTTL
      [.putShort (short (a.data.getD · 0) 6), .putName (L.DNS_nodename (a.long 2) s)]

def relay_cachedRR (name : Bytes) (qtype : Nat) : StateM σ Out := do
  let s ← get
  let nid := L.DNS_getbyname name s
  if nid = 0 then pure {}
  else pure (outs (((L.DNS_getattr nid (typemask qtype) s).take 8).map (relayOne L cf name qtype s)))

/-- The records of the domain of a service, in `relay_cachedRRs`. -/
def relayService (name : Bytes) (qtype : Nat) : StateM σ Out :=
  if name.head? = some 95 then relay_cachedRR L cf (serviceDomain name) qtype else pure {}

def relay_cachedRRs (name : Bytes) (qtype : Nat) : StateM σ Out := do
  let r ← relay_cachedRR L cf name qtype
  if r.anc ≠ 0 then pure r
  else do
    let r ← relayService L cf name qtype
    if r.anc ≠ 0 then pure r
    else do
      let dom := (L.LastSOAdom (← get)).take 127
      if dom ≠ [] ∧ dom.isSuffixOf name then relay_cachedRR L cf dom qtype else pure {}

/-- The record of `putRR_SOA` from the configuration. -/
def ownSOA (name : Bytes) : StateM σ Out := do
  match ← L.gethostbyNX name (some (ascii "4")) with
  | none => pure {}
  | some _ => do
    pure (outData (L.rbuff (← get)) cf.DNS_DOMAIN TY_SOA 0
      [.putName cf.DNS_ORIGIN, .putName cf.DNS_ADMIN, .putLong cf.DNS_SERIAL,
        .putLong cf.DNS_REFRESH, .putLong cf.DNS_RETRY, .putLong cf.DNS_EXPIRE,
        .putLong cf.DNS_MINTTL])

def putRR_SOA (name : Bytes) : StateM σ Out := do
  if cf.DNS_DOMAIN.isSuffixOf name then ownSOA L cf name
  else if L.RES_proxy (← get) then do
    L.getRRbynameaddr name TY_SOA
    let r ← relay_cachedRRs L cf name TY_SOA
    if 0 < r.anc then pure r else ownSOA L cf name
  else pure {}

def putRR_SRV (name : Bytes) : StateM σ Out := do
  if cf.DNS_DOMAIN.isSuffixOf name then pure {}
  else if L.RES_proxy (← get) then do
    L.getRRbynameaddr name TY_SRV
    relay_cachedRRs L cf name TY_SRV
  else pure {}

/-- The host that `putRR_MX` takes where there is none for the name `-MX.name`. -/
def otherMX (name : Bytes) : StateM σ (Option Hostent) := do
  match ← (match cf.DNS_MX with | some mx => L.gethostbyNX mx none | none => pure none) with
  | some ht => pure (some ht)
  | none => L.gethostbyNX name none

def putRR_MX (name : Bytes) : StateM σ Out := do
  match ← L.gethostbyNX ((ascii "-MX." ++ name).take 511) none with
  | some ht => do
    let r ← relay_cachedRR L cf name TY_MX
    if r.anc ≠ 0 then pure r else putRR_name L cf ht TY_MX name
  | none => do
    match ← otherMX L cf name with
    | none => pure {}
    | some ht => putRR_name L cf ht TY_MX name

def putRR_PTR (name : Bytes) : StateM σ Out :=
  if strcasestr name (ascii "IN-ADDR.ARPA") || strcasestr name (ascii ".IP6.INT") then
    match L.VSA_dnstosa name with
    | none => pure {}
    | some (baddr, btype) => do
      match ← L.GETHOSTBYADDR baddr btype with
      | none => pure {}
      | some ht => putRR_name L cf ht TY_PTR name
  else pure {}

/-! ## The reply -/

def TY_QMAILA : Nat := 254
def TY_QALL : Nat := 255

/-- The `switch` of `dns_search` over the type of the query. -/
def putAnswers (qtype : Nat) (name : Bytes) : StateM σ Out := do
  if qtype = TY_SRV then putRR_SRV L cf name
  else if qtype = TY_A then putRR_A L cf name
  else if qtype = TY_AAAA then putRR_AAAA L cf name
  else if qtype = TY_PTR then putRR_PTR L cf name
  else if qtype = TY_MX ∨ qtype = TY_QMAILA then putRR_MX L cf name
  else if qtype = TY_QALL then do
    let a ← putRR_A L cf name
    let aaaa ← putRR_AAAA L cf name
    let mx ← putRR_MX L cf name
    let soa ← putRR_SOA L cf name
    let ptr ← putRR_PTR L cf name
    pure (outs [a, aaaa, mx, soa, ptr])
  else pure {}

/-- The authority records of `dns_search`. -/
def putAuthority (qtype anc : Nat) (name : Bytes) : StateM σ Out := do
  if !L.RES_CACHED_UNKNOWN (← get) ∧ (anc = 0 ∨ qtype = TY_SOA ∨ qtype = TY_SRV) then
    putRR_SOA L cf name
  else pure {}

/-- Whether the name is unknown, and what was put behind the records to find that out. -/
def probe (qtype anc nauth : Nat) (name : Bytes) : StateM σ (Bool × Out) := do
  if qtype = TY_SOA ∨ qtype = TY_SRV then pure (anc == 0 && nauth == 0, {})
  else if anc ≠ 0 then pure (false, {})
  else do
    let a ← putRR_A L cf name
    if a.anc ≠ 0 then pure (false, a)
    else do
      let ptr ← putRR_PTR L cf name
      pure (ptr.anc == 0, a.next ptr)

/-- A reply: its header and question, the bytes of `RRbuf` behind them, and how much of the buffers
for records and their data it took. -/
structure Reply where
  head : Bytes
  rrs : Bytes
  RRbuf : Nat
  rbuff : Nat
  deriving DecidableEq, Repr

/-- The bytes of a reply that has room in its buffer. -/
def Reply.reply (r : Reply) : Bytes := r.head ++ r.rrs

/-- The buffer of the caller up to the end of the reply. The records are copied whole or not at
all. -/
def Reply.stored (size : Nat) (found : Put → Bytes) (r : Reply) : Bytes :=
  (Put.Bcopy r.rrs).run size found r.head

/-- The flags of the reply. -/
def replyFlags (QM : Nat) (unknown isauth unsupported proxy : Bool) (anc : Nat) : Nat :=
  let RM := SET_QR 0 1
  let RM := SET_OPCODE RM (H_OPCODE QM)
  let RM := SET_AA RM (if !unknown || isauth then 1 else 0)
  let RM := SET_RD RM (if !proxy then 0 else H_RD QM)
  let RM := SET_RA RM 0
  if anc = 0 then
    let RM := if unknown then SET_RCODE RM (if isauth || proxy then 3 else 5) else RM
    if unsupported then SET_RCODE RM 4 else RM
  else RM

/-- `dns_search` from `PUTRESP` on. -/
def putResp (found : Put → Bytes) (Head : Header) (name : Bytes) (qtype qclass RM : Nat)
    (an ns probes : Out) : Option Reply :=
  match (makeQuestion name qtype qclass).or (makeQuestion (ascii "-") qtype qclass) with
  | none => none
  | some question =>
    let rrp := putRRs 2048 found [] (an.rrs ++ ns.rrs)
    some {
      head := putShort Head.id ++ putShort RM ++ putShort 1 ++ putShort an.anc ++
        putShort ns.anc ++ putShort 0 ++ question
      rrs := if an.anc ≠ 0 ∨ ns.anc ≠ 0 then rrp else []
      RRbuf := (putRRs 2048 found rrp probes.rrs).length
      rbuff := max (max an.rbuff ns.rbuff) probes.rbuff }

/-- `dns_search` for a query over UDP. -/
def dns_search (query : Msg) : StateM σ (Option Reply) := do
  let Head := (scanHeader query).val
  let q := (scanQuery query 12 512).val.2
  let name := cstr q.name
  if H_QR Head.M ≠ 0 then pure none
  else do
    modify L.clearUnknown
    if 2 ≤ H_OPCODE Head.M then do
      let RM := replyFlags Head.M true false true (L.RES_proxy (← get)) 0
      pure (putResp (L.RRbuf (← get)) Head name q.type q.xclass RM {} {} {})
    else do
      let an ← putAnswers L cf q.type name
      let ns ← putAuthority L cf q.type an.anc name
      let (unknown, probes) ← probe L cf q.type an.anc ns.anc name
      let isauth := cf.DNS_DOMAIN.isSuffixOf name
      let RM := replyFlags Head.M unknown isauth false (L.RES_proxy (← get)) an.anc
      pure (putResp (L.RRbuf (← get)) Head name q.type q.xclass RM an ns probes)

end Records

end delegate.dns
