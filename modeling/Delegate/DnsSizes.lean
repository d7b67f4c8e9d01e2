-- The room that the records of a reply take. No builder of `dns_search` leaves out a
-- record that has no room, so the sizes follow from what the lookups answer.
import Delegate.DnsWellFormed

open reads
open delegate.dnsnode (typemask)

namespace delegate.dns

/-! ## Sizes -/

/-- How many records there are, and how many bytes they take. -/
structure Size where
  anc : Nat := 0
  bytes : Nat := 0
  deriving DecidableEq, Repr

def Size.next (a b : Size) : Size := ⟨a.anc + b.anc, a.bytes + b.bytes⟩

/-- `n` records for a name, with `len` bytes of data each. -/
def sized (name : Bytes) (n len : Nat) : Size := ⟨n, n * ((putName name).length + 10 + len)⟩

/-- A record with data that are put in `rbuff`, as far as its 512 bytes have room for them. -/
def sizedData (found : Put → Bytes) (name : Bytes) (data : List Put) : Size :=
  sized name 1 (fins 512 found 0 data)

section Sizes
variable {σ : Type} (L : Lookups σ) (cf : Conf)

def sizeA (name : Bytes) : StateM σ Size := do
  match ← L.gethostbyNX name (some (ascii "4")) with
  | none => pure {}
  | some ht =>
    if ht.h_addrtype = .inet6 then pure {}
    else pure (sized name ht.h_addr_list.length ht.h_length)

def sizeAAAA (name : Bytes) : StateM σ Size := do
  match ← L.gethostbyNX ((ascii "-AAAA." ++ name).take 511) (some (ascii "6")) with
  | none => pure {}
  | some ht => pure (sized name ht.h_addr_list.length ht.h_length)

def sizeMXs (name : Bytes) (btype : AF) : List Bytes → StateM σ Size
  | [] => pure {}
  | baddr :: baddrs => do
    match ← L.GETHOSTBYADDR baddr btype with
    | none => sizeMXs name btype baddrs
    | some ht1 => do
      let found := L.rbuff (← get)
      let rest ← sizeMXs name btype baddrs
      pure ((sizedData found name [.putShort 0, .putName ht1.h_name]).next rest)

def sizeName (ht : Hostent) (type : Nat) (name : Bytes) : StateM σ Size :=
  if type = TY_MX then sizeMXs L name ht.h_addrtype (ht.h_addr_list.take 16)
  else do pure (sizedData (L.rbuff (← get)) name [.putName ht.h_name])

/-- A cached record: an SOA record has two names and five numbers. -/
def sizeCached (name : Bytes) (qtype : Nat) (s : σ) (a : Cached) : Size :=
  if a.type ≠ qtype then {}
  else if a.type = TY_SOA then
    sizedData (L.rbuff s) name
      [.putName (L.DNS_nodename (a.long 2) s), .putName (L.DNS_nodename (a.long 6) s),
        .putLongVStr (a.long 10), .putLongVStr (a.long 14), .putLongVStr (a.long 18),
        .putLongVStr (a.long 22), .putLongVStr (a.long 26)]
  else
    sizedData (L.rbuff s) name
      [.putShort (short (a.data.getD · 0) 6), .putName (L.DNS_nodename (a.long 2) s)]

def sizeRelay (name : Bytes) (qtype : Nat) : StateM σ Size := do
  let s ← get
  let nid := L.DNS_getbyname name s
  if nid = 0 then pure {}
  else pure ((((L.DNS_getattr nid (typemask qtype) s).take 8).map
    (sizeCached L name qtype s)).foldr Size.next {})

def sizeService (name : Bytes) (qtype : Nat) : StateM σ Size :=
  if name.head? = some 95 then sizeRelay L (serviceDomain name) qtype else pure {}

def sizeRelays (name : Bytes) (qtype : Nat) : StateM σ Size := do
  let r ← sizeRelay L name qtype
  if r.anc ≠ 0 then pure r
  else do
    let r ← sizeService L name qtype
    if r.anc ≠ 0 then pure r
    else do
      let dom := (L.LastSOAdom (← get)).take 127
      if dom ≠ [] ∧ dom.isSuffixOf name then sizeRelay L dom qtype else pure {}

def sizeOwnSOA (name : Bytes) : StateM σ Size := do
  match ← L.gethostbyNX name (some (ascii "4")) with
  | none => pure {}
  | some _ => do
    pure (sizedData (L.rbuff (← get)) cf.DNS_DOMAIN
      [.putName cf.DNS_ORIGIN, .putName cf.DNS_ADMIN, .putLong cf.DNS_SERIAL,
        .putLong cf.DNS_REFRESH, .putLong cf.DNS_RETRY, .putLong cf.DNS_EXPIRE,
        .putLong cf.DNS_MINTTL])

def sizeSOA (name : Bytes) : StateM σ Size := do
  if cf.DNS_DOMAIN.isSuffixOf name then sizeOwnSOA L cf name
  else if L.RES_proxy (← get) then do
    L.getRRbynameaddr name TY_SOA
    let r ← sizeRelays L name TY_SOA
    if 0 < r.anc then pure r else sizeOwnSOA L cf name
  else pure {}

def sizeSRV (name : Bytes) : StateM σ Size := do
  if cf.DNS_DOMAIN.isSuffixOf name then pure {}
  else if L.RES_proxy (← get) then do
    L.getRRbynameaddr name TY_SRV
    sizeRelays L name TY_SRV
  else pure {}

def sizeMX (name : Bytes) : StateM σ Size := do
  match ← L.gethostbyNX ((ascii "-MX." ++ name).take 511) none with
  | some ht => do
    let r ← sizeRelay L name TY_MX
    if r.anc ≠ 0 then pure r else sizeName L ht TY_MX name
  | none => do
    match ← otherMX L cf name with
    | none => pure {}
    | some ht => sizeName L ht TY_MX name

def sizePTR (name : Bytes) : StateM σ Size :=
  if strcasestr name (ascii "IN-ADDR.ARPA") || strcasestr name (ascii ".IP6.INT") then
    match L.VSA_dnstosa name with
    | none => pure {}
    | some (baddr, btype) => do
      match ← L.GETHOSTBYADDR baddr btype with
      | none => pure {}
      | some ht => sizeName L ht TY_PTR name
  else pure {}

/-- The answers to a query of a type. -/
def sizeAnswers (qtype : Nat) (name : Bytes) : StateM σ Size := do
  if qtype = TY_SRV then sizeSRV L cf name
  else if qtype = TY_A then sizeA L name
  else if qtype = TY_AAAA then sizeAAAA L name
  else if qtype = TY_PTR then sizePTR L name
  else if qtype = TY_MX ∨ qtype = TY_QMAILA then sizeMX L cf name
  else if qtype = TY_QALL then do
    let a ← sizeA L name
    let aaaa ← sizeAAAA L name
    let mx ← sizeMX L cf name
    let soa ← sizeSOA L cf name
    let ptr ← sizePTR L name
    pure ([a, aaaa, mx, soa, ptr].foldr Size.next {})
  else pure {}

def sizeAuthority (qtype anc : Nat) (name : Bytes) : StateM σ Size := do
  if !L.RES_CACHED_UNKNOWN (← get) ∧ (anc = 0 ∨ qtype = TY_SOA ∨ qtype = TY_SRV) then
    sizeSOA L cf name
  else pure {}

/-- What is put behind the records where there is no answer. -/
def sizeProbe (qtype anc : Nat) (name : Bytes) : StateM σ Size := do
  if qtype = TY_SOA ∨ qtype = TY_SRV then pure {}
  else if anc ≠ 0 then pure {}
  else do
    let a ← sizeA L name
    if a.anc ≠ 0 then pure a
    else do
      let ptr ← sizePTR L name
      pure (a.next ptr)

/-- The answers, the authority records, and what is put behind them. -/
def sizeSearch (qtype : Nat) (name : Bytes) : StateM σ (Size × Size × Size) := do
  let an ← sizeAnswers L cf qtype name
  let ns ← sizeAuthority L cf qtype an.anc name
  let probes ← sizeProbe L qtype an.anc name
  pure (an, ns, probes)

end Sizes

/-! ## The bytes of the calls -/

def Out.size (o : Out) : Size := ⟨o.anc, o.rr.length⟩

@[simp] theorem size_none : Out.size {} = {} := rfl

@[simp] theorem size_next (a b : Out) : (a.next b).size = a.size.next b.size := by
  simp [Out.size, Out.rr, Out.next, Size.next]

theorem size_outs (l : List Out) : (outs l).size = (l.map Out.size).foldr Size.next {} := by
  induction l with
  | nil => rfl
  | cons o l ih =>
    have hnext : outs (o :: l) = o.next (outs l) := rfl
    rw [hnext, size_next, ih]
    rfl

theorem size_outAddr (name : Bytes) (type : Nat) (ttl : UInt32) (data : Bytes) :
    (outAddr name type ttl data).size = sized name 1 data.length := by
  simp [Out.size, Out.rr, outAddr, sized, PutRR.bytes, length_putRR]

theorem size_outData (found : Put → Bytes) (name : Bytes) (type : Nat) (ttl : UInt32)
    (data : List Put) :
    (outData found name type ttl data).size = sizedData found name data := by
  have hlen : (runs 512 found [] data).length = fins 512 found 0 data := length_runs [] data
  simp [Out.size, Out.rr, outData, sizedData, sized, PutRR.bytes, length_putRR, hlen]

theorem sized_succ (name : Bytes) (n len : Nat) :
    sized name (n + 1) len = (sized name 1 len).next (sized name n len) := by
  simp only [sized, Size.next, Size.mk.injEq]
  constructor
  · omega
  · rw [Nat.add_mul, Nat.add_comm]

/-- Addresses of one length. -/
theorem size_addrs (name : Bytes) (type : Nat) (ttl : UInt32) {len : Nat} {addrs : List Bytes}
    (h : ∀ a ∈ addrs, a.length = len) :
    (outs (addrs.map (outAddr name type ttl))).size = sized name addrs.length len := by
  induction addrs with
  | nil => simp [outs, sized]
  | cons a addrs ih =>
    have hnext : outs ((a :: addrs).map (outAddr name type ttl)) =
        (outAddr name type ttl a).next (outs (addrs.map (outAddr name type ttl))) := rfl
    rw [hnext, size_next, ih fun b hb => h b (List.mem_cons_of_mem _ hb), size_outAddr,
      h a List.mem_cons_self, List.length_cons, sized_succ name addrs.length]

section Measured
variable {σ α β γ δ : Type}

/-- Two calls whose values are related, and which leave the same state. -/
def Paired (R : α → β → Prop) (m : StateM σ α) (k : StateM σ β) : Prop :=
  ∀ s, R (m s).1 (k s).1 ∧ (k s).2 = (m s).2

theorem paired_pure {R : α → β → Prop} {a : α} {b : β} (h : R a b) :
    Paired R (pure a : StateM σ α) (pure b) := fun _ => ⟨h, rfl⟩

theorem paired_bind {R : α → β → Prop} {Q : γ → δ → Prop} {m : StateM σ α} {k : StateM σ β}
    {f : α → StateM σ γ} {g : β → StateM σ δ} (hm : Paired R m k)
    (h : ∀ a b, R a b → Paired Q (f a) (g b)) : Paired Q (m >>= f) (k >>= g) := by
  intro s
  obtain ⟨hr, hs⟩ := hm s
  have hnext := h _ _ hr (m s).2
  rw [← hs] at hnext
  have hleft : (m >>= f) s = f (m s).1 (m s).2 := rfl
  have hright : (k >>= g) s = g (k s).1 (k s).2 := rfl
  rw [hleft, hright, ← hs]
  exact hnext

/-- The state is read on one side only. -/
theorem paired_get {Q : γ → δ → Prop} {f : σ → StateM σ γ} {k : StateM σ δ}
    (h : ∀ s, Paired Q (f s) k) : Paired Q (get >>= f) k := fun s => h s s

/-- The second call gives the size of what the first one puts. -/
def Measured (m : StateM σ Out) (k : StateM σ Size) : Prop := Paired (fun o z => z = o.size) m k

theorem measured_pure {o : Out} {z : Size} (h : o.size = z) :
    Measured (pure o : StateM σ Out) (pure z) := paired_pure h.symm

/-- A lookup comes first. -/
theorem measured_lookup (m : StateM σ α) {f : α → StateM σ Out} {g : α → StateM σ Size}
    (h : ∀ a, Measured (f a) (g a)) : Measured (m >>= f) (m >>= g) := fun s => h (m s).1 (m s).2

/-- A measured call comes first. -/
theorem measured_bind {m : StateM σ Out} {k : StateM σ Size} {f : Out → StateM σ Out}
    {g : Size → StateM σ Size} (hm : Measured m k) (h : ∀ o, Measured (f o) (g o.size)) :
    Measured (m >>= f) (k >>= g) := by
  apply paired_bind hm
  rintro o z rfl
  exact h o

variable {L : Lookups σ} {cf : Conf} (name : Bytes)

theorem measured_A : Measured (putRR_A L cf name) (sizeA L name) := by
  unfold putRR_A sizeA
  apply measured_lookup
  intro ht
  cases ht with
  | none => exact measured_pure rfl
  | some ht =>
    dsimp only
    split
    · exact measured_pure rfl
    · exact measured_pure (size_addrs _ _ _ ht.lengths)

theorem measured_AAAA : Measured (putRR_AAAA L cf name) (sizeAAAA L name) := by
  unfold putRR_AAAA sizeAAAA
  apply measured_lookup
  intro ht
  cases ht with
  | none => exact measured_pure rfl
  | some ht => exact measured_pure (size_addrs _ _ _ ht.lengths)

theorem measured_MXs (btype : AF) (baddrs : List Bytes) :
    Measured (putMXs L cf name btype baddrs) (sizeMXs L name btype baddrs) := by
  induction baddrs with
  | nil => exact measured_pure rfl
  | cons baddr baddrs ih =>
    unfold putMXs sizeMXs
    apply measured_lookup
    intro ht
    cases ht with
    | none => exact ih
    | some ht =>
      apply measured_lookup
      intro s
      refine measured_bind ih fun rest => measured_pure ?_
      rw [size_next, size_outData]

theorem measured_name (ht : Hostent) (type : Nat) :
    Measured (putRR_name L cf ht type name) (sizeName L ht type name) := by
  unfold putRR_name sizeName
  split
  · exact measured_MXs name _ _
  · apply measured_lookup
    intro s
    exact measured_pure (size_outData _ _ _ _ _)

theorem size_relayOne (qtype : Nat) (s : σ) (a : Cached) :
    (relayOne L cf name qtype s a).size = sizeCached L name qtype s a := by
  unfold relayOne sizeCached
  split
  · rfl
  split
  · rw [size_outData]
  · rw [size_outData]

theorem measured_relay (qtype : Nat) :
    Measured (relay_cachedRR L cf name qtype) (sizeRelay L name qtype) := by
  unfold relay_cachedRR sizeRelay
  apply measured_lookup
  intro s
  dsimp only
  split
  · exact measured_pure rfl
  · apply measured_pure
    rw [size_outs, List.map_map]
    congr 1
    exact List.map_congr_left fun a _ => size_relayOne name qtype s a

theorem measured_service (qtype : Nat) :
    Measured (relayService L cf name qtype) (sizeService L name qtype) := by
  unfold relayService sizeService
  split
  · exact measured_relay _ _
  · exact measured_pure rfl

theorem measured_relays (qtype : Nat) :
    Measured (relay_cachedRRs L cf name qtype) (sizeRelays L name qtype) := by
  unfold relay_cachedRRs sizeRelays
  refine measured_bind (measured_relay name qtype) fun r => ?_
  dsimp only [Out.size]
  split
  · exact measured_pure rfl
  · refine measured_bind (measured_service name qtype) fun r => ?_
    dsimp only [Out.size]
    split
    · exact measured_pure rfl
    · apply measured_lookup
      intro s
      split
      · exact measured_relay _ _
      · exact measured_pure rfl

theorem measured_ownSOA : Measured (ownSOA L cf name) (sizeOwnSOA L cf name) := by
  unfold ownSOA sizeOwnSOA
  apply measured_lookup
  intro ht
  cases ht with
  | none => exact measured_pure rfl
  | some ht =>
    apply measured_lookup
    intro s
    exact measured_pure (size_outData _ _ _ _ _)

theorem measured_SOA : Measured (putRR_SOA L cf name) (sizeSOA L cf name) := by
  unfold putRR_SOA sizeSOA
  split
  · exact measured_ownSOA name
  · apply measured_lookup
    intro s
    split
    · apply measured_lookup
      intro _
      refine measured_bind (measured_relays name TY_SOA) fun r => ?_
      dsimp only [Out.size]
      split
      · exact measured_pure rfl
      · exact measured_ownSOA name
    · exact measured_pure rfl

theorem measured_SRV : Measured (putRR_SRV L cf name) (sizeSRV L cf name) := by
  unfold putRR_SRV sizeSRV
  split
  · exact measured_pure rfl
  · apply measured_lookup
    intro s
    split
    · apply measured_lookup
      intro _
      exact measured_relays name TY_SRV
    · exact measured_pure rfl

theorem measured_MX : Measured (putRR_MX L cf name) (sizeMX L cf name) := by
  unfold putRR_MX sizeMX
  apply measured_lookup
  intro ht
  cases ht with
  | some ht =>
    refine measured_bind (measured_relay name TY_MX) fun r => ?_
    dsimp only [Out.size]
    split
    · exact measured_pure rfl
    · exact measured_name name ht TY_MX
  | none =>
    apply measured_lookup
    intro ht
    cases ht with
    | none => exact measured_pure rfl
    | some ht => exact measured_name name ht TY_MX

theorem measured_PTR : Measured (putRR_PTR L cf name) (sizePTR L name) := by
  unfold putRR_PTR sizePTR
  split
  · cases L.VSA_dnstosa name with
    | none => exact measured_pure rfl
    | some addr =>
      apply measured_lookup
      intro ht
      cases ht with
      | none => exact measured_pure rfl
      | some ht => exact measured_name name ht TY_PTR
  · exact measured_pure rfl

theorem measured_answers (qtype : Nat) :
    Measured (putAnswers L cf qtype name) (sizeAnswers L cf qtype name) := by
  unfold putAnswers sizeAnswers
  split
  · exact measured_SRV name
  split
  · exact measured_A name
  split
  · exact measured_AAAA name
  split
  · exact measured_PTR name
  split
  · exact measured_MX name
  split
  · refine measured_bind (measured_A name) fun a => ?_
    refine measured_bind (measured_AAAA name) fun aaaa => ?_
    refine measured_bind (measured_MX name) fun mx => ?_
    refine measured_bind (measured_SOA name) fun soa => ?_
    refine measured_bind (measured_PTR name) fun ptr => measured_pure ?_
    rw [size_outs]
    rfl
  · exact measured_pure rfl

theorem measured_authority (qtype anc : Nat) :
    Measured (putAuthority L cf qtype anc name) (sizeAuthority L cf qtype anc name) := by
  unfold putAuthority sizeAuthority
  apply measured_lookup
  intro s
  split
  · exact measured_SOA name
  · exact measured_pure rfl

theorem measured_probe (qtype anc nauth : Nat) :
    Paired (fun r z => z = Out.size r.2) (probe L cf qtype anc nauth name)
      (sizeProbe L qtype anc name) := by
  unfold probe sizeProbe
  split
  · exact paired_pure rfl
  split
  · exact paired_pure rfl
  · apply paired_bind (measured_A name)
    rintro a z rfl
    by_cases hanc : a.anc ≠ 0
    · rw [if_pos hanc, if_pos (show a.size.anc ≠ 0 from hanc)]
      exact paired_pure rfl
    · rw [if_neg hanc, if_neg (show ¬ a.size.anc ≠ 0 from hanc)]
      apply paired_bind (measured_PTR name)
      rintro ptr z rfl
      exact paired_pure (size_next a ptr).symm

/-- The three parts of a reply have the sizes. -/
theorem dns_search_sizes (query : Msg) (s : σ) (hqr : H_QR (short query 2) = 0)
    (hop : H_OPCODE (short query 2) < 2) :
    ∃ found RM an ns probes, (dns_search L cf query s).1 =
        putResp found (scanHeader query).val (cstr (scanQuery query 12 512).val.2.name)
          (scanQuery query 12 512).val.2.type (scanQuery query 12 512).val.2.xclass RM an ns probes ∧
      (sizeSearch L cf (scanQuery query 12 512).val.2.type
        (cstr (scanQuery query 12 512).val.2.name) (L.clearUnknown s)).1 =
          (an.size, ns.size, probes.size) := by
  have hM : (scanHeader query).val.M = short query 2 := rfl
  generalize hq : (scanQuery query 12 512).val.2 = q
  generalize hname : cstr q.name = name
  have hpaired : Paired (fun r z => ∃ found RM an ns probes,
      r = putResp found (scanHeader query).val name q.type q.xclass RM an ns probes ∧
        z = (an.size, ns.size, probes.size))
      (do
        let an ← putAnswers L cf q.type name
        let ns ← putAuthority L cf q.type an.anc name
        let pr ← probe L cf q.type an.anc ns.anc name
        let isauth := cf.DNS_DOMAIN.isSuffixOf name
        let RM := replyFlags (short query 2) pr.1 isauth false (L.RES_proxy (← get)) an.anc
        pure (putResp (L.RRbuf (← get)) (scanHeader query).val name q.type q.xclass RM an ns pr.2))
      (sizeSearch L cf q.type name) := by
    apply paired_bind (measured_answers name q.type)
    rintro an z rfl
    apply paired_bind (measured_authority name q.type an.anc)
    rintro ns z rfl
    apply paired_bind (measured_probe name q.type an.anc ns.anc)
    rintro pr z rfl
    apply paired_get
    intro s
    apply paired_get
    intro s'
    exact paired_pure ⟨L.RRbuf s', _, an, ns, pr.2, rfl, rfl⟩
  have hrun := (hpaired (L.clearUnknown s)).1
  unfold dns_search
  dsimp only
  rw [hM, if_neg (not_not.mpr hqr), if_neg (not_le.mpr hop), hq, hname]
  exact hrun

end Measured

/-! ## Room for a reply -/

/-- The size of the question. An empty name is put as `-`. -/
def questionSize (name : Bytes) : Nat :=
  if putName name = [0] then 7 else (putName name).length + 4

/-- The records take less than 2048 bytes, and so do the header, the question and the records. -/
def HaveRoom (name : Bytes) (an ns probes : Size) : Prop :=
  an.bytes + ns.bytes + probes.bytes < 2048 ∧
    12 + questionSize name + (if an.anc ≠ 0 ∨ ns.anc ≠ 0 then an.bytes + ns.bytes else 0) < 2048

/-- The buffers of 2048 bytes are not filled. -/
def Reply.Within (r : Reply) : Prop := r.RRbuf < 2048 ∧ r.reply.length < 2048

theorem putResp_within (found : Put → Bytes) (Head : Header) (name : Bytes)
    (qtype qclass RM : Nat) (an ns probes : Out) :
    ∃ r, putResp found Head name qtype qclass RM an ns probes = some r ∧
      (r.Within ↔ HaveRoom name an.size ns.size probes.size) := by
  have hdash : putName (ascii "-") = [1, 45, 0] := by decide +kernel
  obtain ⟨question, hquestion, hlen⟩ : ∃ question,
      (makeQuestion name qtype qclass).or (makeQuestion (ascii "-") qtype qclass) = some question ∧
        question.length = questionSize name := by
    unfold makeQuestion questionSize
    by_cases hempty : putName name = [0]
    · rw [if_pos hempty, if_pos hempty, hdash, if_neg (by simp), Option.none_or]
      exact ⟨_, rfl, by simp [putShort]⟩
    · rw [if_neg hempty, if_neg hempty, Option.some_or]
      exact ⟨_, rfl, by simp [putShort]⟩
  unfold putResp
  rw [hquestion]
  refine ⟨_, rfl, ?_⟩
  have hRRbuf : (putRRs 2048 found (putRRs 2048 found [] (an.rrs ++ ns.rrs)) probes.rrs).length <
      2048 ↔ an.rr.length + ns.rr.length + probes.rr.length < 2048 :=
    Nat.lt_succ_iff.trans ((length_put_outs an ns probes (by decide)).trans Nat.lt_succ_iff.symm)
  unfold Reply.Within HaveRoom Reply.reply
  dsimp only
  rw [hRRbuf]
  refine and_congr_right fun hroom => ?_
  have hrrs := @put_outs found an ns (by rw [List.length_append]; omega)
  by_cases hsome : an.anc ≠ 0 ∨ ns.anc ≠ 0
  · rw [if_pos (show an.size.anc ≠ 0 ∨ ns.size.anc ≠ 0 from hsome), if_pos hsome, hrrs]
    simp only [List.length_append, length_putShort, hlen, Out.size]
  · rw [if_neg (show ¬ (an.size.anc ≠ 0 ∨ ns.size.anc ≠ 0) from hsome), if_neg hsome]
    simp only [List.length_append, List.length_nil, length_putShort, hlen]

theorem length_putName (t : Bytes) : (putName t).length ≤ t.length + 2 := by
  obtain ⟨ls, hls, -, hlen⟩ := putName_wire t
  have hwire : (wire ls).length ≤ (dotted ls).length + 2 := by
    clear hls hlen
    induction ls with
    | nil => simp [wire]
    | cons l ls ih =>
      rw [wire_cons]
      cases ls with
      | nil => simp [wire, dotted]
      | cons m ls =>
        simp only [dotted, List.length_append, List.length_cons] at ih ⊢
        omega
  rw [hls]
  omega

section
variable {σ : Type} (L : Lookups σ) (cf : Conf) (s : σ) (query : Msg)

/-- The text of the name in the query. -/
def queryName (query : Msg) : Bytes := cstr (scanQuery query 12 512).val.2.name

/-- The type in the query. -/
def queryType (query : Msg) : Nat := (scanQuery query 12 512).val.2.type

/-- All records that the lookups lead to have room: those of a query that is answered at all. -/
def Reply.RoomFor : Prop :=
  H_QR (short query 2) = 0 → H_OPCODE (short query 2) < 2 →
    HaveRoom (queryName query)
      (sizeSearch L cf (queryType query) (queryName query) (L.clearUnknown s)).1.1
      (sizeSearch L cf (queryType query) (queryName query) (L.clearUnknown s)).1.2.1
      (sizeSearch L cf (queryType query) (queryName query) (L.clearUnknown s)).1.2.2

variable {L cf s query}

theorem roomFor_of_within
    (h : ∀ r, (dns_search L cf query s).1 = some r → r.Within) : Reply.RoomFor L cf s query := by
  intro hqr hop
  obtain ⟨found, RM, an, ns, probes, hreply, hsize⟩ := @dns_search_sizes σ L cf query s hqr hop
  obtain ⟨r, hr, hiff⟩ := putResp_within found (scanHeader query).val
    (cstr (scanQuery query 12 512).val.2.name) (scanQuery query 12 512).val.2.type
    (scanQuery query 12 512).val.2.xclass RM an ns probes
  unfold queryName queryType
  rw [hsize]
  exact hiff.mp (h r (hreply.trans hr))

theorem within_of_roomFor (hname : (queryName query).length ≤ 255)
    (h : Reply.RoomFor L cf s query) :
    ∀ r, (dns_search L cf query s).1 = some r → r.Within := by
  intro r hr
  have hM : (scanHeader query).val.M = short query 2 := rfl
  by_cases hqr : H_QR (short query 2) = 0
  · by_cases hop : H_OPCODE (short query 2) < 2
    · obtain ⟨found, RM, an, ns, probes, hreply, hsize⟩ := @dns_search_sizes σ L cf query s hqr hop
      obtain ⟨r', hr', hiff⟩ := putResp_within found (scanHeader query).val
        (cstr (scanQuery query 12 512).val.2.name) (scanQuery query 12 512).val.2.type
        (scanQuery query 12 512).val.2.xclass RM an ns probes
      have hroom := h hqr hop
      unfold queryName queryType at hroom
      rw [hsize] at hroom
      rw [hreply, hr'] at hr
      cases hr
      exact hiff.mpr hroom
    · -- an opcode that is not supported: no records
      unfold dns_search at hr
      dsimp only at hr
      rw [hM, if_neg (not_not.mpr hqr), if_pos (not_lt.mp hop)] at hr
      obtain ⟨r', hr', hiff⟩ := putResp_within (L.RRbuf (L.clearUnknown s)) (scanHeader query).val
        (cstr (scanQuery query 12 512).val.2.name) (scanQuery query 12 512).val.2.type
        (scanQuery query 12 512).val.2.xclass
        (replyFlags (short query 2) true false true (L.RES_proxy (L.clearUnknown s)) 0) {} {} {}
      have heq : r' = r := Option.some.inj (hr'.symm.trans hr)
      rw [← heq, hiff]
      have hlen := length_putName (queryName query)
      unfold HaveRoom questionSize
      change 0 + 0 + 0 < 2048 ∧ 12 + (if putName (queryName query) = [0] then 7
        else (putName (queryName query)).length + 4) + 0 < 2048
      split <;> omega
  · unfold dns_search at hr
    dsimp only at hr
    rw [hM, if_pos hqr] at hr
    cases hr

end

/-- For a query name of up to 255 bytes, the records and the reply stay within their buffers of
2048 bytes exactly if the records that the lookups lead to have room: each takes the name again,
10 bytes and its data. -/
theorem replies_within_iff {σ : Type} (L : Lookups σ) (cf : Conf) (s : σ) (query : Msg)
    (hname : (queryName query).length ≤ 255) :
    (∀ r, (dns_search L cf query s).1 = some r → r.Within) ↔ Reply.RoomFor L cf s query :=
  ⟨roomFor_of_within, within_of_roomFor hname⟩

theorem replies_within_one :
    (queryName (queryFor [[97], [98]])).length ≤ 255 ∧
      ((∀ r, (dns_search oneHost plainConf (queryFor [[97], [98]]) ()).1 = some r → r.Within) ↔
        Reply.RoomFor oneHost plainConf () (queryFor [[97], [98]])) := by
  have hname : (queryName (queryFor [[97], [98]])).length ≤ 255 := by decide +kernel
  exact ⟨hname, replies_within_iff _ _ _ _ hname⟩

/-- Every host has 63 addresses. -/
def manyHosts : Lookups Unit :=
  { oneHost with
    gethostbyNX := fun name _ =>
      pure (some ⟨name, .inet, 4, List.replicate 63 [10, 0, 0, 5], by simp⟩) }

/-- A query of type A for a label of 20 bytes. -/
def longLabelQuery : Msg := queryFor [List.replicate 20 97]

/-- The 63 addresses of a name of 20 bytes do not fit in the buffer for the records. -/
theorem replies_overflow :
    ¬ ∀ (L : Lookups Unit) (cf : Conf) (query : Msg),
      (∀ n x ht, (L.gethostbyNX n x ()).1 = some ht → ht.h_addr_list.length ≤ 63) →
      (queryName query).length ≤ 255 →
      ∀ r, (dns_search L cf query ()).1 = some r → r.Within := by
  intro hall
  have hsmall : ∀ n x ht, (manyHosts.gethostbyNX n x ()).1 = some ht →
      ht.h_addr_list.length ≤ 63 := by
    intro n x ht hht
    obtain rfl := Option.some.inj hht
    exact (List.length_replicate ..).le
  have hname : (queryName longLabelQuery).length ≤ 255 := by decide +kernel
  have hroom := roomFor_of_within (hall manyHosts plainConf longLabelQuery hsmall hname)
    (by decide +kernel) (by decide +kernel)
  have hsize : (sizeSearch manyHosts plainConf (queryType longLabelQuery) (queryName longLabelQuery)
      (manyHosts.clearUnknown ())).1.1.bytes = 2268 := by decide +kernel
  have hlt := lt_of_le_of_lt ((Nat.le_add_right _ _).trans (Nat.le_add_right _ _)) hroom.1
  rw [hsize] at hlt
  exact absurd hlt (by omega)

end delegate.dns
