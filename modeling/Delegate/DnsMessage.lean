-- DNS messages as the resolver reads them: names with compression pointers,
-- questions and resource records. Nothing tells `scanName` where the message
-- ends, and the checks for an overrun stand between the records only.
import Delegate.Reads

open reads

namespace delegate.dns

abbrev Octet := UInt8
abbrev Bytes := List Octet

/-- The message and what stands behind it in memory. -/
abbrev Msg := Nat → Octet

/-! ## Names -/

/-- The bytes of an ASCII text. -/
def ascii (s : String) : Bytes := s.toList.map fun c => UInt8.ofNat c.toNat

/-- `%x` -/
def hex (n : Nat) : Bytes := (Nat.toDigits 16 n).map fun c => UInt8.ofNat c.toNat

/-- The offset in a compression pointer. -/
def pointerOff (len low : Octet) : Nat := (len &&& 0x3F).toNat * 256 + low.toNat

/-- The loop of `scanName` over the labels from `sp` on, for a name that begins at `ssp`, with
`room` bytes left in the buffer. A compression pointer goes on with `follow`. -/
def scanLabels (msg : Msg) (follow : Nat → Nat → Scan (Nat × Bytes)) (ssp : Nat)
    (sp room : Nat) : Scan (Nat × Bytes) := do
  let len ← peek msg sp
  if len = 0 then pure (sp + 1, [])
  else if len &&& 0xC0 ≠ 0 then
    -- a pointer of two bytes, 10 and 01 are reserved
    if len &&& 0xC0 ≠ 0xC0 then
      pure (sp + 1, (ascii "BAD-POINTER-" ++ hex len.toNat).take (room - 1))
    else
      let low ← peek msg (sp + 1)
      let off := pointerOff len low
      let here := sp + 2
      if here ≤ off then
        pure (here, (ascii "BAD-POINTER-" ++ hex len.toNat ++ ascii "-" ++ hex low.toNat).take
          (room - 1))
      else if (off < here ∧ here - 2 ≤ off) ∨ ssp ≤ off then
        pure (here, (ascii "LOOP-POINTER-" ++ hex off).take (room - 1))
      else
        let r ← follow off room
        pure (here, r.2)
  else if hroom : room < len.toNat + 2 then pure (sp + 1, [])
  else
    let label ← span msg (sp + 1) len.toNat
    let next ← peek msg (sp + 1 + len.toNat)
    let dot : Bytes := if next ≠ 0 then [46] else []
    let r ← scanLabels msg follow ssp (sp + 1 + len.toNat) (room - (len.toNat + dot.length))
    pure (r.1, label ++ dot ++ r.2)
termination_by room
decreasing_by
  rename_i hlen _
  have : len.toNat ≠ 0 := fun h => hlen (UInt8.toNat_inj.mp h)
  omega

/-- `scanName`, with `k` levels of pointers left: the pointer after the name, and the name. -/
def scanName (msg : Msg) : Nat → Nat → Nat → Scan (Nat × Bytes)
  | 0, ssp, _ => pure (ssp, [])
  | k + 1, ssp, siz =>
    if siz ≤ 1 then pure (ssp, []) else scanLabels msg (scanName msg k) ssp ssp siz

/-- `scanName` at the top level. -/
def scanNameAt (msg : Msg) (ssp siz : Nat) : Scan (Nat × Bytes) := scanName msg 32 ssp siz

/-- A buffer as a C string. -/
def cstr (b : Bytes) : Bytes := b.takeWhile (· != 0)

/-! ## Questions and records -/

/-- Two bytes as a number. -/
def short (msg : Msg) (p : Nat) : Nat := (msg p).toNat * 256 + (msg (p + 1)).toNat

/-- `getShort` -/
def getShort (msg : Msg) (p : Nat) : Scan Nat := do
  let hi ← peek msg p
  let lo ← peek msg (p + 1)
  pure (hi.toNat * 256 + lo.toNat)

/-- `getLong` -/
def getLong (msg : Msg) (p : Nat) : Scan Nat := do
  let hi ← getShort msg p
  let lo ← getShort msg (p + 2)
  pure (hi * 65536 + lo)

structure Header where
  id : Nat
  M : Nat
  qdcount : Nat
  ancount : Nat
  nscount : Nat
  arcount : Nat
  deriving DecidableEq, Repr

def scanHeader (msg : Msg) : Scan Header := do
  let id ← getShort msg 0
  let M ← getShort msg 2
  let qdcount ← getShort msg 4
  let ancount ← getShort msg 6
  let nscount ← getShort msg 8
  let arcount ← getShort msg 10
  pure ⟨id, M, qdcount, ancount, nscount, arcount⟩

/-- A question: its name, type and class. -/
structure Question where
  name : Bytes
  type : Nat
  xclass : Nat
  deriving DecidableEq, Repr

/-- `scanQuery`: the pointer after the question, and the question. -/
def scanQuery (msg : Msg) (question nsiz : Nat) : Scan (Nat × Question) := do
  let r ← scanNameAt msg question nsiz
  let type ← getShort msg r.1
  let xclass ← getShort msg (r.1 + 2)
  pure (r.1 + 4, ⟨r.2, type, xclass⟩)

def TY_A : Nat := 1
def TY_NS : Nat := 2
def TY_CNAME : Nat := 5
def TY_SOA : Nat := 6
def TY_PTR : Nat := 12
def TY_MX : Nat := 15
def TY_AAAA : Nat := 28
def TY_SRV : Nat := 33

/-- The data of a record, as it goes to the cache. Names stand for the ids of their nodes. -/
inductive RData
  | none
  | addr (a : Bytes)
  | name (n : Bytes)
  | mx (n pref : Bytes)
  | soa (mname rname : Bytes) (numbers : List Nat)
  deriving DecidableEq, Repr

structure Record where
  name : Bytes
  type : Nat
  xclass : Nat
  ttl : Nat
  rdlength : Nat
  rdata : RData
  deriving DecidableEq, Repr

/-- The `switch` over the type in `dumpResourceRecord`, for the data at `mp`. -/
def scanRData (msg : Msg) (type mp : Nat) : Scan RData :=
  if type = TY_AAAA then do
    let a ← span msg mp 16
    pure (.addr a)
  else if type = TY_A then do
    let a ← span msg mp 4
    pure (.addr a)
  else if type = TY_MX ∨ type = TY_NS ∨ type = TY_CNAME ∨ type = TY_PTR then do
    let r ← scanNameAt msg (if type ≠ TY_MX then mp else mp + 2) 512
    if cstr r.2 = [] then pure .none
    else if type = TY_MX then do
      let pref ← span msg mp 2
      pure (.mx (cstr r.2) pref)
    else pure (.name (cstr r.2))
  else if type = TY_SOA then do
    let m ← scanNameAt msg mp 512
    let r ← scanNameAt msg m.1 512
    let serial ← getLong msg r.1
    let refresh ← getLong msg (r.1 + 4)
    let retry ← getLong msg (r.1 + 8)
    let expire ← getLong msg (r.1 + 12)
    let minimum ← getLong msg (r.1 + 16)
    pure (.soa (cstr m.2) (cstr r.2) [serial, refresh, retry, expire, minimum])
  else pure .none

/-- The types and classes that `dumpResourceRecord` goes on with. -/
def knownType (type xclass : Nat) : Bool :=
  type == TY_AAAA || !(type == 0 || 16 < type || xclass == 0 || 4 < xclass)

/-- `dumpResourceRecord` from the data of the record on, at `mp`. -/
def dumpRData (msg : Msg) (mp : Nat) (name : Bytes) (type xclass ttl rdlength : Nat) :
    Scan (Option (Nat × Record)) :=
  if knownType type xclass then do
    let rdata ← scanRData msg type mp
    pure (some (mp + rdlength, ⟨name, type, xclass, ttl, rdlength, rdata⟩))
  else pure none

/-- `dumpResourceRecord`: the pointer after the record, and the record. -/
def dumpResourceRecord (msg : Msg) (size rr : Nat) : Scan (Option (Nat × Record)) :=
  if size ≤ rr then pure none
  else do
    let r ← scanNameAt msg rr 512
    let type ← getShort msg r.1
    let xclass ← getShort msg (r.1 + 2)
    let ttl ← getLong msg (r.1 + 4)
    let rdlength ← getShort msg (r.1 + 8)
    dumpRData msg (r.1 + 10) (cstr r.2) type xclass ttl rdlength

/-- The loop over the questions in `dumpResponse`. It ends without a pointer where it overruns. -/
def dumpQuestions (msg : Msg) (rc : Nat) : Nat → Nat → Scan (Option Nat)
  | 0, mp => pure (some mp)
  | n + 1, mp =>
    if rc - 1 ≤ mp then pure none
    else do
      let _ ← scanNameAt msg mp 1024
      let q ← scanQuery msg mp 512
      dumpQuestions msg rc n q.1

/-- A loop over records in `dumpResponse`. -/
def dumpRecords (msg : Msg) (rc : Nat) : Nat → Option Nat → Scan (Option Nat × List Record)
  | 0, mp => pure (mp, [])
  | _ + 1, none => pure (none, [])
  | n + 1, some mp =>
    if rc - 1 ≤ mp then pure (none, [])
    else do
      match ← dumpResourceRecord msg rc mp with
      | none => pure (none, [])
      | some (mp, rr) =>
        let r ← dumpRecords msg rc n (some mp)
        pure (r.1, rr :: r.2)

/-- `dumpResponse`: the header, and the records for the cache. -/
def dumpResponse (msg : Msg) (rc : Nat) : Scan (Header × List Record) := do
  let hp ← scanHeader msg
  let mp ← dumpQuestions msg rc hp.qdcount 12
  let an ← dumpRecords msg rc hp.ancount mp
  let ns ← dumpRecords msg rc hp.nscount an.1
  let ar ← dumpRecords msg rc hp.arcount ns.1
  pure (hp, an.2 ++ ns.2 ++ ar.2)

end delegate.dns
