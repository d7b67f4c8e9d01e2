-- The results of a lookup (`gethostbynameaddr_dns`): the records found are put
-- into the vector of the caller, and then replaced there by addresses and names
-- that are copied to one buffer. For mail exchangers the lookup is made again,
-- for the rest of the vector and of the buffer.
import Delegate.DnsReply

open reads

namespace delegate.dns

/-! ## Data -/

/-- What a pointer in the vector points to: a record in the cache, or the buffer of the caller. -/
inductive Ptr
  | null
  | rr (data : Bytes)
  | rrb (p : Nat)
  deriving DecidableEq, Repr

/-- The functions below, on the state `σ` of the resolver. `getRRbynameaddr` finds records in the
cache, with their type, their class and their data, and never more than there is room for. -/
structure Resolver (σ : Type) where
  inInitSRCIFforDNS : Bool
  getRRbynameaddr : Bytes → Nat → Nat → StateM σ (List Bytes)
  room : ∀ name qtype rrc s, (getRRbynameaddr name qtype rrc s).1.length ≤ rrc
  DNS_nodename : Nat → σ → Bytes

/-- The state of the resolver, the vector with the indexes that were written, the buffer, and the
canonical name in the buffer of the caller. -/
structure Vecs (σ : Type) where
  res : σ
  rrv : Nat → Ptr
  written : List Nat
  rrb : Nat → Octet
  cname : Bytes

section
variable {σ : Type}

def Vecs.set (v : Vecs σ) (i : Nat) (p : Ptr) : Vecs σ :=
  { v with rrv := Function.update v.rrv i p, written := v.written ++ [i] }

/-- The records in the vector, from `i` on. -/
def Vecs.putHits (v : Vecs σ) (i : Nat) : List Bytes → Vecs σ
  | [] => v
  | data :: hits => (v.set i (.rr data)).putHits (i + 1) hits

/-- The variables of the loop over the records. -/
structure Results (σ : Type) where
  vecs : Vecs σ
  rro : Nat
  rrp : Nat
  CNAME : Bytes

/-- Bytes are copied to the buffer, which is large enough for them, and the next pointer of the
vector points there. -/
def Results.store (r : Results σ) (b : Nat) (bytes : Bytes) : Results σ :=
  let v := r.vecs.set (b + r.rro) (.rrb r.rrp)
  { r with vecs := { v with rrb := poke v.rrb r.rrp bytes }, rro := r.rro + 1
           rrp := r.rrp + bytes.length }

end

/-- `n` bytes of the data of a record. -/
def dataBytes (data : Bytes) (n : Nat) : Bytes := (List.range n).map fun i => data.getD (2 + i) 0

/-- The first four bytes of the data, as a number. -/
def dataLong (data : Bytes) : Nat :=
  (data.getD 2 0).toNat * 16777216 + (data.getD 3 0).toNat * 65536 +
    (data.getD 4 0).toNat * 256 + (data.getD 5 0).toNat

def dataType (data : Bytes) : Nat := (data.getD 0 0).toNat

/-- The preference of an MX record. -/
def dataPref (data : Bytes) : Nat := (data.getD 6 0).toNat * 256 + (data.getD 7 0).toNat

/-- `mxsort` does not put the second record before the first one. -/
def mxle (a b : Bytes) : Bool :=
  dataType a != TY_MX || dataType b != TY_MX || decide (dataPref a ≤ dataPref b)

/-! ## One lookup -/

section
variable {σ : Type} (R : Resolver σ)

/-- One turn of the loop, for the record at `rri`. -/
def resultStep (hasCname : Bool) (qtype b rri : Nat) (data : Bytes) (r : Results σ) : Results σ :=
  let v := (r.vecs.set (b + rri) (.rr (data.drop 2))).set (b + r.rro) (.rr (data.drop 2))
  let r := { r with vecs := v }
  if dataType data = TY_AAAA then r.store b (dataBytes data 16)
  else if dataType data = TY_A then r.store b (dataBytes data 4)
  else if (dataType data = TY_MX ∨ dataType data = TY_CNAME) ∧ qtype = TY_PTR then r
  else if dataType data = TY_CNAME then
    let dname := R.DNS_nodename (dataLong data) v.res
    let r := { r with CNAME := dname, vecs := if hasCname then { v with cname := dname } else v }
    if qtype = TY_CNAME then r.store b (dname ++ [0]) else r
  else if dataType data = TY_MX ∨ dataType data = TY_PTR then
    r.store b (R.DNS_nodename (dataLong data) v.res ++ [0])
  else r

def resultLoop (hasCname : Bool) (qtype b : Nat) : Nat → List Bytes → Results σ → Results σ
  | _, [], r => r
  | rri, data :: hits, r =>
    resultLoop hasCname qtype b (rri + 1) hits (resultStep R hasCname qtype b rri data r)

/-- The part of `gethostbynameaddr_dns` from `getRRbynameaddr` to the end of the vector, for the
vector from `b` on and the buffer from `p` on. -/
def lookupResults (hasCname : Bool) (name : Bytes) (qtype b rrc p : Nat) (v : Vecs σ) :
    Results σ :=
  let found := R.getRRbynameaddr name qtype rrc v.res
  let v := { v with res := found.2 }.putHits b found.1
  let hits := if qtype = TY_MX then found.1.mergeSort mxle else found.1
  let v := if qtype = TY_MX then v.putHits b hits else v
  let r := resultLoop R hasCname qtype b 0 hits ⟨v, 0, p, []⟩
  { r with vecs := (r.vecs.set (b + r.rro) .null).set (b + r.rro + 1) (.rrb r.rrp) }

/-! ## Mail exchangers -/

def lower (c : Octet) : Octet := if 65 ≤ c ∧ c ≤ 90 then c + 32 else c

/-- The name and the type that are looked up: after `_srv.` the type is SRV. -/
def srvName (name : Bytes) (qtype : Nat) : Bytes × Nat :=
  if (name.take 5).map lower = ascii "_srv." then (name.drop 5, TY_SRV) else (name, qtype)

/-- A lookup after the check for `_srv.`. -/
def lookupName (hasCname : Bool) (name : Bytes) (qtype b rrc p : Nat) (v : Vecs σ) : Results σ :=
  lookupResults R hasCname (srvName name qtype).1 (srvName name qtype).2 b rrc p v

/-- The text at a pointer into the buffer, of less than `siz` bytes. -/
def textAt (siz : Nat) (rrb : Nat → Octet) : Ptr → Bytes
  | .rrb p => cstr ((List.range' p siz).map rrb)
  | .rr data => cstr data
  | .null => []

/-- The name of an exchanger begins with `-MX`. -/
def isMXname (host : Bytes) : Bool := (host.take 3).map lower == ascii "-mx"

/-- The place in the buffer that a lookup left for the next one. -/
def Ptr.place : Ptr → Nat
  | .rrb p => p
  | _ => 0

/-- The loop over the exchangers, with `rmx` addresses from before. -/
def mxLoop (siz rrc : Nat) : List Ptr → Nat → Nat → Vecs σ → Nat × Vecs σ
  | [], rmx, _, v => (rmx, v)
  | m :: mxv, rmx, p, v =>
    let host := textAt siz v.rrb m
    if isMXname host then mxLoop siz rrc mxv rmx p v
    else
      let r := lookupName R false host TY_A rmx (rrc - rmx) p v
      mxLoop siz rrc mxv (rmx + r.rro) (r.vecs.rrv (rmx + r.rro + 1)).place r.vecs

/-- The addresses of `nmx` exchangers, of which 64 at most are taken. -/
def mxHosts (siz rrc nmx : Nat) (v : Vecs σ) : Nat × Vecs σ :=
  mxLoop R siz rrc ((List.range (min nmx 64)).map v.rrv) 0 0 v

/-- The branch for mail exchangers. Where there are none it goes on with the name. It reads
`cname[0]` also if there is no such buffer, and does not return then. -/
def mxSearch (siz : Nat) (hasCname : Bool) (rrc : Nat) (name : Bytes)
    (again : Vecs σ → Option (Nat × Vecs σ)) (v : Vecs σ) : Option (Nat × Vecs σ) :=
  let r := lookupName R hasCname name TY_MX 0 rrc 0 v
  if r.rro ≠ 0 then some (mxHosts R siz rrc r.rro r.vecs)
  else if hasCname = false then none
  else if r.vecs.cname = [] then again r.vecs
  else
    let r := lookupName R true r.vecs.cname TY_MX 0 rrc 0 { r.vecs with cname := [] }
    if r.rro ≠ 0 then some (mxHosts R siz rrc r.rro r.vecs) else again r.vecs

/-! ## The whole lookup -/

/-- A lookup goes on with the canonical name if it found nothing else. -/
def goesOn (hasCname : Bool) (name : Bytes) (qtype hits : Nat) (r : Results σ) : Prop :=
  r.rro = 0 ∧ 0 < hits ∧ (qtype = TY_A ∨ qtype = TY_AAAA) ∧ hasCname = true ∧ r.CNAME ≠ [] ∧
    name.map lower ≠ r.CNAME.map lower

instance instDecidableGoesOn (hasCname : Bool) (name : Bytes) (qtype hits : Nat) (r : Results σ) :
    Decidable (goesOn hasCname name qtype hits r) := by
  unfold goesOn
  infer_instance

/-- How many records a lookup finds. -/
def hitsOf (name : Bytes) (qtype rrc : Nat) (v : Vecs σ) : List Bytes :=
  (R.getRRbynameaddr (srvName name qtype).1 (srvName name qtype).2 rrc v.res).1

/-- A lookup of a plain name. A canonical name goes on with `cont`, in a vector of as many entries
as there were records. -/
def direct (hasCname : Bool) (cont : Nat → Nat → Bytes → Vecs σ → Option (Nat × Vecs σ))
    (qtype rrc : Nat) (name : Bytes) (v : Vecs σ) : Option (Nat × Vecs σ) :=
  let r := lookupName R hasCname name qtype 0 rrc 0 v
  let hits := (hitsOf R name qtype rrc v).length
  if goesOn hasCname (srvName name qtype).1 (srvName name qtype).2 hits r then
    cont (srvName name qtype).2 hits r.CNAME r.vecs
  else some (r.rro, r.vecs)

/-- A lookup of a name, with the prefix `-MX.` or without. -/
def search (siz : Nat) (hasCname : Bool)
    (cont : Nat → Nat → Bytes → Vecs σ → Option (Nat × Vecs σ)) (qtype rrc : Nat) :
    Bytes → Vecs σ → Option (Nat × Vecs σ)
  | 45 :: 77 :: 88 :: 46 :: rest, v =>
    if qtype = TY_A then
      mxSearch R siz hasCname rrc rest (search siz hasCname cont qtype rrc rest) v
    else direct R hasCname cont qtype rrc (45 :: 77 :: 88 :: 46 :: rest) v
  | name, v => direct R hasCname cont qtype rrc name v

/-- `gethostbynameaddr_dns` with a buffer for the canonical name or without: the count and what
was written. A canonical name is looked up without such a buffer. -/
def gethostbynameaddr_dns (siz : Nat) (hasCname : Bool) (name : Bytes) (qtype rrc : Nat)
    (v : Vecs σ) : Option (Nat × Vecs σ) :=
  if R.inInitSRCIFforDNS then some (0, v)
  else search R siz hasCname (search R siz false fun _ _ _ _ => none) qtype rrc name v

end

/-! ## What is written -/

/-- A record that gets an entry of the vector. -/
def keeps (qtype : Nat) (data : Bytes) : Bool :=
  dataType data == TY_AAAA || dataType data == TY_A || dataType data == TY_PTR ||
    (dataType data == TY_MX && qtype != TY_PTR) || (dataType data == TY_CNAME && qtype == TY_CNAME)

section
variable {σ : Type} {R : Resolver σ}

@[simp] theorem store_rro (r : Results σ) (b : Nat) (bytes : Bytes) :
    (r.store b bytes).rro = r.rro + 1 := rfl

@[simp] theorem store_written (r : Results σ) (b : Nat) (bytes : Bytes) :
    (r.store b bytes).vecs.written = r.vecs.written ++ [b + r.rro] := rfl

theorem resultStep_spec (hasCname : Bool) (qtype b rri : Nat) (data : Bytes) (r : Results σ) :
    (resultStep R hasCname qtype b rri data r).rro =
        r.rro + (if keeps qtype data then 1 else 0) ∧
      ∃ more, (resultStep R hasCname qtype b rri data r).vecs.written = r.vecs.written ++ more ∧
        ∀ i ∈ more, i = b + rri ∨ i = b + r.rro := by
  have hmx : TY_MX = 15 := rfl
  have hcname : TY_CNAME = 5 := rfl
  have hptr : TY_PTR = 12 := rfl
  have haaaa : TY_AAAA = 28 := rfl
  have ha : TY_A = 1 := rfl
  unfold resultStep keeps
  dsimp only
  generalize dataType data = type
  by_cases h28 : type = TY_AAAA
  · rw [if_pos h28]
    refine ⟨by simp [h28], [b + rri, b + r.rro, b + r.rro], by simp [Vecs.set], by simp⟩
  rw [if_neg h28]
  by_cases h1 : type = TY_A
  · rw [if_pos h1]
    refine ⟨by simp [h1], [b + rri, b + r.rro, b + r.rro], by simp [Vecs.set], by simp⟩
  rw [if_neg h1]
  by_cases hno : (type = TY_MX ∨ type = TY_CNAME) ∧ qtype = TY_PTR
  · rw [if_pos hno]
    refine ⟨?_, [b + rri, b + r.rro], by simp [Vecs.set], by simp⟩
    obtain ⟨htype | htype, rfl⟩ := hno
    · simp [htype, hmx, hcname, hptr, haaaa, ha]
    · simp [htype, hmx, hcname, hptr, haaaa, ha]
  rw [if_neg hno]
  by_cases h5 : type = TY_CNAME
  · rw [if_pos h5]
    subst h5
    by_cases hq : qtype = TY_CNAME
    · rw [if_pos hq]
      refine ⟨by simp [hq], [b + rri, b + r.rro, b + r.rro], ?_, by simp⟩
      split <;> simp [Vecs.set]
    · rw [if_neg hq]
      rw [hcname] at hq
      refine ⟨by simp [hq, hmx, hcname, hptr, haaaa, ha], [b + rri, b + r.rro], ?_, by simp⟩
      dsimp only
      split <;> simp [Vecs.set]
  rw [if_neg h5]
  by_cases hname : type = TY_MX ∨ type = TY_PTR
  · rw [if_pos hname]
    refine ⟨?_, [b + rri, b + r.rro, b + r.rro], by simp [Vecs.set], by simp⟩
    rcases hname with rfl | rfl
    · have hq : qtype ≠ TY_PTR := fun h => hno ⟨.inl rfl, h⟩
      simp [hq]
    · simp
  · rw [if_neg hname]
    obtain ⟨h15, h12⟩ := not_or.mp hname
    refine ⟨by simp [h28, h1, h5, h15, h12], [b + rri, b + r.rro], by simp [Vecs.set], by simp⟩

theorem resultLoop_spec (hasCname : Bool) (qtype b rri : Nat) (hits : List Bytes) (r : Results σ)
    (hrri : r.rro ≤ rri) :
    (resultLoop R hasCname qtype b rri hits r).rro = r.rro + hits.countP (keeps qtype) ∧
      ∃ more, (resultLoop R hasCname qtype b rri hits r).vecs.written = r.vecs.written ++ more ∧
        ∀ i ∈ more, i < b + rri + hits.length := by
  induction hits generalizing rri r with
  | nil => exact ⟨rfl, [], (List.append_nil _).symm, fun _ h => absurd h List.not_mem_nil⟩
  | cons data hits ih =>
    obtain ⟨hrro, more, hwritten, hmore⟩ := resultStep_spec (R := R) hasCname qtype b rri data r
    have hle : (resultStep R hasCname qtype b rri data r).rro ≤ rri + 1 := by
      rw [hrro]
      split <;> omega
    obtain ⟨hrro', more', hwritten', hmore'⟩ := ih (rri + 1) _ hle
    rw [resultLoop, List.countP_cons]
    refine ⟨by rw [hrro', hrro]; omega, more ++ more', ?_, ?_⟩
    · rw [hwritten', hwritten, List.append_assoc]
    · intro i hi
      rw [List.length_cons]
      rcases List.mem_append.mp hi with hi | hi
      · rcases hmore i hi with rfl | rfl <;> omega
      · have := hmore' i hi
        omega

theorem putHits_written (v : Vecs σ) (i : Nat) (hits : List Bytes) :
    (v.putHits i hits).written = v.written ++ List.range' i hits.length := by
  induction hits generalizing v i with
  | nil => simp [Vecs.putHits]
  | cons data hits ih =>
    rw [Vecs.putHits, ih, List.length_cons, List.range'_succ]
    simp [Vecs.set]

/-- A lookup writes the entries for its records, and two entries after those that it keeps. -/
theorem lookupResults_spec (hasCname : Bool) (name : Bytes) (qtype b rrc p : Nat) (v : Vecs σ) :
    (lookupResults R hasCname name qtype b rrc p v).rro =
        (R.getRRbynameaddr name qtype rrc v.res).1.countP (keeps qtype) ∧
      ∃ more, (lookupResults R hasCname name qtype b rrc p v).vecs.written = v.written ++ more ++
          [b + (lookupResults R hasCname name qtype b rrc p v).rro,
            b + (lookupResults R hasCname name qtype b rrc p v).rro + 1] ∧
        ∀ i ∈ more, i < b + (R.getRRbynameaddr name qtype rrc v.res).1.length := by
  unfold lookupResults
  dsimp only
  generalize R.getRRbynameaddr name qtype rrc v.res = found
  generalize hhits : (if qtype = TY_MX then found.1.mergeSort mxle else found.1) = hits
  have hperm : hits.Perm found.1 := by
    rw [← hhits]
    split
    · exact List.mergeSort_perm _ _
    · exact List.Perm.refl _
  obtain ⟨before, hbefore, hlt⟩ : ∃ before,
      (if qtype = TY_MX then ({ v with res := found.2 }.putHits b found.1).putHits b hits
        else { v with res := found.2 }.putHits b found.1).written = v.written ++ before ∧
        ∀ i ∈ before, i < b + found.1.length := by
    split
    · refine ⟨List.range' b found.1.length ++ List.range' b hits.length, ?_, ?_⟩
      · rw [putHits_written, putHits_written, List.append_assoc]
      · intro i hi
        rw [hperm.length_eq] at hi
        rcases List.mem_append.mp hi with hi | hi
        · exact (List.mem_range'_1.mp hi).2
        · exact (List.mem_range'_1.mp hi).2
    · refine ⟨List.range' b found.1.length, putHits_written _ _ _, ?_⟩
      intro i hi
      exact (List.mem_range'_1.mp hi).2
  generalize (if qtype = TY_MX then ({ v with res := found.2 }.putHits b found.1).putHits b hits
    else { v with res := found.2 }.putHits b found.1) = v' at hbefore
  obtain ⟨hrro, more, hmore, hin⟩ :=
    resultLoop_spec (R := R) hasCname qtype b 0 hits ⟨v', 0, p, []⟩ le_rfl
  refine ⟨by rw [hrro, hperm.countP_eq]; exact Nat.zero_add _, before ++ more, ?_, ?_⟩
  · simp only [Vecs.set, hmore, hbefore, List.append_assoc]
    rfl
  · intro i hi
    rcases List.mem_append.mp hi with hi | hi
    · exact hlt i hi
    · have := hin i hi
      rw [hperm.length_eq] at this
      omega

/-! ## Room in the vector -/

/-- All entries that were written are below `lim`. -/
def Below (lim : Nat) (v : Vecs σ) : Prop := ∀ i ∈ v.written, i < lim

/-- A lookup that returns, with all entries and the end of the results below `lim`. -/
def Within (lim : Nat) (out : Option (Nat × Vecs σ)) : Prop :=
  ∃ count v, out = some (count, v) ∧ Below lim v ∧ count < lim

/-- How many entries a lookup keeps. -/
def keptOf (R : Resolver σ) (name : Bytes) (qtype rrc : Nat) (v : Vecs σ) : Nat :=
  (hitsOf R name qtype rrc v).countP (keeps (srvName name qtype).2)

theorem lookupName_rro (hasCname : Bool) (name : Bytes) (qtype b rrc p : Nat) (v : Vecs σ) :
    (lookupName R hasCname name qtype b rrc p v).rro = keptOf R name qtype rrc v :=
  (lookupResults_spec hasCname _ _ b rrc p v).1

theorem lookupName_mono (hasCname : Bool) (name : Bytes) (qtype b rrc p : Nat) (v : Vecs σ) :
    v.written ⊆ (lookupName R hasCname name qtype b rrc p v).vecs.written := by
  obtain ⟨-, more, hwritten, -⟩ :=
    lookupResults_spec (R := R) hasCname (srvName name qtype).1 (srvName name qtype).2 b rrc p v
  unfold lookupName
  rw [hwritten, List.append_assoc]
  exact List.subset_append_left _ _

/-- The entries of a lookup are below `lim` exactly if there is room for those that it keeps and
for two more. -/
theorem lookupName_below {lim : Nat} (hasCname : Bool) (name : Bytes) (qtype b rrc p : Nat)
    {v : Vecs σ} (hv : Below lim v) (hrrc : rrc = 0 ∨ b + rrc ≤ lim) :
    Below lim (lookupName R hasCname name qtype b rrc p v).vecs ↔
      b + keptOf R name qtype rrc v + 1 < lim := by
  obtain ⟨hrro, more, hwritten, hmore⟩ :=
    lookupResults_spec (R := R) hasCname (srvName name qtype).1 (srvName name qtype).2 b rrc p v
  have hlen := R.room (srvName name qtype).1 (srvName name qtype).2 rrc v.res
  have hkept : (lookupName R hasCname name qtype b rrc p v).rro = keptOf R name qtype rrc v :=
    lookupName_rro hasCname name qtype b rrc p v
  have hwritten' : (lookupName R hasCname name qtype b rrc p v).vecs.written = v.written ++ more ++
      [b + keptOf R name qtype rrc v, b + keptOf R name qtype rrc v + 1] := by
    rw [← hkept]
    exact hwritten
  unfold Below
  rw [hwritten']
  constructor
  · intro h
    apply h
    simp
  · intro h i hi
    rcases List.mem_append.mp hi with hi | hi
    · rcases List.mem_append.mp hi with hi | hi
      · exact hv i hi
      · have := hmore i hi
        omega
    · simp only [List.mem_cons, List.not_mem_nil, or_false] at hi
      omega

theorem Below.cname {lim : Nat} {v : Vecs σ} (h : Below lim v) (cname : Bytes) :
    Below lim { v with cname } := h

/-- There is room for the addresses of the exchangers, each with two entries after its own. -/
def LoopRoom (R : Resolver σ) (siz lim rrc : Nat) : List Ptr → Nat → Nat → Vecs σ → Prop
  | [], _, _, _ => True
  | m :: mxv, rmx, p, v =>
    let host := textAt siz v.rrb m
    if isMXname host then LoopRoom R siz lim rrc mxv rmx p v
    else
      rmx + keptOf R host TY_A (rrc - rmx) v + 1 < lim ∧
      let r := lookupName R false host TY_A rmx (rrc - rmx) p v
      LoopRoom R siz lim rrc mxv (rmx + r.rro) (r.vecs.rrv (rmx + r.rro + 1)).place r.vecs

theorem mxLoop_mono (siz rrc : Nat) (mxv : List Ptr) (rmx p : Nat) (v : Vecs σ) :
    v.written ⊆ (mxLoop R siz rrc mxv rmx p v).2.written := by
  induction mxv generalizing rmx p v with
  | nil => exact List.Subset.refl _
  | cons m mxv ih =>
    unfold mxLoop
    dsimp only
    split
    · exact ih rmx p v
    · exact List.Subset.trans (lookupName_mono _ _ _ _ _ _ v) (ih _ _ _)

theorem mxLoop_below {siz lim rrc : Nat} (hrrc : rrc ≤ lim) (mxv : List Ptr) (rmx p : Nat)
    {v : Vecs σ} (hv : Below lim v) (hrmx : rmx < lim) :
    (Below lim (mxLoop R siz rrc mxv rmx p v).2 ∧ (mxLoop R siz rrc mxv rmx p v).1 < lim) ↔
      LoopRoom R siz lim rrc mxv rmx p v := by
  induction mxv generalizing rmx p v with
  | nil => exact iff_of_true ⟨hv, hrmx⟩ trivial
  | cons m mxv ih =>
    unfold mxLoop LoopRoom
    dsimp only
    split
    · exact ih rmx p hv hrmx
    · have hbelow : _ ↔ _ := lookupName_below (R := R) false (textAt siz v.rrb m) TY_A rmx
        (rrc - rmx) p hv (by omega)
      have hrro := lookupName_rro (R := R) false (textAt siz v.rrb m) TY_A rmx (rrc - rmx) p v
      by_cases hroom : rmx + keptOf R (textAt siz v.rrb m) TY_A (rrc - rmx) v + 1 < lim
      · rw [ih _ _ (hbelow.mpr hroom) (by omega)]
        exact (and_iff_right hroom).symm
      · apply iff_of_false
        · rintro ⟨hend, -⟩
          exact hroom (hbelow.mp fun i hi => hend i (mxLoop_mono _ _ _ _ _ _ hi))
        · exact fun h => hroom h.1

/-- There is room for the exchangers and for their addresses. -/
def MxRoom (R : Resolver σ) (siz : Nat) (hasCname : Bool) (lim rrc : Nat) (name : Bytes)
    (again : Vecs σ → Prop) (v : Vecs σ) : Prop :=
  keptOf R name TY_MX rrc v + 1 < lim ∧
  let v₁ := (lookupName R hasCname name TY_MX 0 rrc 0 v).vecs
  if keptOf R name TY_MX rrc v ≠ 0 then
    LoopRoom R siz lim rrc ((List.range (min (keptOf R name TY_MX rrc v) 64)).map v₁.rrv) 0 0 v₁
  else if hasCname = false then False
  else if v₁.cname = [] then again v₁
  else
    let v₂ := { v₁ with cname := [] }
    keptOf R v₁.cname TY_MX rrc v₂ + 1 < lim ∧
    let v₃ := (lookupName R true v₁.cname TY_MX 0 rrc 0 v₂).vecs
    if keptOf R v₁.cname TY_MX rrc v₂ ≠ 0 then
      LoopRoom R siz lim rrc ((List.range (min (keptOf R v₁.cname TY_MX rrc v₂) 64)).map v₃.rrv) 0 0
        v₃
    else again v₃

/-- There is room for the records of a plain name, and for those of the canonical name that the
lookup goes on with. -/
def DirectRoom (R : Resolver σ) (hasCname : Bool) (cont : Nat → Nat → Bytes → Vecs σ → Prop)
    (lim qtype rrc : Nat) (name : Bytes) (v : Vecs σ) : Prop :=
  keptOf R name qtype rrc v + 1 < lim ∧
  let r := lookupName R hasCname name qtype 0 rrc 0 v
  let hits := (hitsOf R name qtype rrc v).length
  (goesOn hasCname (srvName name qtype).1 (srvName name qtype).2 hits r →
    cont (srvName name qtype).2 hits r.CNAME r.vecs)

def SearchRoom (R : Resolver σ) (siz : Nat) (hasCname : Bool)
    (cont : Nat → Nat → Bytes → Vecs σ → Prop) (lim qtype rrc : Nat) : Bytes → Vecs σ → Prop
  | 45 :: 77 :: 88 :: 46 :: rest, v =>
    if qtype = TY_A then
      MxRoom R siz hasCname lim rrc rest (SearchRoom R siz hasCname cont lim qtype rrc rest) v
    else DirectRoom R hasCname cont lim qtype rrc (45 :: 77 :: 88 :: 46 :: rest) v
  | name, v => DirectRoom R hasCname cont lim qtype rrc name v

/-- There is room for all lookups that a call makes: in each one, for the entries from before it,
for those that it keeps, and for two more. A canonical name that begins with `-MX.` has
exchangers. -/
def Room (R : Resolver σ) (siz : Nat) (hasCname : Bool) (name : Bytes) (qtype rrc : Nat)
    (v : Vecs σ) : Prop :=
  R.inInitSRCIFforDNS = true ∨
    SearchRoom R siz hasCname (SearchRoom R siz false (fun _ _ _ _ => False) rrc) rrc qtype rrc name v

/-- What follows keeps what was written. -/
def Keeps (v : Vecs σ) (out : Option (Nat × Vecs σ)) : Prop :=
  ∀ count v', out = some (count, v') → v.written ⊆ v'.written

theorem Keeps.below {lim : Nat} {v : Vecs σ} {out : Option (Nat × Vecs σ)} (h : Keeps v out)
    (hw : Within lim out) : Below lim v := by
  obtain ⟨count, v', hout, hbelow, -⟩ := hw
  exact fun i hi => hbelow i (h count v' hout hi)

theorem Keeps.after {v v' : Vecs σ} {out : Option (Nat × Vecs σ)}
    (hsub : v.written ⊆ v'.written) (h : Keeps v' out) : Keeps v out :=
  fun count v'' hout => List.Subset.trans hsub (h count v'' hout)

theorem keeps_mxHosts (siz rrc nmx : Nat) (v : Vecs σ) :
    Keeps v (some (mxHosts R siz rrc nmx v)) := by
  intro count v' hout
  have hv : v' = (mxHosts R siz rrc nmx v).2 := by
    rw [Option.some.inj hout]
  rw [hv]
  exact mxLoop_mono _ _ _ _ _ _

theorem within_mxHosts {siz lim rrc : Nat} (hrrc : rrc ≤ lim) (hlim : 0 < lim) (nmx : Nat)
    {v : Vecs σ} (hv : Below lim v) :
    Within lim (some (mxHosts R siz rrc nmx v)) ↔
      LoopRoom R siz lim rrc ((List.range (min nmx 64)).map v.rrv) 0 0 v := by
  rw [← mxLoop_below hrrc _ _ _ hv hlim]
  constructor
  · rintro ⟨count, v', hout, hbelow, hcount⟩
    have heq := Option.some.inj hout
    unfold mxHosts at heq
    rw [heq]
    exact ⟨hbelow, hcount⟩
  · rintro ⟨hbelow, hcount⟩
    exact ⟨_, _, rfl, hbelow, hcount⟩

/-- One lookup and what follows it. -/
theorem within_lookup {lim : Nat} (hasCname : Bool) (name : Bytes) (qtype rrc : Nat) {v : Vecs σ}
    (hv : Below lim v) (hrrc : rrc ≤ lim) {out : Option (Nat × Vecs σ)} {next : Prop}
    (hkeeps : Keeps (lookupName R hasCname name qtype 0 rrc 0 v).vecs out)
    (hnext : Below lim (lookupName R hasCname name qtype 0 rrc 0 v).vecs →
      (Within lim out ↔ next)) :
    Within lim out ↔ keptOf R name qtype rrc v + 1 < lim ∧ next := by
  have hbelow : _ ↔ _ := lookupName_below (R := R) hasCname name qtype 0 rrc 0 hv (by omega)
  rw [Nat.zero_add] at hbelow
  constructor
  · intro hw
    have hroom := hkeeps.below hw
    exact ⟨hbelow.mp hroom, (hnext hroom).mp hw⟩
  · rintro ⟨hroom, hn⟩
    exact (hnext (hbelow.mpr hroom)).mpr hn

section Search
variable {siz : Nat} {hasCname : Bool} {cont : Nat → Nat → Bytes → Vecs σ → Option (Nat × Vecs σ)}

theorem keeps_mxSearch {again : Vecs σ → Option (Nat × Vecs σ)} (hagain : ∀ v, Keeps v (again v))
    (rrc : Nat) (name : Bytes) (v : Vecs σ) :
    Keeps (lookupName R hasCname name TY_MX 0 rrc 0 v).vecs
      (mxSearch R siz hasCname rrc name again v) := by
  unfold mxSearch
  dsimp only
  split
  · exact keeps_mxHosts _ _ _ _
  split
  · intro count v' hout
    cases hout
  split
  · exact hagain _
  generalize (lookupName R hasCname name TY_MX 0 rrc 0 v).vecs = v₁
  have hmono : v₁.written ⊆ _ := lookupName_mono (R := R) true v₁.cname TY_MX 0 rrc 0
    { v₁ with cname := [] }
  split
  · exact Keeps.after hmono (keeps_mxHosts _ _ _ _)
  · exact Keeps.after hmono (hagain _)

theorem keeps_direct (hcont : ∀ qtype rrc name v, Keeps v (cont qtype rrc name v))
    (qtype rrc : Nat) (name : Bytes) (v : Vecs σ) :
    Keeps (lookupName R hasCname name qtype 0 rrc 0 v).vecs
      (direct R hasCname cont qtype rrc name v) := by
  unfold direct
  dsimp only
  split
  · exact hcont _ _ _ _
  · intro count v' hout
    cases hout
    exact List.Subset.refl _

theorem keeps_search (hcont : ∀ qtype rrc name v, Keeps v (cont qtype rrc name v))
    (qtype rrc : Nat) (name : Bytes) (v : Vecs σ) :
    Keeps v (search R siz hasCname cont qtype rrc name v) := by
  induction hlen : name.length using Nat.strong_induction_on generalizing name v with
  | _ n ih =>
    have hdirect := fun name => Keeps.after (lookupName_mono (R := R) hasCname name qtype 0 rrc 0 v)
      (keeps_direct hcont qtype rrc name v)
    unfold search
    split
    · rename_i rest
      split
      · apply Keeps.after (lookupName_mono hasCname rest TY_MX 0 rrc 0 v)
        apply keeps_mxSearch
        intro v'
        exact ih rest.length (by rw [← hlen]; simp only [List.length_cons]; omega) rest v' rfl
      · exact hdirect _
    · exact hdirect _

variable {lim rrc : Nat}

theorem within_mxSearch (hrrc : rrc ≤ lim) (hlim : 0 < lim)
    {again : Vecs σ → Option (Nat × Vecs σ)} {againRoom : Vecs σ → Prop}
    (hkeeps : ∀ v, Keeps v (again v))
    (hagain : ∀ v, Below lim v → (Within lim (again v) ↔ againRoom v)) (name : Bytes) {v : Vecs σ}
    (hv : Below lim v) :
    Within lim (mxSearch R siz hasCname rrc name again v) ↔
      MxRoom R siz hasCname lim rrc name againRoom v := by
  unfold MxRoom
  apply within_lookup hasCname name TY_MX rrc hv hrrc (keeps_mxSearch hkeeps rrc name v)
  intro hv₁
  have hrro : _ = _ := lookupName_rro (R := R) hasCname name TY_MX 0 rrc 0 v
  unfold mxSearch
  dsimp only
  rw [hrro]
  generalize (lookupName R hasCname name TY_MX 0 rrc 0 v).vecs = v₁ at hv₁
  split
  · exact within_mxHosts hrrc hlim _ hv₁
  split
  · apply iff_of_false
    · rintro ⟨count, v', hout, -⟩
      cases hout
    · exact id
  split
  · exact hagain v₁ hv₁
  have hrro₂ : _ = _ := lookupName_rro (R := R) true v₁.cname TY_MX 0 rrc 0 { v₁ with cname := [] }
  rw [hrro₂]
  apply within_lookup true v₁.cname TY_MX rrc (hv₁.cname []) hrrc
  · split
    · exact keeps_mxHosts _ _ _ _
    · exact hkeeps _
  · intro hv₃
    split
    · exact within_mxHosts hrrc hlim _ hv₃
    · exact hagain _ hv₃

theorem within_direct (hrrc : rrc ≤ lim) {contRoom : Nat → Nat → Bytes → Vecs σ → Prop}
    (hkeeps : ∀ qtype rrc name v, Keeps v (cont qtype rrc name v))
    (hcont : ∀ qtype n name v, n ≤ lim → Below lim v →
      (Within lim (cont qtype n name v) ↔ contRoom qtype n name v)) (qtype : Nat) (name : Bytes)
    {v : Vecs σ} (hv : Below lim v) :
    Within lim (direct R hasCname cont qtype rrc name v) ↔
      DirectRoom R hasCname contRoom lim qtype rrc name v := by
  have hlen : (hitsOf R name qtype rrc v).length ≤ rrc := R.room _ _ _ _
  unfold DirectRoom
  have hbelow : _ ↔ _ := lookupName_below (R := R) hasCname name qtype 0 rrc 0 hv (by omega)
  apply within_lookup hasCname name qtype rrc hv hrrc (keeps_direct hkeeps qtype rrc name v)
  intro hv₁
  have hroom := hbelow.mp hv₁
  have hrro : _ = _ := lookupName_rro (R := R) hasCname name qtype 0 rrc 0 v
  unfold direct
  dsimp only
  split
  · rename_i hgo
    rw [hcont _ _ _ _ (by omega) hv₁]
    exact ⟨fun h _ => h, fun h => h hgo⟩
  · rename_i hstop
    apply iff_of_true
    · exact ⟨_, _, rfl, hv₁, by rw [hrro]; omega⟩
    · exact fun h => absurd h hstop

theorem within_search (hrrc : rrc ≤ lim) (hlim : 0 < lim)
    {contRoom : Nat → Nat → Bytes → Vecs σ → Prop}
    (hkeeps : ∀ qtype rrc name v, Keeps v (cont qtype rrc name v))
    (hcont : ∀ qtype n name v, n ≤ lim → Below lim v →
      (Within lim (cont qtype n name v) ↔ contRoom qtype n name v)) (qtype : Nat) (name : Bytes)
    (v : Vecs σ) (hv : Below lim v) :
    Within lim (search R siz hasCname cont qtype rrc name v) ↔
      SearchRoom R siz hasCname contRoom lim qtype rrc name v := by
  induction hlen : name.length using Nat.strong_induction_on generalizing name v with
  | _ n ih =>
    unfold search SearchRoom
    split
    · rename_i rest
      split
      · apply within_mxSearch hrrc hlim (keeps_search hkeeps qtype rrc rest) _ rest hv
        intro v' hv'
        exact ih rest.length (by rw [← hlen]; simp only [List.length_cons]; omega) rest v' hv' rfl
      · exact within_direct hrrc hkeeps hcont qtype _ hv
    · exact within_direct hrrc hkeeps hcont qtype _ hv

end Search

/-- No entry is written yet. -/
def Vecs.Fresh (v : Vecs σ) : Prop := v.written = []

/-- A lookup writes the vector below `rrc` only and returns a count whose end is below `rrc`,
exactly if there is room for each of the lookups that it makes. -/
theorem results_within_iff (R : Resolver σ) (siz : Nat) (hasCname : Bool) (name : Bytes)
    (qtype rrc : Nat) (v : Vecs σ) (hv : v.Fresh) (hrrc : 2 ≤ rrc) :
    Within rrc (gethostbynameaddr_dns R siz hasCname name qtype rrc v) ↔
      Room R siz hasCname name qtype rrc v := by
  have hbelow : Below rrc v := by
    intro i hi
    rw [hv] at hi
    exact absurd hi List.not_mem_nil
  have hnone : ∀ (qtype n : Nat) (name : Bytes) (v : Vecs σ), n ≤ rrc → Below rrc v →
      (Within rrc (none : Option (Nat × Vecs σ)) ↔ False) := by
    intro _ _ _ _ _ _
    apply iff_of_false
    · rintro ⟨count, v', hout, -⟩
      cases hout
    · exact id
  have hkeepsNone : ∀ (qtype n : Nat) (name : Bytes) (v : Vecs σ),
      Keeps v (none : Option (Nat × Vecs σ)) := by
    intro _ _ _ _ count v' hout
    cases hout
  unfold gethostbynameaddr_dns Room
  split
  · rename_i hinit
    exact iff_of_true ⟨0, v, rfl, hbelow, by omega⟩ (.inl hinit)
  · rename_i hinit
    rw [or_iff_right hinit]
    apply within_search le_rfl (by omega)
    · intro qtype n name v
      exact keeps_search hkeepsNone qtype n name v
    · intro qtype n name v hn hv
      exact within_search hn (by omega) hkeepsNone hnone qtype name v hv
    · exact hbelow

end

/-! ## The cache as a resolver -/

section Cache
open delegate.dnsnode (Cache RR Attr lookupLoop lookupCache rootCache)

theorem lookupLoop_length {follow : Nat → List RR → Cache → Option (Cache × List RR)} {rrc : Nat}
    (hfollow : ∀ nid rrv c c' rrv', rrv.length ≤ rrc → follow nid rrv c = some (c', rrv') →
      rrv'.length ≤ rrc) (av : List Attr) (rrv : List RR) (c c' : Cache) (rrv' : List RR)
    (hrrv : rrv.length ≤ rrc) (h : lookupLoop follow rrc av rrv c = some (c', rrv')) :
    rrv'.length ≤ rrc := by
  induction av generalizing rrv c with
  | nil =>
    cases h
    exact hrrv
  | cons a av ih =>
    unfold lookupLoop at h
    split at h
    · cases h
      exact hrrv
    · rename_i hroom
      have hpush : (rrv ++ [a.rr]).length ≤ rrc := by
        rw [List.length_append, List.length_singleton]
        omega
      split at h
      · exact ih rrv c hrrv h
      split at h
      · exact ih _ c hpush h
      split at h
      · exact ih rrv c hrrv h
      split at h
      · exact ih _ c hpush h
      split at h
      · split at h
        split at h
        · exact ih rrv _ hrrv h
        · split at h
          · cases h
          · split at h
            · cases h
            · rename_i hf
              exact ih _ _ (hfollow _ _ _ _ _ hpush hf) h
      split at h
      · exact ih _ c hpush h
      · exact ih rrv c hrrv h

/-- A lookup in the cache puts at most `rrc` records into the vector. -/
theorem lookupCache_length {ttl : Int} {clock : Int → Int} {qtype rrc : Nat} (n nid : Nat)
    (rrv : List RR) (c c' : Cache) (rrv' : List RR) (hrrv : rrv.length ≤ rrc)
    (h : lookupCache ttl clock qtype rrc n nid rrv c = some (c', rrv')) : rrv'.length ≤ rrc := by
  induction n generalizing nid rrv c c' rrv' with
  | zero => cases h
  | succ n ih => exact lookupLoop_length ih _ _ _ _ _ hrrv h

def toText (b : Bytes) : List Char := b.map fun c => Char.ofNat c.toNat

def toBytes (t : List Char) : Bytes := t.map fun c => UInt8.ofNat c.toNat

/-- `getRRbynameaddr` as far as it looks into the cache: the records of the name, and the cache
afterwards. -/
def cachedRR (ttl : Int) (clock : Int → Int) (name : Bytes) (qtype rrc : Nat) (c : Cache) :
    List Bytes × Cache :=
  if name = [] then ([], c)
  else match dnsnode.DNS_putbyname (toText name) c.store with
    | none => ([], c)
    | some (s, nid) =>
      match lookupCache ttl clock qtype rrc (rrc + 1) nid [] { c with store := s } with
      | none => ([], c)
      | some (c', rrv) => (rrv.map RR.data, c')

theorem cachedRR_length (ttl : Int) (clock : Int → Int) (name : Bytes) (qtype rrc : Nat)
    (c : Cache) : (cachedRR ttl clock name qtype rrc c).1.length ≤ rrc := by
  unfold cachedRR
  split
  · exact Nat.zero_le _
  split
  · exact Nat.zero_le _
  split
  · exact Nat.zero_le _
  · rename_i hlookup
    rw [List.length_map]
    exact lookupCache_length _ _ _ _ _ _ (Nat.zero_le _) hlookup

/-- The cache as the resolver. -/
def cacheResolver (ttl : Int) (clock : Int → Int) : Resolver Cache where
  inInitSRCIFforDNS := false
  getRRbynameaddr name qtype rrc := cachedRR ttl clock name qtype rrc
  room name qtype rrc c := cachedRR_length ttl clock name qtype rrc c
  DNS_nodename nid c := toBytes ((dnsnode.DNS_nodename c.store nid 512).getD [])

/-- A cache with two addresses of the root, and a vector that was not written. -/
def twoAddresses : Vecs Cache where
  res := rootCache [⟨0, dnsnode.typemask TY_A, 0, 60, [1, 1, 10, 0, 0, 5]⟩,
    ⟨1, dnsnode.typemask TY_A, 0, 60, [1, 1, 10, 0, 0, 6]⟩]
  rrv _ := .null
  written := []
  rrb _ := 0
  cname := []

theorem results_within_two :
    Within 4 (gethostbynameaddr_dns (cacheResolver 0 fun _ => 0) 1024 true [46] TY_A 4 twoAddresses) ↔
      Room (cacheResolver 0 fun _ => 0) 1024 true [46] TY_A 4 twoAddresses :=
  results_within_iff _ _ _ _ _ _ _ rfl (by omega)

/-- Two addresses fill a vector of two entries, and its end is written behind it. -/
theorem results_beyond :
    ¬ ∀ (R : Resolver Cache) (siz : Nat) (hasCname : Bool) (name : Bytes) (qtype rrc : Nat)
      (v : Vecs Cache), v.Fresh → 2 ≤ rrc →
      Within rrc (gethostbynameaddr_dns R siz hasCname name qtype rrc v) := by
  intro hall
  obtain ⟨count, v, hout, -, hcount⟩ :=
    hall (cacheResolver 0 fun _ => 0) 1024 true [46] TY_A 2 twoAddresses rfl le_rfl
  have htwo : (gethostbynameaddr_dns (cacheResolver 0 fun _ => 0) 1024 true [46] TY_A 2
      twoAddresses).map Prod.fst = some 2 := by
    decide +kernel
  rw [hout] at htwo
  have : count = 2 := Option.some.inj htwo
  omega

end Cache

end delegate.dns
