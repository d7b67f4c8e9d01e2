-- MX and SOA records come back from the cache (`relay_cachedRR`) as they were
-- received, up to the case of their names.
import Delegate.DnsCaching
import Mathlib.Tactic.IntervalCases

open ctext reads segs
open delegate.dnsnode (Store Index Extends Attr typemask fold MAXLEV)

namespace delegate.dns

/-! ## Responses -/

/-- The data of a record on the wire, for the two types that are relayed. -/
inductive WireData
  | mx (pref : Nat) (exchange : List Bytes)
  | soa (mname rname : List Bytes) (numbers : List Nat)
  | other
  deriving DecidableEq, Repr

structure WireRecord where
  owner : List Bytes
  type : Nat
  xclass : Nat
  data : WireData
  deriving DecidableEq, Repr

/-- Four bytes as a number. -/
def long (msg : Msg) (p : Nat) : Nat := short msg p * 65536 + short msg (p + 2)

/-- The data of a record at `mp`. The data of the other types may be any. -/
inductive DataIs (msg : Msg) (mp rdlength : Nat) : Nat → WireData → Prop
  | mx {ls text} : NameIs msg (mp + 2) ls text (mp + rdlength) →
      DataIs msg mp rdlength TY_MX (.mx (short msg mp) ls)
  | soa {m r text text' e1 e2} : NameIs msg mp m text e1 → NameIs msg e1 r text' e2 →
      e2 + 20 = mp + rdlength →
      DataIs msg mp rdlength TY_SOA (.soa m r [long msg e2, long msg (e2 + 4), long msg (e2 + 8),
        long msg (e2 + 12), long msg (e2 + 16)])
  | other {type} : type ≠ TY_MX → type ≠ TY_SOA → DataIs msg mp rdlength type .other

/-- A record at `p`, up to `next`. -/
def RecordIs (msg : Msg) (p : Nat) (w : WireRecord) (next : Nat) : Prop :=
  ∃ text fin, NameIs msg p w.owner text fin ∧ short msg fin = w.type ∧
    short msg (fin + 2) = w.xclass ∧
    DataIs msg (fin + 10) (short msg (fin + 8)) w.type w.data ∧
    next = fin + 10 + short msg (fin + 8)

/-- Records from `p` to `q`, in a message of `rc` bytes. -/
inductive RecordsAre (msg : Msg) (rc : Nat) : Nat → List WireRecord → Nat → Prop
  | nil {p} : RecordsAre msg rc p [] p
  | cons {p q r w ws} : RecordIs msg p w q → q ≤ rc → RecordsAre msg rc q ws r →
      RecordsAre msg rc p (w :: ws) r

/-- Questions from `p` to `q`. -/
inductive QuestionsAre (msg : Msg) (rc : Nat) : Nat → Nat → Nat → Prop
  | nil {p} : QuestionsAre msg rc 0 p p
  | cons {n p q ls text fin} : NameIs msg p ls text fin → fin + 4 ≤ rc →
      QuestionsAre msg rc n (fin + 4) q → QuestionsAre msg rc (n + 1) p q

/-- A response with the records of its three sections. -/
def Response (msg : Msg) (rc : Nat) (ws : List WireRecord) : Prop :=
  ∃ an ns ar p0 p1 p2 p3, ws = an ++ ns ++ ar ∧
    QuestionsAre msg rc (scanHeader msg).val.qdcount 12 p0 ∧
    RecordsAre msg rc p0 an p1 ∧ RecordsAre msg rc p1 ns p2 ∧ RecordsAre msg rc p2 ar p3 ∧
    (scanHeader msg).val.ancount = an.length ∧ (scanHeader msg).val.nscount = ns.length ∧
    (scanHeader msg).val.arcount = ar.length

/-! ## Records for an owner -/

def WireRecord.known (w : WireRecord) : Bool := knownType w.type w.xclass

/-- A record of the type for the owner. -/
def WireRecord.isFor (owner : List Bytes) (qtype : Nat) (w : WireRecord) : Bool :=
  decide (w.type = qtype ∧ SameLabels w.owner owner)

/-- Names that the cache can keep. A mail exchanger is not the root. -/
def WireData.Storable : WireData → Prop
  | .mx _ ls => ls ≠ [] ∧ Plain ls
  | .soa m r _ => Plain m ∧ Plain r
  | .other => True

instance instDecidableStorable : (d : WireData) → Decidable d.Storable
  | .mx _ ls => inferInstanceAs (Decidable (ls ≠ [] ∧ Plain ls))
  | .soa m r _ => inferInstanceAs (Decidable (Plain m ∧ Plain r))
  | .other => isTrue trivial

/-- Data that have room in the 512 bytes of `rbuff`: the five numbers of an SOA record stand behind
its names. -/
def WireData.HasRoom : WireData → Prop
  | .soa m r _ => (wire m).length + (wire r).length ≤ 492
  | _ => True

instance instDecidableHasRoom : (d : WireData) → Decidable d.HasRoom
  | .mx _ _ => isTrue trivial
  | .soa m r _ => inferInstanceAs (Decidable ((wire m).length + (wire r).length ≤ 492))
  | .other => isTrue trivial

/-- The class and the data, with the names up to case. -/
def WireRecord.folded (w : WireRecord) : Nat × WireData :=
  (w.xclass, match w.data with
    | .mx pref ls => .mx pref (ls.map (·.map lower))
    | .soa m r numbers => .soa (m.map (·.map lower)) (r.map (·.map lower)) numbers
    | .other => .other)

/-- One record for each distinct one of the received records. -/
structure Distinct (kept received : List WireRecord) : Prop where
  subset : ∀ w ∈ kept, w ∈ received
  nodup : (kept.map WireRecord.folded).Nodup
  all : ∀ w ∈ received, w.folded ∈ kept.map WireRecord.folded

/-- The bytes are the data of a record, with names that are the same up to case. -/
def SameData (d : Bytes) : WireData → Prop
  | .mx pref ls => ∃ ls', SameLabels ls' ls ∧ d = putShort pref ++ wire ls'
  | .soa m r numbers => ∃ m' r', SameLabels m' m ∧ SameLabels r' r ∧
      d = wire m' ++ wire r' ++ numbers.flatMap fun v => putLong (UInt32.ofNat v)
  | .other => False

/-! ## The cache behind the relay -/

/-- The data of a record of the cache. -/
def cached (a : Attr) : Option Cached :=
  if h : knownType (a.a_data.getD 0 0).toNat CL_IN = true then some ⟨a.a_data, h⟩ else none

/-- The lookups of names and records in the store. -/
def overStore (L : Lookups Store) : Lookups Store where
  gethostbyNX := L.gethostbyNX
  GETHOSTBYADDR := L.GETHOSTBYADDR
  getRRbynameaddr := L.getRRbynameaddr
  DNS_getbyname name s := ((dnsnode.DNS_getbyname (toText name) s).map Prod.snd).getD 0
  DNS_getattr nid mask s := (dnsnode.DNS_getattr nid mask 0 8 0 s).2.filterMap cached
  DNS_nodename nid s := toBytes ((dnsnode.DNS_nodename s nid.toNat 512).getD [])
  LastSOAdom := L.LastSOAdom
  RES_CACHED_UNKNOWN := L.RES_CACHED_UNKNOWN
  clearUnknown := L.clearUnknown
  RES_proxy := L.RES_proxy
  VSA_dnstosa := L.VSA_dnstosa
  rbuff := L.rbuff
  RRbuf := L.RRbuf

/-! ## Bytes of numbers -/

theorem or_bytes (v : UInt32) :
    ((v >>> 24).toUInt8.toUInt32 <<< 24) ||| ((v >>> 16).toUInt8.toUInt32 <<< 16) |||
      ((v >>> 8).toUInt8.toUInt32 <<< 8) ||| v.toUInt8.toUInt32 = v := by
  apply UInt32.eq_of_toBitVec_eq
  simp only [UInt32.toBitVec_or, UInt32.toBitVec_shiftLeft, UInt8.toBitVec_toUInt32,
    UInt32.toBitVec_toUInt8, UInt32.toBitVec_shiftRight]
  apply BitVec.eq_of_getLsbD_eq
  intro i hi
  simp [BitVec.getLsbD_or, BitVec.getLsbD_shiftLeft]
  interval_cases i <;> simp

theorem putLong_injective {v v' : UInt32} (h : putLong v = putLong v') : v = v' := by
  unfold putLong at h
  simp only [List.cons.injEq, and_true] at h
  obtain ⟨h24, h16, h8, h0⟩ := h
  rw [← or_bytes v, ← or_bytes v', h24, h16, h8, h0]

theorem putLong_ofNat_injective {n n' : Nat} (hn : n < 2 ^ 32) (hn' : n' < 2 ^ 32)
    (h : putLong (UInt32.ofNat n) = putLong (UInt32.ofNat n')) : n = n' := by
  have heq := congrArg UInt32.toNat (putLong_injective h)
  rwa [UInt32.toNat_ofNat', UInt32.toNat_ofNat', Nat.mod_eq_of_lt hn, Nat.mod_eq_of_lt hn'] at heq

theorem putShort_injective {n n' : Nat} (hn : n < 65536) (hn' : n' < 65536)
    (h : putShort n = putShort n') : n = n' := by
  unfold putShort at h
  simp only [List.cons.injEq, and_true] at h
  have hhi := congrArg UInt8.toNat h.1
  have hlo := congrArg UInt8.toNat h.2
  simp only [UInt8.toNat_ofNat', Nat.shiftRight_eq_div_pow] at hhi hlo
  omega

theorem span_short (msg : Msg) (p : Nat) : (span msg p 2).val = putShort (short msg p) := by
  have hlo := (msg (p + 1)).toNat_lt
  have hhi : (short msg p) >>> 8 = (msg p).toNat := by
    unfold short
    rw [Nat.shiftRight_eq_div_pow]
    omega
  have hmod : UInt8.ofNat (short msg p) = msg (p + 1) := by
    apply UInt8.toNat_inj.mp
    rw [UInt8.toNat_ofNat']
    unfold short
    omega
  unfold putShort
  rw [hhi, hmod, UInt8.ofNat_toNat]
  rfl

theorem long_lt (msg : Msg) (p : Nat) : long msg p < 2 ^ 32 := by
  have h := short_lt msg p
  have h' := short_lt msg (p + 2)
  unfold long
  omega

/-! ## What is scanned -/

section Scan
variable {msg : Msg} {rc p next : Nat} {w : WireRecord}

theorem RecordIs.lt (h : RecordIs msg p w next) : p + 10 < next := by
  obtain ⟨text, fin, hname, -, -, -, rfl⟩ := h
  have hfin := hname.labels.lt_fin
  omega

/-- The record at `p` is read, if its type is known. -/
theorem RecordIs.dump (h : RecordIs msg p w next) (hp : p < rc) :
    ∃ text fin, NameIs msg p w.owner text fin ∧ (scanNameAt msg p 512).val = (fin, text) ∧
      DataIs msg (fin + 10) (short msg (fin + 8)) w.type w.data ∧
      (dumpResourceRecord msg rc p).val = if w.known then some (next, ⟨cstr text, w.type, w.xclass,
        (getLong msg (fin + 4)).val, short msg (fin + 8), (scanRData msg w.type (fin + 10)).val⟩)
        else none := by
  obtain ⟨text, fin, hname, htype, hclass, hdata, rfl⟩ := h
  have hscan := hname.scan
  refine ⟨text, fin, hname, hscan, hdata, ?_⟩
  unfold dumpResourceRecord
  rw [if_neg (not_le.mpr hp)]
  simp only [val_bind, val_getShort, hscan, htype, hclass]
  unfold dumpRData WireRecord.known
  split <;> rfl

theorem val_getLong (p : Nat) : (getLong msg p).val = long msg p := rfl

/-- The data as they are read from a message. -/
def ReadAs (msg : Msg) (rdata : RData) : WireData → Prop
  | .mx pref ls => ∃ text p fin, NameIs msg p ls text fin ∧ rdata = .mx text (putShort pref)
  | .soa m r numbers => ∃ text text' p p' fin fin', NameIs msg p m text fin ∧
      NameIs msg p' r text' fin' ∧ rdata = .soa text text' numbers
  | .other => True

theorem DataIs.scan {mp rdlength type : Nat} {d : WireData} (h : DataIs msg mp rdlength type d)
    (hstore : d.Storable) : ReadAs msg (scanRData msg type mp).val d := by
  cases h with
  | @mx ls text hname =>
    obtain ⟨hne, hplain⟩ := hstore
    have hcstr := hname.cstr hplain
    have htext : text ≠ [] := by
      rintro rfl
      have hlen := congrArg List.length (hname.nameLabels hplain)
      simp only [toText, List.map_nil, dnsnode.nameLabels, List.length_nil, List.length_map] at hlen
      exact hne (List.eq_nil_of_length_eq_zero hlen.symm)
    refine ⟨text, _, _, hname, ?_⟩
    unfold scanRData
    rw [if_neg (by decide), if_neg (by decide), if_pos (by decide), if_neg (by decide)]
    rw [val_bind, hname.scan, hcstr, if_neg htext, if_pos rfl, val_bind, span_short]
    rfl
  | @soa m r text text' e1 e2 hm hr hend =>
    obtain ⟨hplain, hplain'⟩ := hstore
    refine ⟨text, text', _, _, _, _, hm, hr, ?_⟩
    unfold scanRData
    rw [if_neg (by decide), if_neg (by decide), if_neg (by decide), if_pos rfl]
    simp only [val_bind, hm.scan, hr.scan, val_getLong, val_pure, hm.cstr hplain, hr.cstr hplain']
  | other _ _ => trivial

end Scan

/-! ## The data in the cache -/

/-- The bytes in the cache stand for the record. Names are the ids of nodes with their keys. -/
def Encodes (key : Nat → List Text) (NID : Nat) (d : Bytes) (w : WireRecord) : Prop :=
  match w.data with
  | .mx pref ls => ∃ q, 1 ≤ q ∧ q ≤ NID ∧ key q = keyOfLabels ls ∧
      d = [UInt8.ofNat w.type, UInt8.ofNat w.xclass] ++ putLong (UInt32.ofNat q) ++ putShort pref
  | .soa m r numbers => ∃ q q', 1 ≤ q ∧ q ≤ NID ∧ key q = keyOfLabels m ∧ 1 ≤ q' ∧ q' ≤ NID ∧
      key q' = keyOfLabels r ∧
      d = [UInt8.ofNat w.type, UInt8.ofNat w.xclass] ++ putLong (UInt32.ofNat q) ++
        putLong (UInt32.ofNat q') ++ numbers.flatMap fun v => putLong (UInt32.ofNat v)
  | .other => False

/-- The numbers and names of data that can be kept. -/
def WireData.Kept : WireData → Prop
  | .mx pref ls => pref < 65536 ∧ LabelsOk ls ∧ Plain ls ∧ (wire ls).length ≤ 255
  | .soa m r numbers => (LabelsOk m ∧ Plain m ∧ (wire m).length ≤ 255) ∧
      (LabelsOk r ∧ Plain r ∧ (wire r).length ≤ 255) ∧ numbers.length = 5 ∧
      ∀ v ∈ numbers, v < 2 ^ 32
  | .other => False

/-- The data are those of the type. -/
def WireRecord.Typed (w : WireRecord) : Prop :=
  match w.data with
  | .mx _ _ => w.type = TY_MX
  | .soa _ _ _ => w.type = TY_SOA
  | .other => True

theorem DataIs.typed {msg : Msg} {mp rdlength : Nat} {w : WireRecord}
    (h : DataIs msg mp rdlength w.type w.data) : w.Typed := by
  unfold WireRecord.Typed
  generalize w.type = type, w.data = d at h
  cases h <;> trivial

theorem DataIs.kept {msg : Msg} {mp rdlength type : Nat} {d : WireData}
    (h : DataIs msg mp rdlength type d) (hstore : d.Storable)
    (htype : type = TY_MX ∨ type = TY_SOA) : d.Kept := by
  cases h with
  | mx hname => exact ⟨short_lt _ _, hname.labels.ok, hstore.2, hname.size⟩
  | soa hm hr _ =>
    refine ⟨⟨hm.labels.ok, hstore.1, hm.size⟩, ⟨hr.labels.ok, hstore.2, hr.size⟩, rfl, ?_⟩
    intro v hv
    simp only [List.mem_cons, List.not_mem_nil, or_false] at hv
    rcases hv with rfl | rfl | rfl | rfl | rfl <;> exact long_lt _ _
  | other hmx hsoa => exact absurd htype (not_or.mpr ⟨hmx, hsoa⟩)

theorem flatMap_putLong_injective {ns ns' : List Nat} (hlen : ns.length = ns'.length)
    (hns : ∀ v ∈ ns, v < 2 ^ 32) (hns' : ∀ v ∈ ns', v < 2 ^ 32)
    (h : (ns.flatMap fun v => putLong (UInt32.ofNat v)) =
      ns'.flatMap fun v => putLong (UInt32.ofNat v)) : ns = ns' := by
  induction ns generalizing ns' with
  | nil => exact (List.eq_nil_of_length_eq_zero hlen.symm).symm
  | cons v ns ih =>
    cases ns' with
    | nil => cases hlen
    | cons v' ns' =>
      rw [List.flatMap_cons, List.flatMap_cons] at h
      obtain ⟨hv, hrest⟩ := List.append_inj h (by rw [length_putLong, length_putLong])
      rw [putLong_ofNat_injective (hns v List.mem_cons_self) (hns' v' List.mem_cons_self) hv,
        ih (Nat.succ.inj hlen) (fun u hu => hns u (List.mem_cons_of_mem _ hu))
          (fun u hu => hns' u (List.mem_cons_of_mem _ hu)) hrest]

section Encodes
variable {s : Store} {key : Nat → List Text} {NID : Nat} {d d' : Bytes} {w w' : WireRecord}

theorem length_flatMap_putLong (ns : List Nat) :
    (ns.flatMap fun v => putLong (UInt32.ofNat v)).length = 4 * ns.length := by
  induction ns with
  | nil => rfl
  | cons v ns ih =>
    rw [List.flatMap_cons, List.length_append, length_putLong, ih, List.length_cons]
    omega

/-- The bytes begin with the type and the class. -/
theorem Encodes.head (h : Encodes key NID d w) :
    ∃ rest, d = [UInt8.ofNat w.type, UInt8.ofNat w.xclass] ++ rest := by
  unfold Encodes at h
  cases hw : w.data with
  | other =>
    rw [hw] at h
    exact h.elim
  | mx pref ls =>
    rw [hw] at h
    obtain ⟨q, -, -, -, hd⟩ := h
    exact ⟨_, hd.trans (List.append_assoc _ _ _)⟩
  | soa m r numbers =>
    rw [hw] at h
    obtain ⟨q, q', -, -, -, -, -, -, hd⟩ := h
    exact ⟨_, hd.trans ((List.append_assoc _ _ _).trans (List.append_assoc _ _ _))⟩

/-- The same bytes stand for the same record, up to case. -/
theorem Encodes.folded_eq (hNID : NID < 2 ^ 32) (hclass : w.xclass < 256)
    (hclass' : w'.xclass < 256) (hkept : w.data.Kept) (hkept' : w'.data.Kept)
    (h : Encodes key NID d w) (h' : Encodes key NID d w') : w.folded = w'.folded := by
  have hfields : ∀ {rest rest' : Bytes}, d = [UInt8.ofNat w.type, UInt8.ofNat w.xclass] ++ rest →
      d = [UInt8.ofNat w'.type, UInt8.ofNat w'.xclass] ++ rest' →
      w.xclass = w'.xclass ∧ rest = rest' := by
    intro rest rest' hd hd'
    obtain ⟨hhead, hrest⟩ := List.append_inj (hd.symm.trans hd') rfl
    simp only [List.cons.injEq, and_true] at hhead
    have hnat := congrArg UInt8.toNat hhead.2
    rw [UInt8.toNat_ofNat', UInt8.toNat_ofNat'] at hnat
    exact ⟨by omega, hrest⟩
  unfold Encodes at h h'
  unfold WireRecord.folded
  cases hw : w.data with
  | other =>
    rw [hw] at hkept
    exact hkept.elim
  | mx pref ls =>
    rw [hw] at h hkept
    obtain ⟨q, h1, hq, hkey, hd⟩ := h
    cases hw' : w'.data with
    | other =>
      rw [hw'] at hkept'
      exact hkept'.elim
    | mx pref' ls' =>
      rw [hw'] at h' hkept'
      obtain ⟨q', h1', hq', hkey', hd'⟩ := h'
      rw [List.append_assoc] at hd hd'
      obtain ⟨hxclass, hrest⟩ := hfields hd hd'
      obtain ⟨hlong, hshort⟩ := List.append_inj hrest rfl
      have hqq := putLong_ofNat_injective (by omega) (by omega) hlong
      have hsame : SameLabels ls ls' := by
        rw [← keyOfLabels_eq_iff, ← hkey, ← hkey', hqq]
      rw [hxclass, putShort_injective hkept.1 hkept'.1 hshort]
      unfold SameLabels at hsame
      simp only [hsame]
    | soa m' r' numbers' =>
      rw [hw'] at h' hkept'
      obtain ⟨-, -, hfive, -⟩ := hkept'
      obtain ⟨q', q'', -, -, -, -, -, -, hd'⟩ := h'
      have hlen := congrArg List.length (hd.symm.trans hd')
      simp only [List.length_append, List.length_cons, List.length_nil, length_putLong,
        length_putShort, length_flatMap_putLong] at hlen
      omega
  | soa m r numbers =>
    rw [hw] at h hkept
    obtain ⟨-, -, hfive, hbound⟩ := hkept
    obtain ⟨q, qr, h1, hq, hkey, h1r, hqr, hkeyr, hd⟩ := h
    cases hw' : w'.data with
    | other =>
      rw [hw'] at hkept'
      exact hkept'.elim
    | mx pref' ls' =>
      rw [hw'] at h'
      obtain ⟨q', -, -, -, hd'⟩ := h'
      have hlen := congrArg List.length (hd.symm.trans hd')
      simp only [List.length_append, List.length_cons, List.length_nil, length_putLong,
        length_putShort, length_flatMap_putLong] at hlen
      omega
    | soa m' r' numbers' =>
      rw [hw'] at h' hkept'
      obtain ⟨-, -, hfive', hbound'⟩ := hkept'
      obtain ⟨q', qr', h1', hq', hkey', h1r', hqr', hkeyr', hd'⟩ := h'
      rw [List.append_assoc, List.append_assoc] at hd hd'
      obtain ⟨hxclass, hrest⟩ := hfields hd hd'
      obtain ⟨hlong, hrest⟩ := List.append_inj hrest rfl
      obtain ⟨hlong', hrest⟩ := List.append_inj hrest rfl
      have hqq := putLong_ofNat_injective (by omega) (by omega) hlong
      have hqq' := putLong_ofNat_injective (by omega) (by omega) hlong'
      have hsame : SameLabels m m' := by
        rw [← keyOfLabels_eq_iff, ← hkey, ← hkey', hqq]
      have hsame' : SameLabels r r' := by
        rw [← keyOfLabels_eq_iff, ← hkeyr, ← hkeyr', hqq']
      rw [hxclass, flatMap_putLong_injective (hfive.trans hfive'.symm) hbound hbound' hrest]
      unfold SameLabels at hsame hsame'
      simp only [hsame, hsame']

/-- A record has only one form in the cache, whatever the case of its names. -/
theorem Encodes.bytes_eq (hinj : ∀ i j, 1 ≤ i → i ≤ NID → 1 ≤ j → j ≤ NID → key i = key j → i = j)
    (htype : w.type = w'.type) (hfolded : w.folded = w'.folded) (h : Encodes key NID d w)
    (h' : Encodes key NID d' w') : d = d' := by
  unfold Encodes at h h'
  unfold WireRecord.folded at hfolded
  rw [Prod.mk.injEq] at hfolded
  obtain ⟨hxclass, hdata⟩ := hfolded
  cases hw : w.data with
  | other =>
    rw [hw] at h
    exact h.elim
  | mx pref ls =>
    rw [hw] at h hdata
    obtain ⟨q, h1, hq, hkey, hd⟩ := h
    cases hw' : w'.data with
    | other =>
      rw [hw'] at hdata
      cases hdata
    | soa m' r' numbers' =>
      rw [hw'] at hdata
      cases hdata
    | mx pref' ls' =>
      rw [hw'] at h' hdata
      obtain ⟨q', h1', hq', hkey', hd'⟩ := h'
      obtain ⟨rfl, hsame⟩ := WireData.mx.inj hdata
      have hqq : q = q' := hinj q q' h1 hq h1' hq' (by rw [hkey, hkey', keyOfLabels_eq_iff]; exact hsame)
      rw [hd, hd', htype, hxclass, hqq]
  | soa m r numbers =>
    rw [hw] at h hdata
    obtain ⟨q, qr, h1, hq, hkey, h1r, hqr, hkeyr, hd⟩ := h
    cases hw' : w'.data with
    | other =>
      rw [hw'] at hdata
      cases hdata
    | mx pref' ls' =>
      rw [hw'] at hdata
      cases hdata
    | soa m' r' numbers' =>
      rw [hw'] at h' hdata
      obtain ⟨q', qr', h1', hq', hkey', h1r', hqr', hkeyr', hd'⟩ := h'
      obtain ⟨hsame, hsame', rfl⟩ := WireData.soa.inj hdata
      have hqq : q = q' := hinj q q' h1 hq h1' hq' (by rw [hkey, hkey', keyOfLabels_eq_iff]; exact hsame)
      have hqq' : qr = qr' :=
        hinj qr qr' h1r hqr h1r' hqr' (by rw [hkeyr, hkeyr', keyOfLabels_eq_iff]; exact hsame')
      rw [hd, hd', htype, hxclass, hqq, hqq']

/-- More nodes leave the bytes. -/
theorem Encodes.mono {key' : Nat → List Text} {NID' : Nat} (hle : NID ≤ NID')
    (hkey : ∀ i ≤ NID, key' i = key i) (h : Encodes key NID d w) : Encodes key' NID' d w := by
  unfold Encodes at h ⊢
  cases hw : w.data with
  | other =>
    rw [hw] at h
    exact h.elim
  | mx pref ls =>
    rw [hw] at h
    obtain ⟨q, h1, hq, hk, hd⟩ := h
    exact ⟨q, h1, hq.trans hle, by rw [hkey q hq, hk], hd⟩
  | soa m r numbers =>
    rw [hw] at h
    obtain ⟨q, q', h1, hq, hk, h1', hq', hk', hd⟩ := h
    exact ⟨q, q', h1, hq.trans hle, by rw [hkey q hq, hk], h1', hq'.trans hle,
      by rw [hkey q' hq', hk'], hd⟩

end Encodes

/-! ## One record into the cache -/

section Store
variable {s : Store} {key : Nat → List Text}

/-- Whatever the data of a record are, they can be stored. -/
theorem storeRData_grown (reverse : Bytes → Text) (h : Index s key) (rr : Record) :
    ∃ s' key' d, storeRData reverse rr s = some (s', d) ∧
      Grown (MAXLEV + MAXLEV) s key s' key' := by
  have hone : ∀ t, ∃ s' key' q, dnsnode.DNS_putbyname t s = some (s', q) ∧
      Grown (MAXLEV + MAXLEV) s key s' key' := by
    intro t
    obtain ⟨s', key', q, hput, hgrown, -, -, -⟩ := put_grown h t
    exact ⟨s', key', q, hput, hgrown.trans (grown_refl hgrown.index _)⟩
  unfold storeRData
  cases rr.rdata with
  | none => exact ⟨s, key, none, rfl, grown_refl h _⟩
  | addr a =>
    obtain ⟨s', key', q, hput, hgrown⟩ := hone (reverse a)
    simp only [hput, Option.bind_eq_bind, Option.bind_some]
    exact ⟨s', key', _, rfl, hgrown⟩
  | name n =>
    obtain ⟨s', key', q, hput, hgrown⟩ := hone (toText n)
    simp only [hput, Option.bind_eq_bind, Option.bind_some]
    exact ⟨s', key', _, rfl, hgrown⟩
  | mx n pref =>
    obtain ⟨s', key', q, hput, hgrown⟩ := hone (toText n)
    simp only [hput, Option.bind_eq_bind, Option.bind_some]
    exact ⟨s', key', _, rfl, hgrown⟩
  | soa m n numbers =>
    obtain ⟨s1, key1, q1, hput, hgrown, -, -, -⟩ := put_grown h (toText m)
    obtain ⟨s2, key2, q2, hput', hgrown', -, -, -⟩ := put_grown hgrown.index (toText n)
    simp only [hput, hput', Option.bind_eq_bind, Option.bind_some]
    exact ⟨s2, key2, _, rfl, hgrown.trans hgrown'⟩

/-- The data of an MX or SOA record are stored in the form that stands for it. -/
theorem storeRData_encodes (reverse : Bytes → Text) (h : Index s key) {msg : Msg}
    {w : WireRecord} (rr : Record) (htype : rr.type = w.type) (hclass : rr.xclass = w.xclass) (hread : ReadAs msg rr.rdata w.data)
    (hkept : w.data.Kept) :
    ∃ s' key' d, storeRData reverse rr s = some (s', some d) ∧
      Grown (MAXLEV + MAXLEV) s key s' key' ∧ Encodes key' s'.NID d w := by
  unfold storeRData Encodes
  cases hw : w.data with
  | other =>
    rw [hw] at hkept
    exact hkept.elim
  | mx pref ls =>
    rw [hw] at hread hkept
    obtain ⟨text, p, fin, hname, hrdata⟩ := hread
    obtain ⟨-, -, hplain, -⟩ := hkept
    obtain ⟨s', key', q, hput, hgrown, h1, hq, hkey⟩ := hname.put hplain h
    rw [hname.cstr hplain] at hput
    simp only [hrdata, hput, Option.bind_eq_bind, Option.bind_some]
    refine ⟨s', key', _, rfl, hgrown.trans (grown_refl hgrown.index _), q, h1, hq, hkey, ?_⟩
    rw [htype, hclass]
  | soa m r numbers =>
    rw [hw] at hread hkept
    obtain ⟨text, text', p, p', fin, fin', hname, hname', hrdata⟩ := hread
    obtain ⟨⟨-, hplain, -⟩, ⟨-, hplain', -⟩, -, -⟩ := hkept
    obtain ⟨s1, key1, q1, hput, hgrown, h1, hq, hkey⟩ := hname.put hplain h
    obtain ⟨s2, key2, q2, hput', hgrown', h1', hq', hkey'⟩ := hname'.put hplain' hgrown.index
    rw [hname.cstr hplain] at hput
    rw [hname'.cstr hplain'] at hput'
    have hle := hgrown'.ext.1
    simp only [hrdata, hput, hput', Option.bind_eq_bind, Option.bind_some]
    refine ⟨s2, key2, _, rfl, hgrown.trans hgrown', q1, q2, h1, by omega, ?_, h1', hq', hkey', ?_⟩
    · rw [hgrown'.ext.2 q1 hq, hkey]
    · rw [htype, hclass]

/-- The data of the records with the flag at a node, newest first. -/
def dataAt (s : Store) (i : Nat) (flag : UInt32) : List Bytes :=
  ((s.heap i).n_attr.filter (·.a_flag == flag)).map Attr.a_data

/-- The node after `DNS_putattr`: a record that is not there yet is put first. The other nodes
stay. -/
theorem putattr_spec (h : Index s key) {nid : Nat} (hnid : nid ≤ s.NID) (flag : UInt32) (ttl : Int)
    (data : Bytes) (now : Int) :
    ∃ s', (dnsnode.DNS_putattr nid flag ttl data now s).1 = s' ∧ Index s' key ∧ s'.NID = s.NID ∧
      (∀ i, (s'.heap i).n_label = (s.heap i).n_label ∧
        (s'.heap i).n_parent = (s.heap i).n_parent) ∧
      (∀ i, i ≠ nid → s'.heap i = s.heap i) ∧
      (s'.heap nid).n_attr =
        (dnsnode.putattr s.records flag ttl data now (s.heap nid).n_attr).1 := by
  have hget := h.getnode hnid
  refine ⟨_, rfl, ?_, rfl, ?_, ?_, ?_⟩
  · have hset := dnsnode.index_setAttrs h nid
      (dnsnode.putattr s.records flag ttl data now (s.heap (dnsnode.getnode s nid)).n_attr).1
    exact ⟨hset.pos, hset.next, hset.table, hset.room, hset.size, hset.nid, hset.top, hset.parent,
      hset.children, hset.inj⟩
  · intro i
    unfold dnsnode.DNS_putattr dnsnode.setAttrs Store.setNode
    rw [hget]
    by_cases hi : i = nid
    · rw [hi]
      simp
    · simp [Function.update_of_ne hi]
  · intro i hi
    unfold dnsnode.DNS_putattr dnsnode.setAttrs Store.setNode
    rw [hget]
    simp [Function.update_of_ne hi]
  · unfold dnsnode.DNS_putattr dnsnode.setAttrs Store.setNode
    rw [hget]
    simp

/-- The data with a flag after a put. -/
theorem filter_putattr (addr : Nat) (flag flag' : UInt32) (ttl : Int) (data : Bytes) (now : Int)
    (attrs : List Attr) :
    (((dnsnode.putattr addr flag' ttl data now attrs).1.filter (·.a_flag == flag)).map Attr.a_data) =
      if flag' = flag ∧ data ∉ (attrs.filter (·.a_flag == flag)).map Attr.a_data then
        data :: (attrs.filter (·.a_flag == flag)).map Attr.a_data
      else (attrs.filter (·.a_flag == flag)).map Attr.a_data := by
  have hany : attrs.any (dnsnode.sameAttr flag' data) = true ↔
      data ∈ (attrs.filter (·.a_flag == flag')).map Attr.a_data := by
    rw [List.any_eq_true, List.mem_map]
    unfold dnsnode.sameAttr
    constructor
    · rintro ⟨a, ha, hsame⟩
      simp only [Bool.and_eq_true, beq_iff_eq] at hsame
      exact ⟨a, List.mem_filter.mpr ⟨ha, by simp [hsame.1.1]⟩, hsame.2⟩
    · rintro ⟨a, ha, rfl⟩
      obtain ⟨ha, hflag⟩ := List.mem_filter.mp ha
      refine ⟨a, ha, ?_⟩
      simp only [beq_iff_eq] at hflag
      simp [hflag]
  unfold dnsnode.putattr
  by_cases hflag : flag' = flag
  · subst hflag
    by_cases hmem : data ∈ (attrs.filter (·.a_flag == flag')).map Attr.a_data
    · rw [if_pos (hany.mpr hmem), if_neg (fun h => h.2 hmem)]
    · rw [if_neg (fun h => hmem (hany.mp h)), if_pos ⟨rfl, hmem⟩]
      simp
  · rw [if_neg (show ¬(flag' = flag ∧ _) from fun h => hflag h.1)]
    split
    · rfl
    · simp [hflag]

end Store

/-! ## The invariant -/

/-- The cache after the records `ws`: the node of the owner has the data of the records `kept`,
newest first. -/
structure Holding (owner : List Bytes) (qtype : Nat) (s : Store) (key : Nat → List Text)
    (ws kept : List WireRecord) (n : Nat) : Prop where
  index : Index s key
  top : TopIs s
  flags : ∀ i ≤ s.NID, ∀ a ∈ (s.heap i).n_attr, ∃ t < 32, a.a_flag = typemask t
  bound : s.NID ≤ n
  node : ∀ i, 1 ≤ i → i ≤ s.NID → key i = keyOfLabels owner →
    List.Forall₂ (Encodes key s.NID) (dataAt s i (typemask qtype)) kept
  found : kept ≠ [] → ∃ i, 1 ≤ i ∧ i ≤ s.NID ∧ key i = keyOfLabels owner
  good : ∀ w ∈ kept, w.type = qtype ∧ w.xclass < 256 ∧ w.data.Kept ∧ w.Typed
  distinct : Distinct kept (ws.filter (·.isFor owner qtype))

theorem distinct_nil : Distinct [] [] :=
  ⟨fun _ h => h, List.nodup_nil, fun _ h => absurd h List.not_mem_nil⟩

theorem holding_init (owner : List Bytes) (qtype : Nat) :
    Holding owner qtype Store.init (fun _ => []) [] [] 1 where
  index := dnsnode.index_init
  top := ⟨rfl, rfl⟩
  flags := by
    intro i hi a ha
    rcases dnsnode.init_id hi with rfl | rfl <;> cases ha
  bound := le_rfl
  node := by
    intro i _ hi _
    have hnil : dataAt Store.init i (typemask qtype) = [] := by
      rcases dnsnode.init_id hi with rfl | rfl <;> rfl
    rw [hnil]
    exact .nil
  found h := absurd rfl h
  good _ h := absurd h List.not_mem_nil
  distinct := distinct_nil

section Holding
variable {owner : List Bytes} {qtype n : Nat} {s s' : Store} {key key' : Nat → List Text}
  {ws kept : List WireRecord}

/-- New names leave the records. -/
theorem Holding.grown (h : Holding owner qtype s key ws kept n) {m : Nat}
    (hgrown : Grown m s key s' key') : Holding owner qtype s' key' ws kept (n + m) := by
  have hle := hgrown.ext.1
  have hpos := h.index.pos
  have hbound := h.bound
  have hbound' := hgrown.bound
  refine ⟨hgrown.index, ?_, ?_, by omega, ?_, ?_, h.good, h.distinct⟩
  · obtain ⟨hlabel, hparent⟩ := hgrown.labels dnsnode.TopNode hpos
    exact ⟨hlabel.trans h.top.label, hparent.trans h.top.parent⟩
  · intro i hi a ha
    by_cases hold : i ≤ s.NID
    · rw [hgrown.attrs i hold] at ha
      exact h.flags i hold a ha
    · rw [hgrown.fresh i (by omega) hi] at ha
      cases ha
  · intro i h1 hi hkey
    unfold dataAt
    by_cases hold : i ≤ s.NID
    · rw [hgrown.attrs i hold]
      rw [hgrown.ext.2 i hold] at hkey
      exact (h.node i h1 hold hkey).imp fun _ _ henc => henc.mono hle hgrown.ext.2
    · -- a new node for the owner: there was none, so nothing was kept
      have hkept : kept = [] := by
        by_contra hne
        obtain ⟨j, hj1, hj, hkj⟩ := h.found hne
        have hij := hgrown.index.inj i j h1 hi hj1 (hj.trans hle)
          (by rw [hkey, hgrown.ext.2 j hj, hkj])
        omega
      rw [hgrown.fresh i (by omega) hi, hkept]
      exact .nil
  · intro hne
    obtain ⟨i, h1, hi, hkey⟩ := h.found hne
    exact ⟨i, h1, hi.trans hle, by rw [hgrown.ext.2 i hi, hkey]⟩

/-- A record that is not one of the type for the owner leaves what is kept. -/
theorem Holding.other (h : Holding owner qtype s key ws kept n) {w : WireRecord}
    (hw : w.isFor owner qtype = false) : Holding owner qtype s key (ws ++ [w]) kept n := by
  refine ⟨h.index, h.top, h.flags, h.bound, h.node, h.found, h.good, ?_⟩
  have hfilter : (ws ++ [w]).filter (·.isFor owner qtype) = ws.filter (·.isFor owner qtype) := by
    simp [List.filter_append, hw]
  rw [hfilter]
  exact h.distinct

theorem typemask_eq_iff : ∀ i < 32, ∀ j < 32, typemask i = typemask j ↔ i = j := by
  decide +kernel

theorem typemask_and_iff : ∀ i < 32, ∀ j < 32,
    (typemask i &&& typemask j != 0) = (typemask j == typemask i) := by
  decide +kernel

theorem Forall₂.mem_left {α β : Type} {R : α → β → Prop} {l : List α} {l' : List β}
    (h : List.Forall₂ R l l') {a : α} (ha : a ∈ l) : ∃ b ∈ l', R a b := by
  induction h with
  | nil => cases ha
  | cons hab _ ih =>
    rcases List.mem_cons.mp ha with rfl | ha
    · exact ⟨_, List.mem_cons_self, hab⟩
    · obtain ⟨b, hb, hr⟩ := ih ha
      exact ⟨b, List.mem_cons_of_mem _ hb, hr⟩

/-- The cache after a put: the node has the data of the flag once. -/
theorem Holding.putattr (h : Holding owner qtype s key ws kept n) {nid t : Nat} (ht : t < 32)
    (hnid : nid ≤ s.NID) (ttl : Int) (data : Bytes) (now : Int) :
    ∃ s', (dnsnode.DNS_putattr nid (typemask t) ttl data now s).1 = s' ∧ Index s' key ∧ TopIs s' ∧
      (∀ i ≤ s'.NID, ∀ a ∈ (s'.heap i).n_attr, ∃ t < 32, a.a_flag = typemask t) ∧
      s'.NID = s.NID ∧
      ∀ i flag, dataAt s' i flag =
        if i = nid ∧ typemask t = flag ∧ data ∉ dataAt s i flag then data :: dataAt s i flag
        else dataAt s i flag := by
  obtain ⟨s', hs', hidx, hNID, hlabels, hkeep, hattr⟩ :=
    putattr_spec h.index hnid (typemask t) ttl data now
  refine ⟨s', hs', hidx, ?_, ?_, hNID, ?_⟩
  · obtain ⟨hlabel, hparent⟩ := hlabels dnsnode.TopNode
    exact ⟨hlabel.trans h.top.label, hparent.trans h.top.parent⟩
  · intro i hi a ha
    rw [hNID] at hi
    by_cases hin : i = nid
    · rw [hin, hattr] at ha
      unfold dnsnode.putattr at ha
      split at ha
      · exact h.flags nid hnid a ha
      · rcases List.mem_cons.mp ha with rfl | ha
        · exact ⟨t, ht, rfl⟩
        · exact h.flags nid hnid a ha
    · rw [hkeep i hin] at ha
      exact h.flags i hi a ha
  · intro i flag
    by_cases hin : i = nid
    · subst hin
      unfold dataAt
      rw [hattr, filter_putattr]
      simp
    · unfold dataAt
      rw [hkeep i hin, if_neg (fun hand => hin hand.1)]

/-- A put with another flag, or at another node, leaves what is kept. -/
theorem Holding.putOther (h : Holding owner qtype s key ws kept n) {nid t : Nat} (ht : t < 32)
    (hnid : nid ≤ s.NID)
    (hother : typemask t ≠ typemask qtype ∨ key nid ≠ keyOfLabels owner) (ttl : Int) (data : Bytes)
    (now : Int) :
    Holding owner qtype (dnsnode.DNS_putattr nid (typemask t) ttl data now s).1 key ws kept n := by
  obtain ⟨s', hs', hidx, htop, hflags, hNID, hdata⟩ := h.putattr ht hnid ttl data now
  rw [hs']
  refine ⟨hidx, htop, hflags, by rw [hNID]; exact h.bound, ?_, by rw [hNID]; exact h.found, h.good,
    h.distinct⟩
  intro i h1 hi hkey
  rw [hNID] at hi ⊢
  rw [hdata, if_neg]
  · exact h.node i h1 hi hkey
  · rintro ⟨rfl, heq, -⟩
    exact hother.elim (fun hne => hne heq) (fun hne => hne hkey)

/-- A record of the type for the owner is kept, if it is not there yet. -/
theorem Holding.putFor (h : Holding owner qtype s key ws kept n) (hn : n < 2 ^ 32) {nid : Nat}
    (h1 : 1 ≤ nid) (hnid : nid ≤ s.NID) (hkey : key nid = keyOfLabels owner) {w : WireRecord}
    (hfor : w.isFor owner qtype = true) (ht : w.type < 32) (hclass : w.xclass < 256)
    (hkept : w.data.Kept) (htyped : w.Typed) {data : Bytes} (henc : Encodes key s.NID data w) (ttl now : Int) :
    ∃ kept', Holding owner qtype (dnsnode.DNS_putattr nid (typemask w.type) ttl data now s).1 key
      (ws ++ [w]) kept' n := by
  have htype : w.type = qtype := (of_decide_eq_true hfor).1
  have hNIDlt : s.NID < 2 ^ 32 := lt_of_le_of_lt h.bound hn
  obtain ⟨s', hs', hidx, htop, hflags, hNID, hdata⟩ := h.putattr ht hnid ttl data now
  rw [hs']
  have hfilter : (ws ++ [w]).filter (·.isFor owner qtype) =
      ws.filter (·.isFor owner qtype) ++ [w] := by
    simp [List.filter_append, hfor]
  have hnode := h.node nid h1 hnid hkey
  have honly : ∀ i, 1 ≤ i → i ≤ s.NID → key i = keyOfLabels owner → i = nid := fun i hi1 hi hki =>
    h.index.inj i nid hi1 hi h1 hnid (hki.trans hkey.symm)
  by_cases hmem : data ∈ dataAt s nid (typemask qtype)
  · -- the same record again
    obtain ⟨w', hw', henc'⟩ := Forall₂.mem_left hnode hmem
    obtain ⟨-, hclass', hkept', -⟩ := h.good w' hw'
    have hfolded := Encodes.folded_eq hNIDlt hclass hclass' hkept hkept' henc henc'
    refine ⟨kept, hidx, htop, hflags, by rw [hNID]; exact h.bound, ?_, by rw [hNID]; exact h.found,
      h.good, ?_⟩
    · intro i hi1 hi hki
      rw [hNID] at hi ⊢
      obtain rfl := honly i hi1 hi hki
      rw [hdata, if_neg (fun hand => hand.2.2 hmem)]
      exact hnode
    · rw [hfilter]
      refine ⟨fun v hv => List.mem_append_left _ (h.distinct.subset v hv), h.distinct.nodup, ?_⟩
      intro v hv
      rcases List.mem_append.mp hv with hv | hv
      · exact h.distinct.all v hv
      · rw [List.mem_singleton.mp hv, hfolded]
        exact List.mem_map_of_mem hw'
  · refine ⟨w :: kept, hidx, htop, hflags, by rw [hNID]; exact h.bound, ?_, ?_, ?_, ?_⟩
    · intro i hi1 hi hki
      rw [hNID] at hi ⊢
      obtain rfl := honly i hi1 hi hki
      rw [hdata, if_pos ⟨rfl, by rw [htype], hmem⟩]
      exact .cons henc hnode
    · intro _
      rw [hNID]
      exact ⟨nid, h1, hnid, hkey⟩
    · intro v hv
      rcases List.mem_cons.mp hv with rfl | hv
      · exact ⟨htype, hclass, hkept, htyped⟩
      · exact h.good v hv
    · rw [hfilter]
      refine ⟨?_, ?_, ?_⟩
      · intro v hv
        rcases List.mem_cons.mp hv with rfl | hv
        · exact List.mem_append_right _ (List.mem_singleton.mpr rfl)
        · exact List.mem_append_left _ (h.distinct.subset v hv)
      · rw [List.map_cons, List.nodup_cons]
        refine ⟨?_, h.distinct.nodup⟩
        intro hin
        obtain ⟨w', hw', hfolded⟩ := List.mem_map.mp hin
        obtain ⟨data', hdata', henc'⟩ := Forall₂.mem_left hnode.flip hw'
        have heq := Encodes.bytes_eq h.index.inj ((h.good w' hw').1.trans htype.symm) hfolded henc' henc
        exact hmem (heq ▸ hdata')
      · intro v hv
        rw [List.map_cons]
        rcases List.mem_append.mp hv with hv | hv
        · exact List.mem_cons_of_mem _ (h.distinct.all v hv)
        · rw [List.mem_singleton.mp hv]
          exact List.mem_cons_self

end Holding

/-! ## Steps and runs -/

section Run
variable (reverse : Bytes → Text) (clock : Nat → Int) {owner : List Bytes} {qtype n rc : Nat}
  {s : Store} {key : Nat → List Text} {msg : Msg} {ws kept : List WireRecord}

theorem known_type {w : WireRecord} (h : w.known = true) : w.type < 32 := by
  simp only [WireRecord.known, knownType, TY_AAAA, Bool.or_eq_true, Bool.not_eq_true', beq_iff_eq,
    Bool.or_eq_false_iff, decide_eq_false_iff_not] at h
  omega

theorem known_class {w : WireRecord} (h : w.known = true) (hq : w.type = TY_MX ∨ w.type = TY_SOA) :
    w.xclass < 256 := by
  simp only [WireRecord.known, knownType, TY_AAAA, TY_MX, TY_SOA, Bool.or_eq_true,
    Bool.not_eq_true', beq_iff_eq, Bool.or_eq_false_iff, decide_eq_false_iff_not] at h hq
  omega

/-- The cache after one record of a type that is known. -/
theorem Holding.record (h : Holding owner qtype s key ws kept n) (hq : qtype = TY_MX ∨ qtype = TY_SOA)
    {p next : Nat} {w : WireRecord} (hrec : RecordIs msg p w next) (hp : p < rc)
    (hn : n + 3 * MAXLEV < 2 ^ 32) (hknown : w.known = true) (hplain : Plain w.owner)
    (hstore : w.isFor owner qtype = true → w.data.Storable) :
    ∃ s' key' kept', storeRecord reverse clock msg rc p s = some (s', some next) ∧
      Holding owner qtype s' key' (ws ++ [w]) kept' (n + 3 * MAXLEV) := by
  obtain ⟨text, fin, hname, hscan, hdata, hdump⟩ := hrec.dump hp
  rw [if_pos hknown] at hdump
  obtain ⟨s1, key1, nid, hput, hgrown, h1, hnid, hkey⟩ := hname.put hplain h.index
  have htype := known_type hknown
  have hqlt : qtype < 32 := by
    rcases hq with rfl | rfl <;> decide
  unfold storeRecord
  rw [if_neg (not_le.mpr hp), hscan, hdump]
  simp only [hput, Option.bind_eq_bind, Option.bind_some]
  by_cases hfor : w.isFor owner qtype = true
  · obtain ⟨hwtype, hsame⟩ := of_decide_eq_true hfor
    have hwq : w.type = TY_MX ∨ w.type = TY_SOA := by rwa [hwtype]
    have hclass := known_class hknown hwq
    have hkept := hdata.kept (hstore hfor) hwq
    obtain ⟨s2, key2, d, hrdata, hgrown2, henc⟩ := storeRData_encodes reverse hgrown.index
      ⟨cstr text, w.type, w.xclass, (getLong msg (fin + 4)).val, short msg (fin + 8),
        (scanRData msg w.type (fin + 10)).val⟩ rfl rfl (hdata.scan (hstore hfor)) hkept
    have hle := hgrown2.ext.1
    have hgrow := h.grown (hgrown.trans hgrown2)
    have hkey2 : key2 nid = keyOfLabels owner := by
      rw [hgrown2.ext.2 nid hnid, hkey, keyOfLabels_eq_iff]
      exact hsame
    simp only [hrdata, Option.bind_some]
    obtain ⟨kept', hput'⟩ := hgrow.putFor (by unfold MAXLEV at hn ⊢; omega) h1 (hnid.trans hle) hkey2
      hfor htype hclass hkept hdata.typed henc _ _
    refine ⟨_, key2, kept', rfl, ?_⟩
    exact hput'
  · have hnot : w.isFor owner qtype = false := by simpa using hfor
    obtain ⟨s2, key2, d, hrdata, hgrown2⟩ := storeRData_grown reverse hgrown.index
      ⟨cstr text, w.type, w.xclass, (getLong msg (fin + 4)).val, short msg (fin + 8),
        (scanRData msg w.type (fin + 10)).val⟩
    have hle := hgrown2.ext.1
    have hgrow := (h.grown (hgrown.trans hgrown2)).other hnot
    simp only [hrdata, Option.bind_some]
    refine ⟨_, key2, kept, rfl, ?_⟩
    cases d with
    | none => exact hgrow
    | some d =>
      apply hgrow.putOther htype (hnid.trans hle)
      by_cases hwtype : w.type = qtype
      · right
        rw [hgrown2.ext.2 nid hnid, hkey, ne_eq, keyOfLabels_eq_iff]
        exact fun hsame => hfor (decide_eq_true ⟨hwtype, hsame⟩)
      · left
        exact fun heq => hwtype ((typemask_eq_iff _ htype _ hqlt).mp heq)

/-- A record of another type ends the loops. Only its owner is put. -/
theorem Holding.unknown (h : Holding owner qtype s key ws kept n) {p next : Nat} {w : WireRecord}
    (hrec : RecordIs msg p w next) (hp : p < rc) (hknown : w.known = false) :
    ∃ s' key', storeRecord reverse clock msg rc p s = some (s', none) ∧
      Holding owner qtype s' key' ws kept (n + 3 * MAXLEV) := by
  obtain ⟨text, fin, hname, hscan, hdata, hdump⟩ := hrec.dump hp
  rw [hknown, if_neg Bool.false_ne_true] at hdump
  obtain ⟨s1, key1, nid, hput, hgrown, -, -, -⟩ := put_grown h.index (toText (cstr text))
  unfold storeRecord
  rw [if_neg (not_le.mpr hp), hscan, hdump]
  simp only [hput, Option.bind_eq_bind, Option.bind_some]
  exact ⟨s1, key1, rfl, h.grown (hgrown.trans (grown_refl hgrown.index (MAXLEV + MAXLEV)))⟩

theorem storeRecords_none (n : Nat) (s : Store) :
    storeRecords reverse clock msg rc n none s = some (s, none) := by
  cases n <;> rfl

/-- The cache after the records of a message. The loops end at the first record of another
type. -/
theorem Holding.records (hq : qtype = TY_MX ∨ qtype = TY_SOA) {p q : Nat} {vs : List WireRecord}
    (hrecs : RecordsAre msg rc p vs q)
    (hplain : ∀ w ∈ vs.takeWhile WireRecord.known, Plain w.owner)
    (hstore : ∀ w ∈ vs.takeWhile WireRecord.known, w.isFor owner qtype = true → w.data.Storable)
    (h : Holding owner qtype s key ws kept n) (hn : n + vs.length * (3 * MAXLEV) < 2 ^ 32) :
    ∃ s' key' kept', storeRecords reverse clock msg rc vs.length (some p) s =
        some (s', if vs.all WireRecord.known then some q else none) ∧
      Holding owner qtype s' key' (ws ++ vs.takeWhile WireRecord.known) kept'
        (n + vs.length * (3 * MAXLEV)) := by
  induction hrecs generalizing s key ws kept n with
  | nil => exact ⟨s, key, kept, rfl, by simpa using h⟩
  | @cons p q r w vs hrec hle hrest ih =>
    have hlt := hrec.lt
    rw [List.length_cons] at hn ⊢
    have hsum : n + (vs.length + 1) * (3 * MAXLEV) =
        n + 3 * MAXLEV + vs.length * (3 * MAXLEV) := by ring
    rw [hsum] at hn ⊢
    unfold storeRecords
    rw [if_neg (by omega)]
    simp only [Option.bind_eq_bind]
    by_cases hknown : w.known = true
    · rw [List.takeWhile_cons_of_pos hknown] at hplain hstore ⊢
      obtain ⟨s1, key1, kept1, hstep, hhold⟩ := h.record reverse clock hq hrec
        (show p < rc by omega) (by omega) hknown (hplain w List.mem_cons_self)
        (hstore w List.mem_cons_self)
      obtain ⟨s2, key2, kept2, hrun, hhold2⟩ := ih
        (fun v hv => hplain v (List.mem_cons_of_mem _ hv))
        (fun v hv => hstore v (List.mem_cons_of_mem _ hv)) hhold hn
      rw [hstep]
      simp only [Option.bind_some, hrun]
      refine ⟨s2, key2, kept2, ?_, ?_⟩
      · simp [hknown]
      · simpa using hhold2
    · have hunknown : w.known = false := by simpa using hknown
      obtain ⟨s1, key1, hstep, hhold⟩ := h.unknown reverse clock hrec
        (show p < rc by omega) hunknown
      rw [hstep]
      simp only [Option.bind_some, storeRecords_none]
      refine ⟨s1, key1, kept, ?_, ?_⟩
      · simp [hunknown]
      · rw [List.takeWhile_cons_of_neg (by simp [hunknown]), List.append_nil]
        refine ⟨hhold.index, hhold.top, hhold.flags, ?_, hhold.node, hhold.found, hhold.good,
          hhold.distinct⟩
        have hbound := hhold.bound
        omega

/-- The names of questions are put, and nothing is kept. -/
theorem Holding.questions {c p q : Nat} (hqs : QuestionsAre msg rc c p q)
    (h : Holding owner qtype s key ws kept n) :
    ∃ s' key', storeQuestions msg rc c (some p) s = some (s', some q) ∧
      Holding owner qtype s' key' ws kept (n + c * (2 * MAXLEV)) := by
  induction hqs generalizing s key n with
  | nil => exact ⟨s, key, rfl, by simpa using h⟩
  | @cons c p q ls text fin hname hle hrest ih =>
    have hlt := hname.labels.lt_fin
    obtain ⟨s1, key1, q1, hput, hgrown, -, -, -⟩ := put_grown h.index (toText (cstr text))
    obtain ⟨s2, key2, q2, hput', hgrown', -, -, -⟩ := put_grown hgrown.index (toText (cstr text))
    obtain ⟨s3, key3, hrun, hhold⟩ := ih (h.grown (hgrown.trans hgrown'))
    have hquery : (scanQuery msg p 512).val = (fin + 4, ⟨text, short msg fin, short msg (fin + 2)⟩) := by
      unfold scanQuery
      simp only [val_bind, val_getShort, val_pure, hname.scan]
    have hsum : n + (c + 1) * (2 * MAXLEV) = n + (MAXLEV + MAXLEV) + c * (2 * MAXLEV) := by ring
    refine ⟨s3, key3, ?_, by rw [hsum]; exact hhold⟩
    unfold storeQuestions
    rw [if_neg (by omega), hquery]
    simp only [hput, hput', Option.bind_eq_bind, Option.bind_some, hrun]

theorem storeRecords_succ (n mp : Nat) (s : Store) :
    storeRecords reverse clock msg rc (n + 1) (some mp) s = if rc - 1 ≤ mp then some (s, none)
      else (storeRecord reverse clock msg rc mp s).bind fun r =>
        storeRecords reverse clock msg rc n r.2 r.1 := rfl

theorem storeRecords_append (a b : Nat) (mp : Option Nat) (s : Store) :
    storeRecords reverse clock msg rc (a + b) mp s =
      (storeRecords reverse clock msg rc a mp s).bind fun r =>
        storeRecords reverse clock msg rc b r.2 r.1 := by
  induction a generalizing mp s with
  | zero =>
    rw [Nat.zero_add]
    rfl
  | succ a ih =>
    rw [Nat.succ_add]
    cases mp with
    | none => simp only [storeRecords_none, Option.bind_some]
    | some mp =>
      rw [storeRecords_succ, storeRecords_succ]
      split
      · rw [Option.bind_some, storeRecords_none]
      · rw [Option.bind_assoc]
        congr 1
        funext r
        exact ih r.2 r.1

theorem RecordsAre.append {p q r : Nat} {vs us : List WireRecord} (h : RecordsAre msg rc p vs q)
    (h' : RecordsAre msg rc q us r) : RecordsAre msg rc p (vs ++ us) r := by
  induction h with
  | nil => exact h'
  | cons hrec hle _ ih => exact .cons hrec hle (ih h')

/-- The cache after a response. -/
theorem Response.stored (h : Response msg rc ws) (owner : List Bytes)
    (hq : qtype = TY_MX ∨ qtype = TY_SOA)
    (hplain : ∀ w ∈ ws.takeWhile WireRecord.known, Plain w.owner)
    (hstore : ∀ w ∈ ws.takeWhile WireRecord.known, w.isFor owner qtype = true → w.data.Storable) :
    ∃ s key kept n, storeResponse reverse clock msg rc Store.init = some s ∧ n < 2 ^ 32 ∧
      Holding owner qtype s key (ws.takeWhile WireRecord.known) kept n := by
  obtain ⟨an, ns, ar, p0, p1, p2, p3, hws, hqs, han, hns, har, hanc, hnsc, harc⟩ := h
  have hall : RecordsAre msg rc p0 ws p3 := by
    rw [hws]
    exact (han.append hns).append har
  have hcounts : (scanHeader msg).val.qdcount < 65536 ∧ an.length < 65536 ∧ ns.length < 65536 ∧
      ar.length < 65536 := by
    rw [← hanc, ← hnsc, ← harc]
    exact ⟨short_lt _ _, short_lt _ _, short_lt _ _, short_lt _ _⟩
  have hlen : ws.length = an.length + ns.length + ar.length := by
    rw [hws, List.length_append, List.length_append]
  obtain ⟨s1, key1, hquest, hhold1⟩ := (holding_init owner qtype).questions hqs
  obtain ⟨s2, key2, kept, hrecs, hhold2⟩ := hhold1.records reverse clock hq hall hplain hstore
    (by unfold MAXLEV; omega)
  refine ⟨s2, key2, kept, _, ?_, ?_, by simpa using hhold2⟩
  · unfold storeResponse
    rw [hlen, storeRecords_append, storeRecords_append, Option.bind_assoc] at hrecs
    simp only [hquest, hanc, hnsc, harc, Option.bind_eq_bind, Option.bind_some]
    cases hs1 : storeRecords reverse clock msg rc an.length (some p0) s1 with
    | none =>
      rw [hs1] at hrecs
      cases hrecs
    | some r1 =>
      rw [hs1, Option.bind_some] at hrecs
      simp only [Option.bind_some]
      cases hs2 : storeRecords reverse clock msg rc ns.length r1.2 r1.1 with
      | none =>
        rw [hs2] at hrecs
        cases hrecs
      | some r2 =>
        rw [hs2, Option.bind_some] at hrecs
        simp only [Option.bind_some, hrecs]
  · unfold MAXLEV
    omega

end Run

/-! ## The relay -/

/-- One record with data that have room in `rbuff`. -/
def outWhole (name : Bytes) (type : Nat) (ttl : UInt32) (data : Bytes) : Out :=
  { anc := 1, rrs := [⟨name, type, ttl, data⟩], rbuff := data.length }

theorem outData_room {found : Put → Bytes} {name : Bytes} {type : Nat} {ttl : UInt32}
    {data : List Put} (h : (data.flatMap Put.bytes).length ≤ 512) :
    outData found name type ttl data = outWhole name type ttl (data.flatMap Put.bytes) := by
  unfold outData outWhole
  rw [runs_room (by rwa [List.length_nil, Nat.zero_add]), List.nil_append]

theorem outs_outWhole (name : Bytes) (type : Nat) (ttl : UInt32) (ds : List Bytes) :
    (outs (ds.map (outWhole name type ttl))).anc = ds.length ∧
      (outs (ds.map (outWhole name type ttl))).rr = (ds.map (putRR name type ttl)).flatten := by
  induction ds with
  | nil => exact ⟨rfl, rfl⟩
  | cons d ds ih =>
    obtain ⟨hanc, hrr⟩ := ih
    rw [List.map_cons, List.map_cons, List.flatten_cons, List.length_cons, ← hanc, ← hrr]
    exact ⟨Nat.add_comm _ _, rfl⟩

section Relay
variable {owner : List Bytes} {qtype n : Nat} {s : Store} {key : Nat → List Text}
  {ws kept : List WireRecord} (L : Lookups Store) (cf : Conf)

/-- The name of a node as it is relayed. -/
theorem Holding.nodename (h : Holding owner qtype s key ws kept n) (hn : n < 2 ^ 32) {q : Nat}
    (h1 : 1 ≤ q) (hq : q ≤ s.NID) {ls : List Bytes} (hkey : key q = keyOfLabels ls)
    (hok : LabelsOk ls) (hplain : Plain ls) (hsize : (wire ls).length ≤ 255) :
    ∃ ls', putName ((overStore L).DNS_nodename (UInt32.ofNat q) s) = wire ls' ∧
      SameLabels ls' ls := by
  obtain ⟨t, ls', hname, hput, hsame⟩ :=
    putName_nodename h.index h.top h1 hq hkey hok hplain hsize
  have hbound := h.bound
  refine ⟨ls', ?_, hsame⟩
  change putName (toBytes ((dnsnode.DNS_nodename s (UInt32.ofNat q).toNat 512).getD [])) = _
  rw [UInt32.toNat_ofNat', Nat.mod_eq_of_lt (by omega), hname]
  exact hput

/-- Four bytes of the data, after those before them. -/
theorem cached_long (a : Cached) (i : Nat) {pre rest : Bytes} {v : UInt32}
    (h : a.data = pre ++ (putLong v ++ rest)) (hi : pre.length = i) : a.long i = v := by
  have hget : ∀ k b, (putLong v)[k]? = some b → a.data.getD (i + k) 0 = b := by
    intro k b hk
    have hlt : k < (putLong v).length := (List.getElem?_eq_some_iff.mp hk).1
    rw [h, List.getD_eq_getElem?_getD, List.getElem?_append_right (by omega), hi,
      Nat.add_sub_cancel_left, List.getElem?_append_left hlt, hk]
    rfl
  unfold Cached.long
  rw [show a.data.getD i 0 = _ from hget 0 _ rfl, hget 1 _ rfl, hget 2 _ rfl, hget 3 _ rfl]
  exact or_bytes v

theorem relayOne_mx (K : Lookups Store) (name : Bytes) (a : Cached) {xclass : Octet} {v : UInt32}
    {pref : Nat} (h : a.data = [UInt8.ofNat TY_MX, xclass] ++ putLong v ++ putShort pref)
    (hroom : (putName (K.DNS_nodename v s)).length ≤ 510) :
    dns.relayOne K cf name TY_MX s a =
      outWhole name TY_MX cf.DNS_MINTTL (putShort pref ++ putName (K.DNS_nodename v s)) := by
  have htype : a.type = TY_MX := by
    unfold Cached.type
    rw [h]
    rfl
  have hpref : putShort (short (a.data.getD · 0) 6) = putShort pref := by
    rw [← span_short, h]
    rfl
  have hbytes : [Put.putShort (short (a.data.getD · 0) 6),
      Put.putName (K.DNS_nodename v s)].flatMap Put.bytes =
        putShort pref ++ putName (K.DNS_nodename v s) := by
    rw [List.flatMap_cons, List.flatMap_singleton]
    exact congrArg (· ++ putName (K.DNS_nodename v s)) hpref
  rw [List.append_assoc] at h
  unfold dns.relayOne
  rw [htype, if_neg (fun hne => hne rfl), if_neg (by decide), cached_long a 2 h rfl,
    outData_room (by rw [hbytes, List.length_append, length_putShort]; omega), hbytes]

theorem relayOne_soa (K : Lookups Store) (name : Bytes) (a : Cached) {xclass : Octet}
    {v v' : UInt32} {numbers : List Nat} (hfive : numbers.length = 5)
    (h : a.data = [UInt8.ofNat TY_SOA, xclass] ++ putLong v ++ putLong v' ++
      numbers.flatMap fun u => putLong (UInt32.ofNat u))
    (hroom : (putName (K.DNS_nodename v s)).length + (putName (K.DNS_nodename v' s)).length ≤ 492) :
    dns.relayOne K cf name TY_SOA s a = outWhole name TY_SOA cf.DNS_MINTTL
      (putName (K.DNS_nodename v s) ++ putName (K.DNS_nodename v' s) ++
        numbers.flatMap fun u => putLong (UInt32.ofNat u)) := by
  have htype : a.type = TY_SOA := by
    unfold Cached.type
    rw [h]
    rfl
  obtain ⟨n1, ns, rfl, hns⟩ := List.length_eq_succ_iff.mp hfive
  obtain ⟨n2, n3, n4, n5, rfl⟩ := List.length_eq_four.mp hns
  simp only [List.flatMap_cons, List.flatMap_nil, List.append_assoc] at h ⊢
  have hlong : ∀ (i : Nat) {pre rest : Bytes} {u : UInt32},
      a.data = pre ++ (putLong u ++ rest) → pre.length = i → a.long i = u :=
    fun i _ _ _ => cached_long a i
  have h2 := hlong 2 h rfl
  rw [← List.append_assoc] at h
  have h6 := hlong 6 h rfl
  rw [← List.append_assoc] at h
  have h10 := hlong 10 h rfl
  rw [← List.append_assoc] at h
  have h14 := hlong 14 h rfl
  rw [← List.append_assoc] at h
  have h18 := hlong 18 h rfl
  rw [← List.append_assoc] at h
  have h22 := hlong 22 h rfl
  rw [← List.append_assoc] at h
  have h26 := hlong 26 h rfl
  unfold dns.relayOne
  rw [htype, if_neg (fun hne => hne rfl), if_pos rfl, h2, h6, h10, h14, h18, h22, h26, outData_room]
  · simp only [List.flatMap_cons, List.flatMap_nil, Put.bytes]
  · simp only [List.flatMap_cons, List.flatMap_nil, Put.bytes, List.length_append, length_putLong,
      List.length_nil]
    omega

/-- A record of the cache is relayed with its numbers, and with its names up to case. -/
theorem Holding.relayOne (h : Holding owner qtype s key ws kept n) (hn : n < 2 ^ 32)
    {w : WireRecord} (hw : w ∈ kept) (hroom : w.data.HasRoom) {d : Bytes}
    (henc : Encodes key s.NID d w) (name : Bytes) :
    ∃ out, SameData out w.data ∧ ∀ a : Cached, a.data = d →
      dns.relayOne (overStore L) cf name qtype s a = outWhole name qtype cf.DNS_MINTTL out := by
  obtain ⟨htype, -, hkept, htyped⟩ := h.good w hw
  unfold Encodes at henc
  unfold WireRecord.Typed at htyped
  cases hwd : w.data with
  | other =>
    rw [hwd] at hkept
    exact hkept.elim
  | mx pref ls =>
    rw [hwd] at henc hkept htyped
    obtain ⟨q, h1, hqN, hkey, hd⟩ := henc
    obtain ⟨-, hok, hplain, hsize⟩ := hkept
    obtain ⟨ls', hname, hsame⟩ := h.nodename L hn h1 hqN hkey hok hplain hsize
    have hqtype : qtype = TY_MX := htype.symm.trans htyped
    have hlen := hsame.wire
    subst hqtype
    refine ⟨_, ⟨ls', hsame, rfl⟩, ?_⟩
    intro a ha
    rw [relayOne_mx cf (overStore L) name a (by rw [ha, hd, htyped]) (by rw [hname]; omega), hname]
  | soa m r numbers =>
    rw [hwd] at henc hkept htyped hroom
    obtain ⟨q, q', h1, hqN, hkey, h1', hqN', hkey', hd⟩ := henc
    obtain ⟨⟨hok, hplain, hsize⟩, ⟨hok', hplain', hsize'⟩, hfive, -⟩ := hkept
    obtain ⟨m', hname, hsame⟩ := h.nodename L hn h1 hqN hkey hok hplain hsize
    obtain ⟨r', hname', hsame'⟩ := h.nodename L hn h1' hqN' hkey' hok' hplain' hsize'
    have hqtype : qtype = TY_SOA := htype.symm.trans htyped
    have hlen := hsame.wire
    have hlen' := hsame'.wire
    have hboth : (wire m).length + (wire r).length ≤ 492 := hroom
    subst hqtype
    refine ⟨_, ⟨m', r', hsame, hsame', rfl⟩, ?_⟩
    intro a ha
    rw [relayOne_soa cf (overStore L) name a hfive (by rw [ha, hd, htyped])
      (by rw [hname, hname']; omega), hname, hname']

theorem relay_cachedRR_eq (K : Lookups Store) (name : Bytes) (qtype : Nat) (s : Store) :
    (relay_cachedRR K cf name qtype s).1 = if K.DNS_getbyname name s = 0 then {} else
      outs (((K.DNS_getattr (K.DNS_getbyname name s) (typemask qtype) s).take 8).map
        (dns.relayOne K cf name qtype s)) := by
  change (StateT.run (if K.DNS_getbyname name s = 0 then (pure {} : StateM Store Out) else _) s).1 = _
  split <;> rfl

/-- What the node of the owner gives to the relay. -/
theorem Holding.getattr (h : Holding owner qtype s key ws kept n) (hqlt : qtype < 32) {i : Nat}
    (h1 : 1 ≤ i) (hi : i ≤ s.NID) (hkey : key i = keyOfLabels owner) (hfew : kept.length ≤ 8) :
    (dnsnode.DNS_getattr i (typemask qtype) 0 8 0 s).2 =
      (s.heap i).n_attr.filter (·.a_flag == typemask qtype) := by
  have hnode := (h.node i h1 hi hkey).length_eq
  have hfilter : (s.heap i).n_attr.filter (·.has (typemask qtype)) =
      (s.heap i).n_attr.filter (·.a_flag == typemask qtype) := by
    apply List.filter_congr
    intro a ha
    obtain ⟨t, ht, hflag⟩ := h.flags i hi a ha
    unfold Attr.has
    rw [hflag]
    exact typemask_and_iff qtype hqlt t ht
  rw [dnsnode.getattr_zero, h.index.getnode hi, hfilter]
  apply List.take_of_length_le
  unfold dataAt at hnode
  rw [List.length_map] at hnode
  omega

theorem Encodes.cached {NID : Nat} {a : Attr} {w : WireRecord} (h : Encodes key NID a.a_data w)
    (hq : w.type = TY_MX ∨ w.type = TY_SOA) : ∃ c, dns.cached a = some c ∧ c.data = a.a_data := by
  have hhead : a.a_data.getD 0 0 = UInt8.ofNat w.type := by
    obtain ⟨rest, hd⟩ := h.head
    rw [hd]
    rfl
  have hknown : knownType (a.a_data.getD 0 0).toNat CL_IN = true := by
    rw [hhead]
    rcases hq with h | h <;> rw [h] <;> rfl
  unfold dns.cached
  rw [dif_pos hknown]
  exact ⟨_, rfl, rfl⟩

/-- The relay of records with the data of kept ones. -/
theorem Holding.relayAll (h : Holding owner qtype s key ws kept n) (hn : n < 2 ^ 32)
    (hq : qtype = TY_MX ∨ qtype = TY_SOA) (name : Bytes) {attrs : List Attr}
    {ks : List WireRecord} (hsub : ∀ w ∈ ks, w ∈ kept) (hroom : ∀ w ∈ ks, w.data.HasRoom)
    (hall : List.Forall₂ (Encodes key s.NID) (attrs.map Attr.a_data) ks) :
    ∃ out, (attrs.filterMap cached).map (dns.relayOne (overStore L) cf name qtype s) =
        out.map (outWhole name qtype cf.DNS_MINTTL) ∧
      List.Forall₂ (fun d w => SameData d w.data) out ks := by
  induction attrs generalizing ks with
  | nil =>
    cases hall
    exact ⟨[], rfl, .nil⟩
  | cons a attrs ih =>
    rw [List.map_cons] at hall
    cases hall with
    | @cons _ w _ ks henc hrest =>
      have hw := hsub w List.mem_cons_self
      have htype := (h.good w hw).1
      obtain ⟨out, hout, hsame⟩ := ih (fun v hv => hsub v (List.mem_cons_of_mem _ hv))
        (fun v hv => hroom v (List.mem_cons_of_mem _ hv)) hrest
      obtain ⟨c, hc, hdata⟩ := henc.cached (by rwa [htype])
      obtain ⟨d, hd, hrelay⟩ := h.relayOne L cf hn hw (hroom w List.mem_cons_self) henc name
      refine ⟨d :: out, ?_, .cons hd hsame⟩
      rw [List.filterMap_cons_some hc, List.map_cons, List.map_cons, hout, hrelay c hdata]

end Relay

/-! ## MX and SOA records survive the cache -/

/-- The relay gives one record for each distinct record that was received for the owner, and puts
them in every buffer with room for them. -/
def Survives (reverse : Bytes → Text) (clock : Nat → Int) (L : Lookups Store) (cf : Conf)
    (msg : Msg) (rc : Nat) (ws : List WireRecord) (owner : List Bytes) (qtype : Nat) : Prop :=
  ∃ s kept out, storeResponse reverse clock msg rc Store.init = some s ∧
    Distinct kept (ws.filter (·.isFor owner qtype)) ∧
    (relay_cachedRR (overStore L) cf (dotted owner) qtype s).1.anc = kept.length ∧
    (relay_cachedRR (overStore L) cf (dotted owner) qtype s).1.rr =
      (out.map (putRR (dotted owner) qtype cf.DNS_MINTTL)).flatten ∧
    (∀ (size : Nat) (found : Put → Bytes) (b : Bytes),
      b.length + (relay_cachedRR (overStore L) cf (dotted owner) qtype s).1.rr.length ≤ size →
      putRRs size found b (relay_cachedRR (overStore L) cf (dotted owner) qtype s).1.rrs =
        b ++ (relay_cachedRR (overStore L) cf (dotted owner) qtype s).1.rr) ∧
    List.Forall₂ (fun d w => SameData d w.data) out kept

/-- The records for the owner stand before any record of a type or class that ends the loops, the
cache can keep their names, and their data have room when they are relayed. -/
structure Cacheable (owner : List Bytes) (qtype : Nat) (ws : List WireRecord) : Prop where
  reached : ∀ w ∈ ws.dropWhile WireRecord.known, w.isFor owner qtype = false
  owners : ∀ w ∈ ws.takeWhile WireRecord.known, Plain w.owner
  names : ∀ w ∈ ws, w.isFor owner qtype = true → w.data.Storable
  room : ∀ w ∈ ws, w.isFor owner qtype = true → w.data.HasRoom

theorem Distinct.length_le {kept received : List WireRecord} (h : Distinct kept received) :
    kept.length ≤ received.length := by
  have hsub : kept.map WireRecord.folded ⊆ received.map WireRecord.folded := by
    intro x hx
    obtain ⟨w, hw, rfl⟩ := List.mem_map.mp hx
    exact List.mem_map_of_mem (h.subset w hw)
  have hle := (List.subperm_of_subset h.nodup hsub).length_le
  simpa using hle

theorem nameIs_dotted {ls : List Bytes} (hok : LabelsOk ls) (hsize : (wire ls).length ≤ 255) :
    NameIs (fun i => (wire ls).getD i 0) 0 ls (dotted ls) (0 + (wire ls).length) := by
  refine ⟨labels_wire hok ?_, hsize⟩
  intro i hi
  simp [List.getD_eq_getElem?_getD, hi]

/-- The MX or SOA records of a well-formed response for an owner, at most eight, come back from
the cache: one for each distinct record, with the same numbers, and with the same names up to
case. -/
theorem records_survive (reverse : Bytes → Text) (clock : Nat → Int) (L : Lookups Store) (cf : Conf)
    (msg : Msg) (rc : Nat) (ws : List WireRecord) (hresp : Response msg rc ws) (owner : List Bytes)
    (hok : LabelsOk owner) (hsize : (wire owner).length ≤ 255) (hplain : Plain owner) (qtype : Nat)
    (hq : qtype = TY_MX ∨ qtype = TY_SOA)
    (height : (ws.filter (·.isFor owner qtype)).length ≤ 8) (hcache : Cacheable owner qtype ws) :
    Survives reverse clock L cf msg rc ws owner qtype := by
  have hqlt : qtype < 32 := by
    rcases hq with rfl | rfl <;> decide
  obtain ⟨s, key, kept, n, hstored, hn, hhold⟩ := hresp.stored reverse clock owner hq
    hcache.owners fun w hw => hcache.names w ((List.takeWhile_sublist _).mem hw)
  have hfilter : (ws.takeWhile WireRecord.known).filter (·.isFor owner qtype) =
      ws.filter (·.isFor owner qtype) := by
    have hnone : (ws.dropWhile WireRecord.known).filter (·.isFor owner qtype) = [] := by
      rw [List.filter_eq_nil_iff]
      intro w hw
      rw [hcache.reached w hw]
      exact Bool.false_ne_true
    conv_rhs => rw [← List.takeWhile_append_dropWhile (p := WireRecord.known) (l := ws)]
    rw [List.filter_append, hnone, List.append_nil]
  have hdistinct := hhold.distinct
  rw [hfilter] at hdistinct
  have hfew := hdistinct.length_le.trans height
  rcases (nameIs_dotted hok hsize).get hplain hhold.index with ⟨i, h1, hi, hkey, hget⟩ | ⟨hno, hget⟩
  · -- the owner has a node
    have hnode := hhold.node i h1 hi hkey
    have hroom : ∀ w ∈ kept, w.data.HasRoom := by
      intro w hw
      obtain ⟨hmem, hfor⟩ := List.mem_filter.mp (hdistinct.subset w hw)
      exact hcache.room w hmem hfor
    obtain ⟨out, hout, hsame⟩ :=
      hhold.relayAll L cf hn hq (dotted owner) (fun _ hw => hw) hroom hnode
    have hrelay : (relay_cachedRR (overStore L) cf (dotted owner) qtype s).1 =
        outs (out.map (outWhole (dotted owner) qtype cf.DNS_MINTTL)) := by
      have hnid : (overStore L).DNS_getbyname (dotted owner) s = i := by
        change ((dnsnode.DNS_getbyname (toText (dotted owner)) s).map Prod.snd).getD 0 = i
        rw [hget]
        rfl
      have hattrs : (overStore L).DNS_getattr i (typemask qtype) s =
          ((s.heap i).n_attr.filter (·.a_flag == typemask qtype)).filterMap cached :=
        congrArg (List.filterMap cached) (hhold.getattr hqlt h1 hi hkey hfew)
      have hlen := congrArg List.length hout
      rw [List.length_map, List.length_map, hsame.length_eq] at hlen
      rw [relay_cachedRR_eq, hnid, if_neg (by omega), hattrs,
        List.take_of_length_le (by omega), hout]
    obtain ⟨hanc, hrr⟩ := outs_outWhole (dotted owner) qtype cf.DNS_MINTTL out
    refine ⟨s, kept, out, hstored, hdistinct, ?_, ?_, fun _ _ _ h => putRRs_room h, hsame⟩
    · rw [hrelay, hanc, hsame.length_eq]
    · rw [hrelay, hrr]
  · have hnone : kept = [] := by
      by_contra hne
      obtain ⟨i, h1, hi, hkey⟩ := hhold.found hne
      exact hno i h1 hi hkey
    have hrelay : (relay_cachedRR (overStore L) cf (dotted owner) qtype s).1 = {} := by
      have hnid : (overStore L).DNS_getbyname (dotted owner) s = 0 := by
        change ((dnsnode.DNS_getbyname (toText (dotted owner)) s).map Prod.snd).getD 0 = 0
        rw [hget]
        rfl
      rw [relay_cachedRR_eq, if_pos hnid]
    subst hnone
    exact ⟨s, [], [], hstored, hdistinct, by rw [hrelay]; rfl, by rw [hrelay]; rfl,
      fun _ _ _ h => putRRs_room h, .nil⟩

/-! ## Runs of the cache -/

theorem nameIs_span {msg : Msg} {p : Nat} {ls : List Bytes} (hok : LabelsOk ls)
    (hsize : (wire ls).length ≤ 255) (h : (span msg p (wire ls).length).val = wire ls) :
    NameIs msg p ls (dotted ls) (p + (wire ls).length) :=
  ⟨labels_wire hok (at_iff_span.mpr h), hsize⟩

/-- A response with one MX record for the owner `a`: the mail exchanger has the preference 10. -/
def oneExchanger (exchange : List Bytes) : Msg := fun i =>
  ([0, 7, 128, 0, 0, 0, 0, 1, 0, 0, 0, 0] ++ wire [[97]] ++ [0, 15, 0, 1, 0, 0, 0, 60] ++
    putShort (2 + (wire exchange).length) ++ [0, 10] ++ wire exchange).getD i 0

theorem at_getD {l pre mid post : Bytes} (h : l = pre ++ mid ++ post) :
    At (fun i => l.getD i 0) pre.length mid := by
  intro i hi
  subst h
  change (pre ++ mid ++ post).getD (pre.length + i) 0 = mid[i]
  rw [List.getD_eq_getElem?_getD, List.append_assoc, List.getElem?_append_right (by omega),
    Nat.add_sub_cancel_left, List.getElem?_append_left hi, List.getElem?_eq_getElem hi]
  rfl

theorem response_oneExchanger {exchange : List Bytes} (hok : LabelsOk exchange)
    (hsize : (wire exchange).length ≤ 255) :
    Response (oneExchanger exchange) (27 + (wire exchange).length)
      [⟨[[97]], TY_MX, 1, .mx 10 exchange⟩] := by
  have hshort : ∀ (p : Nat) (a b : Octet), oneExchanger exchange p = a →
      oneExchanger exchange (p + 1) = b →
      short (oneExchanger exchange) p = a.toNat * 256 + b.toNat := by
    intro p a b ha hb
    unfold short
    rw [ha, hb]
  have howner : NameIs (oneExchanger exchange) 12 [[97]] [97] 15 :=
    nameIs_span (by decide) (by decide) rfl
  have hlength : short (oneExchanger exchange) 23 = 2 + (wire exchange).length := by
    have hat : At (oneExchanger exchange) 23 (putShort (2 + (wire exchange).length)) := by
      rw [at_iff_span]
      rfl
    rw [short_putShort hat, Nat.mod_eq_of_lt (by omega)]
  have hexchange : NameIs (oneExchanger exchange) 27 exchange (dotted exchange)
      (25 + (2 + (wire exchange).length)) := by
    have hat : At (oneExchanger exchange) 27 (wire exchange) :=
      @at_getD _ ([0, 7, 128, 0, 0, 0, 0, 1, 0, 0, 0, 0] ++ wire [[97]] ++
        [0, 15, 0, 1, 0, 0, 0, 60] ++ putShort (2 + (wire exchange).length) ++ [0, 10])
        (wire exchange) [] (List.append_nil _).symm
    rw [show 25 + (2 + (wire exchange).length) = 27 + (wire exchange).length by omega]
    exact nameIs_span hok hsize (at_iff_span.mp hat)
  have hrec : RecordIs (oneExchanger exchange) 12 ⟨[[97]], TY_MX, 1, .mx 10 exchange⟩
      (27 + (wire exchange).length) := by
    refine ⟨[97], 15, howner, hshort 15 0 15 rfl rfl, hshort 17 0 1 rfl rfl, ?_, ?_⟩
    · change DataIs (oneExchanger exchange) 25 (short (oneExchanger exchange) 23) TY_MX _
      have hpref : short (oneExchanger exchange) 25 = 10 := hshort 25 0 10 rfl rfl
      rw [hlength, ← hpref]
      exact .mx hexchange
    · change 27 + (wire exchange).length = 25 + short (oneExchanger exchange) 23
      rw [hlength]
      omega
  have hheader : (scanHeader (oneExchanger exchange)).val = ⟨7, 32768, 0, 1, 0, 0⟩ := by
    unfold scanHeader
    simp only [val_bind, val_getShort, val_pure]
    rw [hshort 0 0 7 rfl rfl, hshort 2 128 0 rfl rfl, hshort 4 0 0 rfl rfl, hshort 6 0 1 rfl rfl,
      hshort 8 0 0 rfl rfl, hshort 10 0 0 rfl rfl]
    rfl
  refine ⟨[_], [], [], 12, _, _, _, rfl, ?_, .cons hrec le_rfl .nil, .nil, .nil, ?_, ?_, ?_⟩
  · rw [hheader]
    exact .nil
  · rw [hheader]
    rfl
  · rw [hheader]
    rfl
  · rw [hheader]
    rfl

/-- Nothing but the cache is looked at. -/
def noLookups : Lookups Store where
  gethostbyNX _ _ := pure none
  GETHOSTBYADDR _ _ := pure none
  getRRbynameaddr _ _ := pure ()
  DNS_getbyname _ _ := 0
  DNS_getattr _ _ _ := []
  DNS_nodename _ _ := []
  LastSOAdom _ := []
  RES_CACHED_UNKNOWN _ := false
  clearUnknown s := s
  RES_proxy _ := true
  VSA_dnstosa _ := none
  rbuff _ _ := []
  RRbuf _ _ := []

theorem records_survive_one :
    Survives (fun _ => []) (fun _ => 0) noLookups plainConf (oneExchanger [[98]]) 30
      [⟨[[97]], TY_MX, 1, .mx 10 [[98]]⟩] [[97]] TY_MX := by
  have hresp : Response (oneExchanger [[98]]) 30 [⟨[[97]], TY_MX, 1, .mx 10 [[98]]⟩] :=
    response_oneExchanger (by decide) (by decide)
  exact records_survive _ _ _ _ _ _ _ hresp [[97]] (by decide) (by decide)
    (by decide) TY_MX (.inl rfl) (by decide) ⟨by decide, by decide, by decide, by decide⟩

/-- The relay after the response with one mail exchanger. -/
def relayedOne (exchange : List Bytes) : Option Out :=
  (storeResponse (fun _ => []) (fun _ => 0) (oneExchanger exchange) (27 + (wire exchange).length)
    Store.init).map fun s =>
      (relay_cachedRR (overStore noLookups) plainConf (dotted [[97]]) TY_MX s).1

/-- The record that is relayed where the only one of the response survives. -/
theorem Survives.single {reverse : Bytes → Text} {clock : Nat → Int} {L : Lookups Store} {cf : Conf}
    {msg : Msg} {rc : Nat} {ws : List WireRecord} {owner : List Bytes} {qtype : Nat}
    (h : Survives reverse clock L cf msg rc ws owner qtype) {w : WireRecord}
    (hone : ws.filter (·.isFor owner qtype) = [w]) :
    ∃ s d, storeResponse reverse clock msg rc Store.init = some s ∧ SameData d w.data ∧
      (relay_cachedRR (overStore L) cf (dotted owner) qtype s).1.rr =
        putRR (dotted owner) qtype cf.DNS_MINTTL d := by
  obtain ⟨s, kept, out, hstored, hdistinct, hanc, hrr, -, hsame⟩ := h
  rw [hone] at hdistinct
  have hlen := hdistinct.length_le
  obtain ⟨w', hw⟩ : ∃ w', kept = [w'] := by
    apply List.length_eq_one_iff.mp
    have hmem := hdistinct.all _ (List.mem_singleton.mpr rfl)
    have hpos := List.length_pos_of_mem hmem
    rw [List.length_map] at hpos
    exact le_antisymm hlen hpos
  subst hw
  have hwd := List.mem_singleton.mp (hdistinct.subset w' List.mem_cons_self)
  subst hwd
  cases hsame with
  | @cons d _ _ _ hd hrest =>
    cases hrest
    refine ⟨s, d, hstored, hd, ?_⟩
    rw [hrr, List.map_singleton, List.flatten_singleton]

theorem Survives.one {exchange : List Bytes} (h : Survives (fun _ => []) (fun _ => 0) noLookups
      plainConf (oneExchanger exchange) (27 + (wire exchange).length)
      [⟨[[97]], TY_MX, 1, .mx 10 exchange⟩] [[97]] TY_MX) :
    ∃ ls, SameLabels ls exchange ∧ (relayedOne exchange).map Out.rr =
      some (putRR [97] TY_MX plainConf.DNS_MINTTL (putShort 10 ++ wire ls)) := by
  obtain ⟨s, d, hstored, ⟨ls, hls, rfl⟩, hrr⟩ := h.single rfl
  refine ⟨ls, hls, ?_⟩
  unfold relayedOne
  rw [hstored, Option.map_some, Option.map_some, hrr]
  rfl

theorem Survives.length_one {exchange : List Bytes} (h : Survives (fun _ => []) (fun _ => 0)
      noLookups plainConf (oneExchanger exchange) (27 + (wire exchange).length)
      [⟨[[97]], TY_MX, 1, .mx 10 exchange⟩] [[97]] TY_MX) :
    (relayedOne exchange).map (fun o => o.rr.length) = some (15 + (wire exchange).length) := by
  obtain ⟨ls, hls, hrr⟩ := h.one
  have hname : (putName [97]).length = 3 := by decide +kernel
  have hlen : (putRR [97] TY_MX plainConf.DNS_MINTTL (putShort 10 ++ wire ls)).length =
      15 + (wire exchange).length := by
    unfold putRR
    simp only [List.length_append, length_putShort, length_putLong, hname, hls.wire]
    omega
  cases hone : relayedOne exchange with
  | none =>
    rw [hone] at hrr
    cases hrr
  | some o =>
    rw [hone, Option.map_some, Option.some.injEq] at hrr
    rw [Option.map_some, hrr, hlen]

/-- A response with a record of another type before one MX record. -/
def afterOther : Msg := fun i =>
  ([0, 7, 128, 0, 0, 0, 0, 2, 0, 0, 0, 0] ++ wire [] ++ [0, 41, 0, 1, 0, 0, 0, 0, 0, 0] ++
    wire [[97]] ++ [0, 15, 0, 1, 0, 0, 0, 60, 0, 5, 0, 10] ++ wire [[98]]).getD i 0

theorem response_afterOther :
    Response afterOther 41 [⟨[], 41, 1, .other⟩, ⟨[[97]], TY_MX, 1, .mx 10 [[98]]⟩] := by
  have hother : RecordIs afterOther 12 ⟨[], 41, 1, .other⟩ 23 :=
    ⟨[], 13, nameIs_span (by decide) (by decide) rfl, by decide, by decide,
      .other (by decide) (by decide), by decide⟩
  have hmx : RecordIs afterOther 23 ⟨[[97]], TY_MX, 1, .mx 10 [[98]]⟩ 41 := by
    refine ⟨[97], 26, nameIs_span (by decide) (by decide) rfl, by decide,
      by decide, ?_, by decide⟩
    have hpref : short afterOther 36 = 10 := by decide
    have hlength : short afterOther 34 = 5 := by decide
    change DataIs afterOther 36 (short afterOther 34) TY_MX (.mx 10 [[98]])
    rw [hlength, ← hpref]
    exact .mx (nameIs_span (by decide) (by decide) rfl)
  exact ⟨[_, _], [], [], 12, _, _, _, rfl, .nil, .cons hother (by decide) (.cons hmx le_rfl .nil),
    .nil, .nil, by decide, by decide, by decide⟩

/-- A name of 255 bytes. -/
def fullName : List Bytes := [63, 63, 63, 61].map (List.replicate · 98)

/-- A response with one SOA record for the owner `a`, with two names of 255 bytes. -/
def fullAuthority : Msg := fun i =>
  if i < 25 then
    ([0, 7, 128, 0, 0, 0, 0, 1, 0, 0, 0, 0] ++ wire [[97]] ++ [0, 6, 0, 1, 0, 0, 0, 60] ++
      putShort 530).getD i 0
  else if 535 ≤ i then 0
  else
    let k := (i - 25) % 255
    if k = 254 then 0 else if k % 64 = 0 then if k = 192 then 61 else 63 else 98

theorem response_fullAuthority :
    Response fullAuthority 555
      [⟨[[97]], TY_SOA, 1, .soa fullName fullName [0, 0, 0, 0, 0]⟩] := by
  have hname : ∀ p, (span fullAuthority p 255).val = wire fullName →
      NameIs fullAuthority p fullName (dotted fullName) (p + 255) := by
    intro p hspan
    have hlen : (wire fullName).length = 255 := by decide +kernel
    rw [← hlen] at hspan ⊢
    exact nameIs_span (by decide) hlen.le hspan
  have howner : NameIs fullAuthority 12 [[97]] [97] 15 :=
    nameIs_span (by decide) (by decide) rfl
  have hrec : RecordIs fullAuthority 12
      ⟨[[97]], TY_SOA, 1, .soa fullName fullName [0, 0, 0, 0, 0]⟩ 555 := by
    refine ⟨[97], 15, howner, by decide, by decide, ?_, by decide⟩
    have hlength : short fullAuthority 23 = 530 := by decide
    have hlong : ∀ p, 535 ≤ p → long fullAuthority p = 0 := by
      intro p hp
      have hzero : ∀ q, 535 ≤ q → fullAuthority q = 0 := fun q hq => by
        unfold fullAuthority
        rw [if_neg (by omega), if_pos hq]
      unfold long short
      rw [hzero _ hp, hzero _ (by omega), hzero _ (by omega), hzero _ (by omega)]
      rfl
    have hsoa := @DataIs.soa fullAuthority 25 530 fullName fullName _ _ 280 535
      (hname 25 (by decide +kernel)) (hname 280 (by decide +kernel)) rfl
    rw [hlong _ le_rfl, hlong _ (by omega), hlong _ (by omega), hlong _ (by omega),
      hlong _ (by omega)] at hsoa
    change DataIs fullAuthority 25 (short fullAuthority 23) TY_SOA _
    rw [hlength]
    exact hsoa
  exact ⟨[_], [], [], 12, _, _, _, rfl, .nil, .cons hrec le_rfl .nil, .nil, .nil, by decide,
    by decide, by decide⟩

/-- What is lost: a response that there is no mail exchanger, with the root in its place; a name of
37 labels; a label with a dot in it; a record behind one of another type; and the numbers of an SOA
record with two names of 255 bytes. -/
theorem records_lost :
    (∀ exchange ∈ [[], List.replicate 37 [98], [[98, 46, 99]]],
      Response (oneExchanger exchange) (27 + (wire exchange).length)
          [⟨[[97]], TY_MX, 1, .mx 10 exchange⟩] ∧
        ¬ Survives (fun _ => []) (fun _ => 0) noLookups plainConf (oneExchanger exchange)
          (27 + (wire exchange).length) [⟨[[97]], TY_MX, 1, .mx 10 exchange⟩] [[97]] TY_MX) ∧
      Response afterOther 41 [⟨[], 41, 1, .other⟩, ⟨[[97]], TY_MX, 1, .mx 10 [[98]]⟩] ∧
        ¬ Survives (fun _ => []) (fun _ => 0) noLookups plainConf afterOther 41
          [⟨[], 41, 1, .other⟩, ⟨[[97]], TY_MX, 1, .mx 10 [[98]]⟩] [[97]] TY_MX ∧
      Response fullAuthority 555 [⟨[[97]], TY_SOA, 1, .soa fullName fullName [0, 0, 0, 0, 0]⟩] ∧
        ¬ Survives (fun _ => []) (fun _ => 0) noLookups plainConf fullAuthority 555
          [⟨[[97]], TY_SOA, 1, .soa fullName fullName [0, 0, 0, 0, 0]⟩] [[97]] TY_SOA := by
  refine ⟨?_, response_afterOther, ?_, response_fullAuthority, ?_⟩
  · intro exchange hexchange
    refine ⟨?_, ?_⟩
    · apply response_oneExchanger
      · revert exchange
        decide
      · revert exchange
        decide +kernel
    · intro hsurvives
      have hlen := hsurvives.length_one
      simp only [List.mem_cons, List.not_mem_nil, or_false] at hexchange
      rcases hexchange with rfl | rfl | rfl
      · -- nothing is relayed
        have hzero : (relayedOne []).map (fun o => o.rr.length) = some 0 := by decide +kernel
        rw [hzero] at hlen
        cases hlen
      · -- one label is lost
        have hcut : (relayedOne (List.replicate 37 [98])).map (fun o => o.rr.length) = some 88 := by
          decide +kernel
        have hwire : (wire (List.replicate 37 [98])).length = 75 := by decide +kernel
        rw [hcut, hwire] at hlen
        cases hlen
      · -- the name has two labels
        obtain ⟨ls, hls, hrr⟩ := hsurvives.one
        have htwo : (relayedOne [[98, 46, 99]]).map (fun o => o.rr.getD 15 0) = some 1 := by
          decide +kernel
        obtain ⟨l, rfl⟩ := List.length_eq_one_iff.mp hls.length
        have hl : l.length = 3 := hls.cons.2.1
        have hname : putName [97] = [1, 97, 0] := by decide +kernel
        have hbyte := congrArg (Option.map fun b => b.getD 15 0) hrr
        rw [Option.map_map] at hbyte
        have hboth := htwo.symm.trans hbyte
        unfold putRR at hboth
        rw [hname, wire_cons, hl] at hboth
        cases hboth
  · rintro ⟨s, kept, out, hstored, hdistinct, hanc, -, -, -⟩
    have hzero : (storeResponse (fun _ => []) (fun _ => 0) afterOther 41 Store.init).map
        (fun s => (relay_cachedRR (overStore noLookups) plainConf (dotted [[97]]) TY_MX s).1.anc) =
          some 0 := by
      decide +kernel
    rw [hstored, Option.map_some, hanc, Option.some.injEq] at hzero
    have hmem := hdistinct.all ⟨[[97]], TY_MX, 1, .mx 10 [[98]]⟩ (by decide)
    rw [List.eq_nil_of_length_eq_zero hzero] at hmem
    cases hmem
  · -- there is room for two bytes behind the names
    intro hsurvives
    obtain ⟨s, d, hstored, ⟨m, r, hm, hr, rfl⟩, hrr⟩ := hsurvives.single rfl
    have hshort : (storeResponse (fun _ => []) (fun _ => 0) fullAuthority 555 Store.init).map
        (fun s => (relay_cachedRR (overStore noLookups) plainConf (dotted [[97]]) TY_SOA s).1.rr.length)
          = some 525 := by
      decide +kernel
    have hfull : (wire fullName).length = 255 := by decide +kernel
    have hname : (putName (dotted [[97]])).length = 3 := by decide +kernel
    rw [hstored, Option.map_some, hrr, length_putRR, Option.some.injEq, hname, List.length_append,
      List.length_append, hm.wire, hr.wire, hfull] at hshort
    change 3 + 10 + (255 + 255 + 20) = 525 at hshort
    omega

end delegate.dns
