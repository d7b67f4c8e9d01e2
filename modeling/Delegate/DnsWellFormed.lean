-- The replies of `dns_search` are well-formed: the parts of a reply are read
-- back by the scanner of messages, to the last byte.
import Delegate.DnsReply

open reads

namespace delegate.dns

/-! ## Names on the wire -/

/-- The text of a name. -/
def dotted : List Bytes → Bytes
  | [] => []
  | [l] => l
  | l :: m :: ls => l ++ 46 :: dotted (m :: ls)

/-- A name at `sp` of labels with up to 63 bytes, with at most `k` pointers, each to a place
before `ssp`. The text has a dot after each label that is followed by something. -/
inductive Labels (msg : Msg) : (k ssp sp : Nat) → List Bytes → Bytes → (fin : Nat) → Prop
  | last {k ssp sp} : msg sp = 0 → Labels msg k ssp sp [] [] (sp + 1)
  | label {k ssp sp ls text fin} (l : Bytes) : l ≠ [] → l.length ≤ 63 →
      At msg sp (UInt8.ofNat l.length :: l) →
      Labels msg k ssp (sp + 1 + l.length) ls text fin →
      Labels msg k ssp sp (l :: ls)
        (l ++ (if msg (sp + 1 + l.length) ≠ 0 then [46] else []) ++ text) fin
  | pointer {k ssp sp ls text fin} : msg sp &&& 0xC0 = 0xC0 →
      pointerOff (msg sp) (msg (sp + 1)) < ssp →
      Labels msg k (pointerOff (msg sp) (msg (sp + 1))) (pointerOff (msg sp) (msg (sp + 1))) ls text
        fin →
      Labels msg (k + 1) ssp sp ls text (sp + 2)

theorem len_bits : ∀ n ≤ 63, n ≠ 0 → UInt8.ofNat n ≠ 0 ∧ UInt8.ofNat n &&& 0xC0 = 0 ∧
    (UInt8.ofNat n).toNat = n := by
  decide +kernel

section Labels
variable {msg : Msg} {k ssp sp fin : Nat} {ls : List Bytes} {text : Bytes}

/-- At a zero there is the root, and no label before it. -/
theorem Labels.nil (h : Labels msg k ssp sp ls text fin) (h0 : msg sp = 0) : ls = [] ∧ text = [] := by
  cases h with
  | last _ => exact ⟨rfl, rfl⟩
  | label l hne hle hat _ =>
    have hlen := (at_cons.mp hat).1
    rw [h0] at hlen
    exact absurd hlen.symm (len_bits l.length hle (by simpa using hne)).1
  | pointer hp _ _ => exact absurd h0 (pointer_bits hp).1

/-- `scanName` reads the name if the buffer has room for the text and two more bytes. -/
theorem Labels.scan {room : Nat} (h : Labels msg k ssp sp ls text fin) (hssp : ssp ≤ sp)
    (hroom : text.length + 2 ≤ room) :
    (scanLabels msg (scanName msg k) ssp sp room).val = (fin, text) := by
  induction h generalizing room with
  | last h0 =>
    rw [scanLabels]
    simp [h0]
  | @label k ssp sp ls text fin l hne hle hat _ ih =>
    obtain ⟨hlen, hl⟩ := at_cons.mp hat
    obtain ⟨h0, hp, hnat⟩ := len_bits l.length hle (by simpa using hne)
    rw [scanLabels, val_bind, val_peek, hlen, if_neg h0, if_neg (not_not.mpr hp), hnat]
    simp only [List.length_append] at hroom
    rw [dif_neg (by omega), val_bind, at_iff_span.mp hl, val_bind, val_peek, val_bind]
    rw [ih (by omega) (by omega)]
    simp
  | @pointer k ssp sp ls text fin hp hoff _ ih =>
    have hne := pointer_bits hp
    rw [scanLabels, val_bind, val_peek, if_neg hne.1, if_pos hne.2, if_neg (not_not.mpr hp), val_bind,
      val_peek]
    dsimp only
    rw [if_neg (by omega), if_neg (by omega), val_bind, scanName_room (by omega), ih le_rfl hroom]
    rfl

/-- Labels as they stand on the wire. -/
def LabelsOk (ls : List Bytes) : Prop := ∀ l ∈ ls, l ≠ [] ∧ l.length ≤ 63

instance (ls : List Bytes) : Decidable (LabelsOk ls) :=
  inferInstanceAs (Decidable (∀ l ∈ ls, l ≠ [] ∧ l.length ≤ 63))

theorem labels_wire {p : Nat} (hok : LabelsOk ls)
    (h : At msg p (wire ls)) :
    Labels msg k ssp p ls (dotted ls) (p + (wire ls).length) := by
  induction ls generalizing p with
  | nil => exact .last (at_cons.mp h).1
  | cons l ls ih =>
    obtain ⟨hne, hle⟩ := hok l List.mem_cons_self
    rw [wire_cons, ← List.cons_append, at_append, List.length_cons] at h
    obtain ⟨hl, hrest⟩ := h
    have hp : p + (l.length + 1) = p + 1 + l.length := by omega
    rw [hp] at hrest
    have hlabels := ih (fun m hm => hok m (List.mem_cons_of_mem _ hm)) hrest
    have hfin : p + (wire (l :: ls)).length = p + 1 + l.length + (wire ls).length := by
      rw [wire_cons, List.length_cons, List.length_append]
      omega
    rw [hfin]
    have hlabel := Labels.label l hne hle hl hlabels
    have htext : l ++ (if msg (p + 1 + l.length) ≠ 0 then [46] else []) ++ dotted ls =
        dotted (l :: ls) := by
      cases ls with
      | nil => simp [(at_cons.mp hrest).1, dotted]
      | cons m ls =>
        obtain ⟨hmne, hmle⟩ := hok m (List.mem_cons_of_mem _ List.mem_cons_self)
        rw [wire_cons] at hrest
        have hnext := (at_cons.mp hrest).1
        rw [if_pos (by rw [hnext]; exact (len_bits m.length hmle (by simpa using hmne)).1)]
        simp [dotted]
    rwa [htext] at hlabel

theorem takeWhile_label {l t : Bytes} (h : (46 : Octet) ∉ l) :
    (l ++ 46 :: t).takeWhile (· != 46) = l := by
  rw [List.takeWhile_append_of_pos]
  · simp
  · intro a ha
    have hne : a ≠ 46 := fun he => h (he ▸ ha)
    simpa using hne

theorem putName_last {l : Bytes} (hne : l ≠ []) (hle : l.length ≤ 63) (h : (46 : Octet) ∉ l) :
    putName l = UInt8.ofNat l.length :: (l ++ [0]) := by
  obtain ⟨c, np, rfl⟩ := List.exists_cons_of_ne_nil hne
  have hc : c ≠ 46 := fun he => h (he ▸ List.mem_cons_self)
  have hall : (c :: np).takeWhile (· != 46) = c :: np := by
    rw [List.takeWhile_eq_self_iff]
    intro a ha
    have hne : a ≠ 46 := fun he => h (he ▸ ha)
    simpa using hne
  rw [putName, if_neg hc]
  dsimp only
  rw [hall, List.take_of_length_le hle, if_pos List.drop_length]
  rfl

theorem putName_label {l : Bytes} (hne : l ≠ []) (hle : l.length ≤ 63) (h : (46 : Octet) ∉ l)
    (t : Bytes) : putName (l ++ 46 :: t) = UInt8.ofNat l.length :: (l ++ putName t) := by
  obtain ⟨c, np, rfl⟩ := List.exists_cons_of_ne_nil hne
  have hc : c ≠ 46 := fun he => h (he ▸ List.mem_cons_self)
  have htake := @takeWhile_label (c :: np) t h
  rw [List.cons_append] at htake ⊢
  rw [putName, if_neg hc]
  dsimp only
  rw [htake, List.take_of_length_le hle, ← List.cons_append, List.drop_left, if_neg (by simp)]
  simp

/-- What `putName` writes for the text of a name that was read. -/
theorem Labels.putName (h : Labels msg k ssp sp ls text fin) (hdot : ∀ l ∈ ls, (46 : Octet) ∉ l) :
    dns.putName text = wire ls := by
  induction h with
  | last _ => rw [dns.putName]; rfl
  | pointer _ _ _ ih => exact ih hdot
  | @label k ssp sp ls text fin l hne hle hat hrest ih =>
    have hl := hdot l List.mem_cons_self
    have ih := ih fun m hm => hdot m (List.mem_cons_of_mem _ hm)
    rw [wire_cons]
    by_cases h0 : msg (sp + 1 + l.length) = 0
    · -- the name ends here
      have hnil := hrest.nil h0
      rw [hnil.1, hnil.2, if_neg (not_not.mpr h0), List.append_nil, List.append_nil,
        putName_last hne hle hl]
      rfl
    · rw [if_pos h0, List.append_assoc, List.singleton_append, putName_label hne hle hl, ih]

theorem Labels.ok (h : Labels msg k ssp sp ls text fin) : LabelsOk ls := by
  induction h with
  | last _ => exact fun _ h => absurd h List.not_mem_nil
  | label l hne hle _ _ ih =>
    intro m hm
    rcases List.mem_cons.mp hm with rfl | hm
    · exact ⟨hne, hle⟩
    · exact ih m hm
  | pointer _ _ _ ih => exact ih

theorem Labels.zero (h : Labels msg k ssp sp ls text fin) (hzero : ∀ l ∈ ls, (0 : Octet) ∉ l) :
    (0 : Octet) ∉ text := by
  induction h with
  | last _ => exact List.not_mem_nil
  | label l _ _ _ _ ih =>
    have hl := hzero l List.mem_cons_self
    have ih := ih fun m hm => hzero m (List.mem_cons_of_mem _ hm)
    rw [List.mem_append, List.mem_append]
    rintro ((h | h) | h)
    · exact hl h
    · split at h
      · cases List.mem_singleton.mp h
      · exact absurd h List.not_mem_nil
    · exact ih h
  | pointer _ _ _ ih => exact ih hzero

theorem Labels.dotted (h : Labels msg k ssp sp ls text fin) :
    (dns.dotted ls).length ≤ text.length := by
  induction h with
  | last _ => exact le_rfl
  | pointer _ _ _ ih => exact ih
  | @label k ssp sp ls text fin l hne hle hat hrest ih =>
    cases ls with
    | nil => simp [dns.dotted]
    | cons m ls =>
      have hnext : msg (sp + 1 + l.length) ≠ 0 := fun h0 => by cases (hrest.nil h0).1
      simp only [dns.dotted, if_pos hnext, List.length_append, List.length_cons] at ih ⊢
      simp only [List.length_nil]
      omega

end Labels

/-- All names that are written are labels on the wire. -/
theorem putName_wire (t : Bytes) :
    ∃ ls, putName t = wire ls ∧ LabelsOk ls ∧ (dotted ls).length ≤ t.length := by
  induction t using putName.induct with
  | case1 => exact ⟨[], by rw [putName]; rfl, fun _ h => absurd h List.not_mem_nil, le_rfl⟩
  | case2 np =>
    exact ⟨[], by rw [putName, if_pos rfl]; rfl, fun _ h => absurd h List.not_mem_nil, Nat.zero_le _⟩
  | case3 c np hc label ih =>
    obtain ⟨ls, hls, hok, hlen⟩ := ih
    have hlabel : label ≠ [] ∧ label.length ≤ 63 ∧ label.length ≤ (c :: np).length := by
      have hhead : (c != 46) = true := by simpa using hc
      refine ⟨?_, List.length_take_le _ _, ?_⟩
      · simp [label, hhead]
      · have hsub : label.Sublist (c :: np) :=
          (List.take_sublist 63 _).trans (List.takeWhile_sublist _)
        exact hsub.length_le
    by_cases hend : (c :: np).drop label.length = []
    · refine ⟨[label], ?_, fun l hl => ?_, ?_⟩
      · rw [putName, if_neg hc]
        dsimp only
        rw [if_pos hend, wire_cons]
        rfl
      · rw [List.mem_singleton.mp hl]
        exact ⟨hlabel.1, hlabel.2.1⟩
      · exact hlabel.2.2
    · refine ⟨label :: ls, ?_, ?_, ?_⟩
      · rw [putName, if_neg hc]
        dsimp only
        rw [if_neg hend, hls, wire_cons]
        rfl
      · intro l hl
        rcases List.mem_cons.mp hl with rfl | hl
        · exact ⟨hlabel.1, hlabel.2.1⟩
        · exact hok l hl
      · have hrest : (c :: np).length - label.length ≠ 0 := by
          rw [← List.length_drop]
          exact fun h => hend (List.eq_nil_of_length_eq_zero h)
        rw [List.length_drop] at hlen
        cases ls with
        | nil => exact hlabel.2.2
        | cons m ls =>
          simp only [dotted, List.length_append, List.length_cons] at hlen hrest ⊢
          omega

/-! ## Numbers and records -/

theorem short_putShort {msg : Msg} {p v : Nat} (h : At msg p (putShort v)) :
    short msg p = v % 65536 := by
  obtain ⟨h0, h1⟩ := at_cons.mp h
  obtain ⟨h1, -⟩ := at_cons.mp h1
  unfold short
  rw [h0, h1, UInt8.toNat_ofNat', UInt8.toNat_ofNat', Nat.shiftRight_eq_div_pow]
  omega

/-- The bytes are a record of a type that `dumpResourceRecord` knows, for a name that it has room
for. -/
def IsRecord (b : Bytes) : Prop :=
  ∃ name type ttl data, b = putRR name type ttl data ∧ name.length ≤ 510 ∧ type < 65536 ∧
    knownType type CL_IN = true

theorem IsRecord.length {b : Bytes} (h : IsRecord b) : 10 < b.length := by
  obtain ⟨name, type, ttl, data, rfl, -, -, -⟩ := h
  obtain ⟨ls, hls, -, -⟩ := putName_wire name
  unfold putRR
  rw [hls]
  simp only [List.length_append, length_putShort, length_putLong, wire, List.length_singleton]
  omega

/-- `dumpResourceRecord` reads a record to its end. -/
theorem IsRecord.dump {b : Bytes} (h : IsRecord b) {msg : Msg} {size p : Nat} (hat : At msg p b)
    (hp : p < size) (hlen : b.length < 65536) :
    (dumpResourceRecord msg size p).val.map Prod.fst = some (p + b.length) := by
  obtain ⟨name, type, ttl, data, rfl, hname, htype, hknown⟩ := h
  obtain ⟨ls, hls, hok, hdotted⟩ := putName_wire name
  unfold putRR at hat hlen ⊢
  rw [hls] at hat hlen ⊢
  simp only [at_append, List.length_append, length_putShort, length_putLong] at hat hlen ⊢
  obtain ⟨⟨⟨⟨⟨hwire, ht⟩, hc⟩, -⟩, hl⟩, -⟩ := hat
  have hscan : (scanNameAt msg p 512).val = (p + (wire ls).length, dotted ls) := by
    unfold scanNameAt
    rw [scanName_room (by decide)]
    exact (labels_wire hok hwire).scan le_rfl (by omega)
  have htype' := short_putShort ht
  have hclass := short_putShort hc
  have hlength := short_putShort hl
  rw [Nat.mod_eq_of_lt htype] at htype'
  rw [Nat.mod_eq_of_lt (by omega)] at hlength
  unfold dumpResourceRecord
  rw [if_neg (not_le.mpr hp)]
  simp only [val_bind, val_getShort, hscan]
  have h2 : p + (wire ls).length + 2 = p + ((wire ls).length + 2) := by omega
  have h8 : p + (wire ls).length + 8 = p + ((wire ls).length + 2 + 2 + 4) := by omega
  rw [htype', h2, hclass, h8, hlength]
  unfold dumpRData
  rw [if_pos (by exact hknown)]
  simp only [val_bind, val_pure, Option.map_some]
  congr 1
  omega

/-- `n` records from `p` on, as `dumpResourceRecord` reads them. -/
def parseRecords (msg : Msg) (size : Nat) : Nat → Nat → Option Nat
  | 0, p => some p
  | n + 1, p => (dumpResourceRecord msg size p).val.bind fun r => parseRecords msg size n r.1

theorem parseRecords_flatten {msg : Msg} {size : Nat} {recs : List Bytes} {p : Nat}
    (hrecs : ∀ b ∈ recs, IsRecord b) (hat : At msg p recs.flatten)
    (hsize : p + recs.flatten.length ≤ size) (hlen : recs.flatten.length < 65536) :
    parseRecords msg size recs.length p = some (p + recs.flatten.length) := by
  induction recs generalizing p with
  | nil => rfl
  | cons b recs ih =>
    have hb := hrecs b List.mem_cons_self
    have hblen := hb.length
    rw [List.flatten_cons, at_append] at hat
    rw [List.flatten_cons, List.length_append] at hsize hlen ⊢
    have hdump := @IsRecord.dump b hb msg size p hat.1 (by omega) (by omega)
    obtain ⟨r, hr, hfst⟩ := Option.map_eq_some_iff.mp hdump
    have hrest := ih (fun c hc => hrecs c (List.mem_cons_of_mem _ hc)) hat.2 (by omega) (by omega)
    rw [List.length_cons, parseRecords, hr, Option.bind_some, hfst, hrest, Nat.add_assoc]

/-! ## What the calls put -/

/-- As many records as are counted. -/
def Built (o : Out) : Prop := o.anc = o.rrs.length ∧ ∀ r ∈ o.rrs, IsRecord r.bytes

theorem built_none : Built {} := ⟨rfl, fun _ h => absurd h List.not_mem_nil⟩

theorem Built.none {o : Out} (h : Built o) (hanc : o.anc = 0) : o.rrs = [] :=
  List.eq_nil_of_length_eq_zero (h.1.symm.trans hanc)

theorem Built.next {a b : Out} (ha : Built a) (hb : Built b) : Built (a.next b) := by
  obtain ⟨hanc, has⟩ := ha
  obtain ⟨hbnc, hbs⟩ := hb
  constructor
  · simp [Out.next, hanc, hbnc]
  · intro r hr
    rcases List.mem_append.mp hr with hr | hr
    · exact has r hr
    · exact hbs r hr

theorem built_outs {l : List Out} (h : ∀ o ∈ l, Built o) : Built (outs l) := by
  induction l with
  | nil => exact built_none
  | cons o l ih =>
    exact (h o List.mem_cons_self).next (ih fun o ho => h o (List.mem_cons_of_mem _ ho))

theorem built_record {name : Bytes} {type : Nat} {ttl : UInt32} {data : Bytes} {o : Out}
    (hanc : o.anc = 1) (hrr : o.rrs = [⟨name, type, ttl, data⟩]) (hname : name.length ≤ 510)
    (htype : type < 65536) (hknown : knownType type CL_IN = true) : Built o := by
  constructor
  · rw [hanc, hrr, List.length_singleton]
  · intro r hr
    rw [hrr, List.mem_singleton] at hr
    subst hr
    exact ⟨name, type, ttl, data, rfl, hname, htype, hknown⟩

/-- The bytes of each record. -/
theorem Built.recs {o : Out} (h : Built o) :
    ∃ recs : List Bytes, o.anc = recs.length ∧ o.rr = recs.flatten ∧ ∀ b ∈ recs, IsRecord b := by
  refine ⟨o.rrs.map PutRR.bytes, ?_, rfl, ?_⟩
  · rw [h.1, List.length_map]
  · intro b hb
    obtain ⟨r, hr, rfl⟩ := List.mem_map.mp hb
    exact h.2 r hr

section Calls
variable {σ α β : Type} {L : Lookups σ} {cf : Conf}

/-- The value of a call has a property, in every state. -/
def Gives (P : α → Prop) (m : StateM σ α) : Prop := ∀ s, P (m s).1

theorem gives_pure {P : α → Prop} {a : α} (h : P a) : Gives P (pure a : StateM σ α) := fun _ => h

theorem gives_bind {P : α → Prop} {Q : β → Prop} {m : StateM σ α} {f : α → StateM σ β}
    (hm : Gives P m) (hf : ∀ a, P a → Gives Q (f a)) : Gives Q (m >>= f) :=
  fun s => hf (m s).1 (hm s) (m s).2

/-- A call whose value may be anything. -/
theorem gives_any (m : StateM σ α) : Gives (fun _ => True) m := fun _ => trivial

variable {name : Bytes}

theorem putRR_A_built (hname : name.length ≤ 510) : Gives Built (putRR_A L cf name) := by
  unfold putRR_A
  refine gives_bind (gives_any _) fun ht _ => ?_
  cases ht with
  | none => exact gives_pure built_none
  | some ht =>
    dsimp only
    split
    · exact gives_pure built_none
    · apply gives_pure (built_outs _)
      intro o ho
      obtain ⟨a, -, rfl⟩ := List.mem_map.mp ho
      exact built_record rfl rfl hname (by decide) rfl

theorem putRR_AAAA_built (hname : name.length ≤ 510) : Gives Built (putRR_AAAA L cf name) := by
  unfold putRR_AAAA
  refine gives_bind (gives_any _) fun ht _ => ?_
  cases ht with
  | none => exact gives_pure built_none
  | some ht =>
    apply gives_pure (built_outs _)
    intro o ho
    obtain ⟨a, -, rfl⟩ := List.mem_map.mp ho
    exact built_record rfl rfl hname (by decide) rfl

theorem putMXs_built (hname : name.length ≤ 510) (btype : AF) (baddrs : List Bytes) :
    Gives Built (putMXs L cf name btype baddrs) := by
  induction baddrs with
  | nil => exact gives_pure built_none
  | cons baddr baddrs ih =>
    unfold putMXs
    refine gives_bind (gives_any _) fun ht _ => ?_
    cases ht with
    | none => exact ih
    | some ht =>
      refine gives_bind (gives_any _) fun s _ => ?_
      refine gives_bind ih fun rest hrest => gives_pure ?_
      exact Built.next (built_record rfl rfl hname (by decide) rfl) hrest

theorem putRR_name_built (hname : name.length ≤ 510) (ht : Hostent) {type : Nat}
    (htype : type = TY_MX ∨ type = TY_PTR) : Gives Built (putRR_name L cf ht type name) := by
  unfold putRR_name
  split
  · exact putMXs_built hname _ _
  · rename_i hmx
    rw [htype.resolve_left hmx]
    refine gives_bind (gives_any _) fun s _ => ?_
    exact gives_pure (built_record rfl rfl hname (by decide) rfl)

theorem relayOne_built (hname : name.length ≤ 510) (qtype : Nat) (s : σ) (a : Cached) :
    Built (relayOne L cf name qtype s a) := by
  have htype : a.type < 65536 := (UInt8.toNat_lt _).trans (by decide)
  unfold relayOne
  split
  · exact built_none
  split
  · exact built_record rfl rfl hname htype a.known
  · exact built_record rfl rfl hname htype a.known

theorem relay_cachedRR_built (hname : name.length ≤ 510) (qtype : Nat) :
    Gives Built (relay_cachedRR L cf name qtype) := by
  unfold relay_cachedRR
  refine gives_bind (gives_any _) fun s _ => ?_
  dsimp only
  split
  · exact gives_pure built_none
  · apply gives_pure (built_outs _)
    intro o ho
    obtain ⟨a, -, rfl⟩ := List.mem_map.mp ho
    exact relayOne_built hname qtype s a

theorem length_serviceDomain (name : Bytes) : (serviceDomain name).length ≤ name.length := by
  induction name using serviceDomain.induct with
  | case1 => rw [serviceDomain]
  | case2 hp hdot ih =>
    rw [serviceDomain, if_pos rfl, if_pos hdot]
    have hdrop := (List.dropWhile_suffix (l := 95 :: hp) (· != 46)).length_le
    rw [List.length_drop] at ih
    omega
  | case3 hp hdot => rw [serviceDomain, if_pos rfl, if_neg hdot]
  | case4 c hp hc => rw [serviceDomain, if_neg hc]

theorem relayService_built (hname : name.length ≤ 510) (qtype : Nat) :
    Gives Built (relayService L cf name qtype) := by
  have hservice := length_serviceDomain name
  unfold relayService
  split
  · exact relay_cachedRR_built (by omega) qtype
  · exact gives_pure built_none

theorem relay_cachedRRs_built (hname : name.length ≤ 510) (qtype : Nat) :
    Gives Built (relay_cachedRRs L cf name qtype) := by
  unfold relay_cachedRRs
  refine gives_bind (relay_cachedRR_built hname qtype) fun r hr => ?_
  split
  · exact gives_pure hr
  refine gives_bind (relayService_built hname qtype) fun r hr => ?_
  split
  · exact gives_pure hr
  refine gives_bind (gives_any _) fun s _ => ?_
  dsimp only
  split
  · have hdom := List.length_take_le 127 (L.LastSOAdom s)
    exact relay_cachedRR_built (by omega) qtype
  · exact gives_pure built_none

theorem ownSOA_built : Gives Built (ownSOA L cf name) := by
  unfold ownSOA
  refine gives_bind (gives_any _) fun ht _ => ?_
  have hdomain := cf.domain
  cases ht with
  | none => exact gives_pure built_none
  | some ht =>
    refine gives_bind (gives_any _) fun s _ => ?_
    exact gives_pure (built_record rfl rfl (by omega) (by decide) rfl)

theorem putRR_SOA_built (hname : name.length ≤ 510) : Gives Built (putRR_SOA L cf name) := by
  unfold putRR_SOA
  split
  · exact ownSOA_built
  refine gives_bind (gives_any _) fun s _ => ?_
  split
  · refine gives_bind (gives_any _) fun _ _ => ?_
    refine gives_bind (relay_cachedRRs_built hname _) fun r hr => ?_
    split
    · exact gives_pure hr
    · exact ownSOA_built
  · exact gives_pure built_none

theorem putRR_SRV_built (hname : name.length ≤ 510) : Gives Built (putRR_SRV L cf name) := by
  unfold putRR_SRV
  split
  · exact gives_pure built_none
  refine gives_bind (gives_any _) fun s _ => ?_
  split
  · exact gives_bind (gives_any _) fun _ _ => relay_cachedRRs_built hname _
  · exact gives_pure built_none

theorem putRR_MX_built (hname : name.length ≤ 510) : Gives Built (putRR_MX L cf name) := by
  unfold putRR_MX
  refine gives_bind (gives_any _) fun ht _ => ?_
  cases ht with
  | some ht =>
    refine gives_bind (relay_cachedRR_built hname _) fun r hr => ?_
    split
    · exact gives_pure hr
    · exact putRR_name_built hname ht (.inl rfl)
  | none =>
    refine gives_bind (gives_any _) fun ht _ => ?_
    cases ht with
    | none => exact gives_pure built_none
    | some ht => exact putRR_name_built hname ht (.inl rfl)

theorem putRR_PTR_built (hname : name.length ≤ 510) : Gives Built (putRR_PTR L cf name) := by
  unfold putRR_PTR
  split
  swap
  · exact gives_pure built_none
  cases L.VSA_dnstosa name with
  | none => exact gives_pure built_none
  | some sab =>
    refine gives_bind (gives_any _) fun ht _ => ?_
    cases ht with
    | none => exact gives_pure built_none
    | some ht => exact putRR_name_built hname ht (.inr rfl)

theorem putAnswers_built (hname : name.length ≤ 510) (qtype : Nat) :
    Gives Built (putAnswers L cf qtype name) := by
  unfold putAnswers
  split
  · exact putRR_SRV_built hname
  split
  · exact putRR_A_built hname
  split
  · exact putRR_AAAA_built hname
  split
  · exact putRR_PTR_built hname
  split
  · exact putRR_MX_built hname
  split
  · refine gives_bind (putRR_A_built hname) fun a ha => ?_
    refine gives_bind (putRR_AAAA_built hname) fun aaaa haaaa => ?_
    refine gives_bind (putRR_MX_built hname) fun mx hmx => ?_
    refine gives_bind (putRR_SOA_built hname) fun soa hsoa => ?_
    refine gives_bind (putRR_PTR_built hname) fun ptr hptr => gives_pure (built_outs ?_)
    intro o ho
    simp only [List.mem_cons, List.not_mem_nil, or_false] at ho
    rcases ho with rfl | rfl | rfl | rfl | rfl
    · exact ha
    · exact haaaa
    · exact hmx
    · exact hsoa
    · exact hptr
  · exact gives_pure built_none

theorem putAuthority_built (hname : name.length ≤ 510) (qtype anc : Nat) :
    Gives Built (putAuthority L cf qtype anc name) := by
  unfold putAuthority
  refine gives_bind (gives_any _) fun s _ => ?_
  split
  · exact putRR_SOA_built hname
  · exact gives_pure built_none

/-! ## Whole replies -/

/-- What the scanner finds in a reply of `rleng` bytes to a query for the name of the labels `ls`,
which ends before `fin`. -/
structure Parsed (query : Msg) (ls : List Bytes) (fin : Nat) (msg : Msg) (rleng : Nat) : Prop where
  id : (scanHeader msg).val.id = short query 0
  qr : H_QR (scanHeader msg).val.M = 1
  opcode : H_OPCODE (scanHeader msg).val.M = H_OPCODE (short query 2)
  qdcount : (scanHeader msg).val.qdcount = 1
  arcount : (scanHeader msg).val.arcount = 0
  name : At msg 12 (wire ls)
  question : (scanQuery msg 12 512).val =
    (12 + (wire ls).length + 4, ⟨dotted ls, short query fin, short query (fin + 2)⟩)
  records : ∃ mid,
    parseRecords msg rleng (scanHeader msg).val.ancount (12 + (wire ls).length + 4) = some mid ∧
      parseRecords msg rleng (scanHeader msg).val.nscount mid = some rleng
  rcode : H_RCODE (scanHeader msg).val.M ≠ 0 → (scanHeader msg).val.ancount = 0

/-- The records and their data fit in the buffers, and the reply in its buffer of `size`. -/
def Reply.Fits (size : Nat) (r : Reply) : Prop :=
  r.RRbuf ≤ 2048 ∧ r.rbuff ≤ 512 ∧ r.reply.length ≤ size

theorem replyFlags_spec {QM anc : Nat} {unknown isauth proxy : Bool} (hop : H_OPCODE QM < 2) :
    replyFlags QM unknown isauth false proxy anc < 65536 ∧
      H_QR (replyFlags QM unknown isauth false proxy anc) = 1 ∧
      H_OPCODE (replyFlags QM unknown isauth false proxy anc) = H_OPCODE QM ∧
      (H_RCODE (replyFlags QM unknown isauth false proxy anc) ≠ 0 → anc = 0) := by
  have hrd : H_RD QM < 2 := by
    have hle : QM &&& 0x0100 ≤ 0x0100 := Nat.and_le_right
    unfold H_RD
    rw [Nat.shiftRight_eq_div_pow]
    omega
  have hops : H_OPCODE QM = 0 ∨ H_OPCODE QM = 1 := by omega
  have hrds : H_RD QM = 0 ∨ H_RD QM = 1 := by omega
  unfold replyFlags
  dsimp only
  by_cases hanc : anc = 0
  · simp only [hanc, implies_true, and_true]
    rcases hops with h | h <;> rcases hrds with h' | h' <;> rw [h, h'] <;> cases unknown <;>
      cases isauth <;> cases proxy <;> decide
  · simp only [hanc, imp_false, not_not]
    rcases hops with h | h <;> rcases hrds with h' | h' <;> rw [h, h'] <;> cases unknown <;>
      cases isauth <;> cases proxy <;> decide

/-- The parts of a reply to a query with an opcode below 2. -/
theorem dns_search_parts (query : Msg) (hqr : H_QR (short query 2) = 0)
    (hop : H_OPCODE (short query 2) < 2)
    (hname : (cstr (scanQuery query 12 512).val.2.name).length ≤ 510) :
    Gives (fun r => ∃ found an ns probes unknown isauth proxy, Built an ∧ Built ns ∧
      r = putResp found (scanHeader query).val (cstr (scanQuery query 12 512).val.2.name)
        (scanQuery query 12 512).val.2.type (scanQuery query 12 512).val.2.xclass
        (replyFlags (short query 2) unknown isauth false proxy an.anc) an ns probes)
      (dns_search L cf query) := by
  have hM : (scanHeader query).val.M = short query 2 := rfl
  unfold dns_search
  dsimp only
  rw [hM, if_neg (not_not.mpr hqr)]
  refine gives_bind (gives_any _) fun _ _ => ?_
  rw [if_neg (not_le.mpr hop)]
  refine gives_bind (putAnswers_built hname _) fun an han => ?_
  refine gives_bind (putAuthority_built hname _ _) fun ns hns => ?_
  refine gives_bind (gives_any _) fun pr _ => ?_
  refine gives_bind (gives_any _) fun s _ => ?_
  refine gives_bind (gives_any _) fun s' _ => gives_pure ?_
  exact ⟨L.RRbuf s', an, ns, pr.2, pr.1, _, _, han, hns, rfl⟩

theorem short_lt (msg : Msg) (p : Nat) : short msg p < 65536 := by
  have hhi := UInt8.toNat_lt (msg p)
  have hlo := UInt8.toNat_lt (msg (p + 1))
  unfold short
  omega

theorem length_recs {recs : List Bytes} (h : ∀ b ∈ recs, IsRecord b) :
    recs.length ≤ recs.flatten.length := by
  induction recs with
  | nil => exact le_rfl
  | cons b recs ih =>
    have hb := (h b List.mem_cons_self).length
    have := ih fun c hc => h c (List.mem_cons_of_mem _ hc)
    simp only [List.length_cons, List.flatten_cons, List.length_append]
    omega

/-- The records of two calls that have room in `RRbuf`. -/
theorem put_outs {found : Put → Bytes} {an ns : Out} (h : (an.rr ++ ns.rr).length ≤ 2048) :
    putRRs 2048 found [] (an.rrs ++ ns.rrs) = an.rr ++ ns.rr := by
  have hrr : (an.rrs ++ ns.rrs).flatMap PutRR.bytes = an.rr ++ ns.rr := List.flatMap_append
  rw [putRRs_room (by rwa [hrr, List.length_nil, Nat.zero_add]), hrr, List.nil_append]

/-- How much of `RRbuf` the records take. -/
theorem length_put_outs {found : Put → Bytes} (an ns probes : Out) {n : Nat} (hn : n ≤ 2048) :
    (putRRs 2048 found (putRRs 2048 found [] (an.rrs ++ ns.rrs)) probes.rrs).length ≤ n ↔
      an.rr.length + ns.rr.length + probes.rr.length ≤ n := by
  rw [← putRRs_append, length_putRRs_le_iff hn, List.flatMap_append, List.flatMap_append,
    List.length_append, List.length_append, List.length_nil, Nat.zero_add]
  rfl

/-- A reply from its parts is read back. -/
theorem parsed_reply {query : Msg} {ls : List Bytes} {fin RM : Nat} {an ns : Out} {rr : Bytes}
    {reply : Bytes} (hok : LabelsOk ls) (hdotted : (dotted ls).length ≤ 510)
    (hRM : RM < 65536 ∧ H_QR RM = 1 ∧ H_OPCODE RM = H_OPCODE (short query 2) ∧
      (H_RCODE RM ≠ 0 → an.anc = 0))
    (han : Built an) (hns : Built ns) (hrr : rr = an.rr ++ ns.rr) (hlen : rr.length ≤ 2048)
    (hreply : reply = putShort (short query 0) ++ putShort RM ++ putShort 1 ++ putShort an.anc ++
      putShort ns.anc ++ putShort 0 ++ (wire ls ++ putShort (short query fin) ++
        putShort (short query (fin + 2))) ++ rr) {msg : Msg} (hat : At msg 0 reply) :
    Parsed query ls fin msg reply.length := by
  obtain ⟨as, hanc, har, has⟩ := han.recs
  obtain ⟨bs, hnsc, hbr, hbs⟩ := hns.recs
  obtain ⟨hRMlt, hqr, hopcode, hrcode⟩ := hRM
  have halen := length_recs has
  have hblen := length_recs hbs
  have hrrlen : rr.length = as.flatten.length + bs.flatten.length := by
    rw [hrr, har, hbr, List.length_append]
  rw [hrr, har, hbr] at hreply
  rw [hreply] at hat
  simp only [at_append, List.length_append, length_putShort] at hat
  obtain ⟨⟨⟨⟨⟨⟨⟨hid, hM⟩, hqd⟩, han'⟩, hns'⟩, har'⟩, ⟨hwire, htype⟩, hclass⟩, hreca, hrecn⟩ := hat
  have hid' := short_putShort hid
  have hM' := short_putShort hM
  have hqd' := short_putShort hqd
  have han'' := short_putShort han'
  have hns'' := short_putShort hns'
  have har'' := short_putShort har'
  have htype' := short_putShort htype
  have hclass' := short_putShort hclass
  rw [Nat.mod_eq_of_lt (short_lt query 0)] at hid'
  rw [Nat.mod_eq_of_lt hRMlt] at hM'
  rw [Nat.mod_eq_of_lt (by omega)] at han'' hns''
  rw [Nat.mod_eq_of_lt (short_lt query _)] at htype' hclass'
  have hpos : 0 + (2 + 2 + 2 + 2 + 2 + 2 + ((wire ls).length + 2 + 2)) =
      12 + ((wire ls).length + 2 + 2) := by omega
  rw [hpos] at hreca hrecn
  have hhead : (scanHeader msg).val = ⟨short query 0, RM, 1, an.anc, ns.anc, 0⟩ := by
    unfold scanHeader
    simp only [val_bind, val_getShort, val_pure]
    rw [hid', hM', hqd', han'', hns'', har'']
  have hfin : 12 + (wire ls).length + 2 = 12 + ((wire ls).length + 2) := by omega
  have hend : 12 + (wire ls).length + 4 = 12 + ((wire ls).length + 2 + 2) := by omega
  have hsize : reply.length =
      12 + ((wire ls).length + 2 + 2) + as.flatten.length + bs.flatten.length := by
    rw [hreply]
    simp only [List.length_append, length_putShort]
    omega
  refine ⟨by rw [hhead], by rw [hhead]; exact hqr, by rw [hhead]; exact hopcode, by rw [hhead],
    by rw [hhead], hwire, ?_, ?_, ?_⟩
  · have hscan : (scanNameAt msg 12 512).val = (12 + (wire ls).length, dotted ls) := by
      unfold scanNameAt
      rw [scanName_room (by decide)]
      exact (labels_wire hok hwire).scan le_rfl (by omega)
    unfold scanQuery
    simp only [val_bind, val_getShort, val_pure, hscan]
    rw [htype', hfin, hclass']
  · rw [hhead, hend, hanc, hnsc]
    refine ⟨_, parseRecords_flatten has hreca (by omega) (by omega), ?_⟩
    rw [hsize]
    exact parseRecords_flatten hbs hrecn (by omega) (by omega)
  · rw [hhead]
    exact hrcode

/-- The reply to a query with one question for a name of up to 510 bytes is well-formed, whatever
the lookups give, if the records fit. -/
theorem dns_search_parsed {σ : Type} (L : Lookups σ) (cf : Conf) (s : σ) (query : Msg)
    (ls : List Bytes) (text : Bytes) (fin size : Nat) (hname : Labels query 31 12 12 ls text fin)
    (hne : ls ≠ []) (hplain : ∀ l ∈ ls, (46 : Octet) ∉ l ∧ (0 : Octet) ∉ l)
    (hlen : text.length ≤ 510) (hqr : H_QR (short query 2) = 0)
    (hop : H_OPCODE (short query 2) < 2) :
    ∃ r, (dns_search L cf query s).1 = some r ∧
      (r.Fits size → ∀ msg, At msg 0 r.reply → Parsed query ls fin msg r.reply.length) := by
  have hscan : (scanNameAt query 12 512).val = (fin, text) := by
    unfold scanNameAt
    rw [scanName_room (by decide)]
    exact hname.scan le_rfl (by omega)
  have hquery : (scanQuery query 12 512).val.2 = ⟨text, short query fin, short query (fin + 2)⟩ := by
    unfold scanQuery
    simp only [val_bind, val_getShort, val_pure, hscan]
  have hcstr : cstr text = text := by
    unfold cstr
    rw [List.takeWhile_eq_self_iff]
    intro c hc
    have hzero := hname.zero fun l hl => (hplain l hl).2
    have hne : c ≠ 0 := fun he => hzero (he ▸ hc)
    simpa using hne
  have hput := hname.putName fun l hl => (hplain l hl).1
  have hnot : wire ls ≠ [0] := by
    obtain ⟨l, rest, rfl⟩ := List.exists_cons_of_ne_nil hne
    intro h
    rw [wire_cons, List.cons.injEq, List.append_eq_nil_iff] at h
    exact (hname.ok l List.mem_cons_self).1 h.2.1
  have hparts := @dns_search_parts σ L cf query hqr hop (by rw [hquery, hcstr]; exact hlen) s
  obtain ⟨found, an, ns, probes, unknown, isauth, proxy, han, hns, hr⟩ := hparts
  rw [hquery, hcstr] at hr
  unfold putResp makeQuestion at hr
  rw [hput, if_neg hnot, Option.some_or] at hr
  refine ⟨_, hr, ?_⟩
  rintro ⟨hRRbuf, -, -⟩ msg hat
  dsimp only at hRRbuf
  rw [length_put_outs an ns probes le_rfl] at hRRbuf
  have hrr : (if an.anc ≠ 0 ∨ ns.anc ≠ 0 then putRRs 2048 found [] (an.rrs ++ ns.rrs) else []) =
      an.rr ++ ns.rr := by
    split
    · exact put_outs (by rw [List.length_append]; omega)
    · rename_i h
      obtain ⟨ha, hn⟩ := not_or.mp h
      unfold Out.rr
      rw [han.none (not_not.mp ha), hns.none (not_not.mp hn)]
      rfl
  exact parsed_reply hname.ok (hname.dotted.trans hlen) (replyFlags_spec hop) han hns hrr
    (by rw [hrr, List.length_append]; omega) rfl hat

end Calls

/-- A query of type A for a name. -/
def queryFor (ls : List Bytes) : Msg := fun i =>
  ([0, 7, 1, 0, 0, 1, 0, 0, 0, 0, 0, 0] ++ wire ls ++ [0, 1, 0, 1]).getD i 0

/-- Every host has the same address, and there is nothing in the cache. -/
def oneHost : Lookups Unit where
  gethostbyNX name _ := pure (some ⟨name, .inet, 4, [[10, 0, 0, 5]], by simp⟩)
  GETHOSTBYADDR _ _ := pure none
  getRRbynameaddr _ _ := pure ()
  DNS_getbyname _ _ := 0
  DNS_getattr _ _ _ := []
  DNS_nodename _ _ := []
  LastSOAdom _ := []
  RES_CACHED_UNKNOWN _ := false
  clearUnknown s := s
  RES_proxy _ := true
  VSA_dnstosa _ := none
  rbuff _ _ := []
  RRbuf _ _ := []

def plainConf : Conf := ⟨ascii "example", [], [], none, 1, 2, 3, 4, 5, by decide⟩

theorem dns_search_parsed_one :
    ∃ r, (dns_search oneHost plainConf (queryFor [[97], [98]]) ()).1 = some r ∧
      (r.Fits 512 → ∀ msg, At msg 0 r.reply →
        Parsed (queryFor [[97], [98]]) [[97], [98]] 17 msg r.reply.length) := by
  have hat : At (queryFor [[97], [98]]) 12 (wire [[97], [98]]) := by
    rw [at_iff_span]
    rfl
  exact dns_search_parsed oneHost plainConf () (queryFor [[97], [98]]) [[97], [98]] [97, 46, 98] 17
    512 (labels_wire (by decide) hat) (by decide) (by decide) (by decide) (by decide)
    (by decide)

/-- Nine labels of 63 bytes. -/
def longLabels : List Bytes := List.replicate 9 (List.replicate 63 97)

/-- A query of type A for the nine labels. -/
def longQuery : Msg := fun i =>
  if i < 12 ∨ 588 ≤ i then if i = 590 ∨ i = 592 then 1 else 0
  else if (i - 12) % 64 = 0 then 63
  else 97

/-- No host is found. -/
def noHost : Lookups Unit := { oneHost with gethostbyNX := fun _ _ => pure none }

/-- The seven labels that are read. -/
def cutText : Bytes := (List.replicate 7 (List.replicate 63 97 ++ [46])).flatten

theorem cutText_auth : plainConf.DNS_DOMAIN.isSuffixOf cutText = false := by decide +kernel

/-- Nothing is known of the seven labels. -/
theorem cutText_unknown :
    putAnswers noHost plainConf 24929 cutText = pure {} ∧
      putAuthority noHost plainConf 24929 0 cutText = pure {} ∧
      probe noHost plainConf 24929 0 0 cutText = pure (true, {}) := by
  refine ⟨rfl, ?_, ?_⟩
  · unfold putAuthority putRR_SOA
    rw [cutText_auth]
    rfl
  · have hptr : (strcasestr cutText (ascii "IN-ADDR.ARPA") ||
        strcasestr cutText (ascii ".IP6.INT")) = false := by decide +kernel
    unfold probe putRR_PTR
    rw [hptr]
    rfl

/-- The buffer for the name is too small for the labels: the reply is for another name. -/
theorem long_name_cut :
    (LabelsOk longLabels ∧ At longQuery 12 (wire longLabels)) ∧
      (dns_search noHost plainConf longQuery ()).1.map
        (fun r => (r.reply.length, r.RRbuf, r.rbuff)) = some (465, 0, 0) ∧
      465 < 12 + (wire longLabels).length := by
  have hquery : (scanQuery longQuery 12 512).val.2 = ⟨cutText, 24929, 24929⟩ := by decide +kernel
  have hcstr : cstr cutText = cutText := by decide +kernel
  have hput : (putName cutText).length = 449 := by decide +kernel
  have hne : putName cutText ≠ [0] := by
    intro h
    rw [h] at hput
    cases hput
  refine ⟨⟨by decide, ?_⟩, ?_, ?_⟩
  · rw [at_iff_span]
    decide +kernel
  · obtain ⟨hans, hauth, hprobe⟩ := cutText_unknown
    have hrun : ∃ RM, (dns_search noHost plainConf longQuery ()).1 =
        putResp (noHost.RRbuf ()) (scanHeader longQuery).val cutText 24929 24929 RM {} {} {} := by
      unfold dns_search
      simp only [hquery, hcstr, hans, pure_bind, hauth, hprobe]
      exact ⟨_, rfl⟩
    obtain ⟨RM, hrun⟩ := hrun
    rw [hrun]
    unfold putResp makeQuestion
    rw [if_neg hne, Option.some_or]
    simp [Reply.reply, putRRs, runs, length_putShort, hput]
  · decide +kernel

end delegate.dns
