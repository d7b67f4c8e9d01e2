-- The DNS messages that `dumpResponse` reads without leaving them: those that
-- hold whole names, whole questions and whole records.
import Delegate.DnsMessage

open reads

namespace delegate.dns

/-! ## Whole names -/

section Names
variable (msg : Msg) (rc : Nat)

/-- Labels from `sp` on, of a name that begins at `ssp`, that stand inside of the message of `rc`
bytes. At most `k` more pointers are followed, `room` bytes are left for the text, and the name
ends before `fin`. -/
inductive LabelsAt : (k ssp sp room fin : Nat) → Prop
  | last {k ssp sp room} : sp < rc → msg sp = 0 → LabelsAt k ssp sp room (sp + 1)
  | reserved {k ssp sp room} : sp < rc → msg sp &&& 0xC0 ≠ 0 → msg sp &&& 0xC0 ≠ 0xC0 →
      LabelsAt k ssp sp room (sp + 1)
  /-- A pointer that does not go back behind the beginning of the name. -/
  | forward {k ssp sp room} : sp + 1 < rc → msg sp &&& 0xC0 = 0xC0 →
      ssp ≤ pointerOff (msg sp) (msg (sp + 1)) → LabelsAt k ssp sp room (sp + 2)
  /-- A pointer that is not followed: too many pointers, or no room. -/
  | deep {k ssp sp room} : sp + 1 < rc → msg sp &&& 0xC0 = 0xC0 →
      pointerOff (msg sp) (msg (sp + 1)) < ssp → k = 0 ∨ room ≤ 1 → LabelsAt k ssp sp room (sp + 2)
  | pointer {k ssp sp room fin} : sp + 1 < rc → msg sp &&& 0xC0 = 0xC0 →
      pointerOff (msg sp) (msg (sp + 1)) < ssp → 1 < room →
      LabelsAt k (pointerOff (msg sp) (msg (sp + 1))) (pointerOff (msg sp) (msg (sp + 1))) room fin →
      LabelsAt (k + 1) ssp sp room (sp + 2)
  /-- A label that has no room. -/
  | full {k ssp sp room} : sp < rc → msg sp ≠ 0 → msg sp &&& 0xC0 = 0 →
      room < (msg sp).toNat + 2 → LabelsAt k ssp sp room (sp + 1)
  | label {k ssp sp room fin} : sp + 1 + (msg sp).toNat < rc → msg sp ≠ 0 → msg sp &&& 0xC0 = 0 →
      (msg sp).toNat + 2 ≤ room →
      LabelsAt k ssp (sp + 1 + (msg sp).toNat)
        (room - ((msg sp).toNat + if msg (sp + 1 + (msg sp).toNat) = 0 then 0 else 1)) fin →
      LabelsAt k ssp sp room fin

/-- A name that stands at `p` inside of the message and ends before `fin`. -/
def NameAt (siz p fin : Nat) : Prop := LabelsAt msg rc 31 p p siz fin

end Names

section Names
variable {msg : Msg} {rc : Nat}

/-- A scan that stays inside and ends at `fin`. -/
def Ends {α π : Type} (rc : Nat) (m : Scan (π × α)) (fin : π) : Prop :=
  Inside rc m ∧ m.val.1 = fin

theorem ends_pure {α π : Type} {p fin : π} {a : α} : Ends rc (pure (p, a)) fin ↔ p = fin := by
  simp [Ends]

theorem ends_bind {α β π : Type} {m : Scan β} {f : β → Scan (π × α)} {fin : π} :
    Ends rc (m >>= f) fin ↔ Inside rc m ∧ Ends rc (f m.val) fin := by
  simp [Ends, and_assoc]

theorem ends_map {α β π : Type} {m : Scan (π × β)} {g : π × β → α} {fin : π} :
    Ends rc (m >>= fun r => pure (r.1, g r)) fin ↔ Ends rc m fin := by
  simp [Ends]

theorem pointer_bits {len : Octet} (h : len &&& 0xC0 = 0xC0) : len ≠ 0 ∧ len &&& 0xC0 ≠ 0 := by
  constructor
  · rintro rfl
    exact absurd h (by decide)
  · rw [h]
    decide

theorem scanName_stop {k off room : Nat} (h : k = 0 ∨ room ≤ 1) :
    scanName msg k off room = pure (off, []) := by
  cases k with
  | zero => rfl
  | succ k =>
    unfold scanName
    rw [if_pos (h.resolve_left (Nat.succ_ne_zero k))]

theorem scanName_room {k off room : Nat} (h : 1 < room) :
    scanName msg (k + 1) off room = scanLabels msg (scanName msg k) off off room := by
  rw [scanName, if_neg (not_le.mpr h)]

theorem scanLabels_step {follow : Nat → Nat → Scan (Nat × Bytes)} {ssp sp room fin : Nat}
    (hssp : ssp ≤ sp) :
    Ends rc (scanLabels msg follow ssp sp room) fin ↔
      sp < rc ∧
        if msg sp = 0 then sp + 1 = fin
        else if msg sp &&& 0xC0 ≠ 0 then
          if msg sp &&& 0xC0 ≠ 0xC0 then sp + 1 = fin
          else
            sp + 1 < rc ∧
              if ssp ≤ pointerOff (msg sp) (msg (sp + 1)) then sp + 2 = fin
              else Inside rc (follow (pointerOff (msg sp) (msg (sp + 1))) room) ∧ sp + 2 = fin
        else if room < (msg sp).toNat + 2 then sp + 1 = fin
        else
          sp + 1 + (msg sp).toNat < rc ∧
            Ends rc (scanLabels msg follow ssp (sp + 1 + (msg sp).toNat)
              (room - ((msg sp).toNat + if msg (sp + 1 + (msg sp).toNat) = 0 then 0 else 1))) fin := by
  rw [scanLabels, ends_bind, inside_peek, val_peek]
  refine and_congr_right fun _ => ?_
  by_cases h0 : msg sp = 0
  · rw [if_pos h0, if_pos h0, ends_pure]
  rw [if_neg h0, if_neg h0]
  by_cases hp : msg sp &&& 0xC0 ≠ 0
  · rw [if_pos hp, if_pos hp]
    by_cases hr : msg sp &&& 0xC0 ≠ 0xC0
    · rw [if_pos hr, if_pos hr, ends_pure]
    rw [if_neg hr, if_neg hr, ends_bind, inside_peek, val_peek]
    refine and_congr_right fun _ => ?_
    by_cases hoff : ssp ≤ pointerOff (msg sp) (msg (sp + 1))
    · rw [if_pos hoff]
      by_cases hfw : sp + 2 ≤ pointerOff (msg sp) (msg (sp + 1))
      · rw [if_pos hfw, ends_pure]
      · rw [if_neg hfw, if_pos (.inr hoff), ends_pure]
    · have hfw : ¬sp + 2 ≤ pointerOff (msg sp) (msg (sp + 1)) := by omega
      have hloop : ¬((pointerOff (msg sp) (msg (sp + 1)) < sp + 2 ∧
          sp + 2 - 2 ≤ pointerOff (msg sp) (msg (sp + 1))) ∨
            ssp ≤ pointerOff (msg sp) (msg (sp + 1))) := by omega
      rw [if_neg hoff, if_neg hfw, if_neg hloop, ends_bind, ends_pure]
  · rw [if_neg hp, if_neg hp]
    by_cases hfull : room < (msg sp).toNat + 2
    · rw [dif_pos hfull, if_pos hfull, ends_pure]
    · rw [dif_neg hfull, if_neg hfull, ends_bind, ends_bind, inside_span, inside_peek, val_peek]
      have hdot : (if msg (sp + 1 + (msg sp).toNat) ≠ 0 then ([46] : Bytes) else []).length =
          if msg (sp + 1 + (msg sp).toNat) = 0 then 0 else 1 := by
        by_cases hn : msg (sp + 1 + (msg sp).toNat) = 0
        · simp [hn]
        · simp [hn]
      dsimp only
      rw [hdot, ends_map]
      constructor
      · rintro ⟨-, h⟩
        exact h
      · rintro ⟨h, hends⟩
        exact ⟨.inr h.le, h, hends⟩

theorem LabelsAt.ends {k ssp sp room fin : Nat} (h : LabelsAt msg rc k ssp sp room fin)
    (hssp : ssp ≤ sp) : Ends rc (scanLabels msg (scanName msg k) ssp sp room) fin := by
  induction h with
  | last hsp h0 =>
    rw [scanLabels_step hssp, if_pos h0]
    exact ⟨hsp, rfl⟩
  | reserved hsp hp hr =>
    have h0 : msg _ ≠ 0 := fun h => hp (by rw [h]; rfl)
    rw [scanLabels_step hssp, if_neg h0, if_pos hp, if_pos hr]
    exact ⟨hsp, rfl⟩
  | forward hsp hp hoff =>
    have hne := pointer_bits hp
    rw [scanLabels_step hssp, if_neg hne.1, if_pos hne.2, if_neg (not_not.mpr hp), if_pos hoff]
    exact ⟨by omega, hsp, rfl⟩
  | @deep k ssp sp room hsp hp hoff hstop =>
    have hne := pointer_bits hp
    rw [scanLabels_step hssp, if_neg hne.1, if_pos hne.2, if_neg (not_not.mpr hp),
      if_neg (not_le.mpr hoff)]
    refine ⟨by omega, hsp, ?_, rfl⟩
    rw [scanName_stop hstop]
    exact inside_pure _
  | pointer hsp hp hoff hroom _ ih =>
    have hne := pointer_bits hp
    rw [scanLabels_step hssp, if_neg hne.1, if_pos hne.2, if_neg (not_not.mpr hp),
      if_neg (not_le.mpr hoff)]
    refine ⟨by omega, hsp, ?_, rfl⟩
    rw [scanName_room hroom]
    exact (ih le_rfl).1
  | full hsp h0 hp hroom =>
    rw [scanLabels_step hssp, if_neg h0, if_neg (not_not.mpr hp), if_pos hroom]
    exact ⟨hsp, rfl⟩
  | label hsp h0 hp hroom _ ih =>
    rw [scanLabels_step hssp, if_neg h0, if_neg (not_not.mpr hp), if_neg (not_lt.mpr hroom)]
    exact ⟨by omega, hsp, ih (by omega)⟩

/-- By induction on the pointers left, and for each level on the room. -/
theorem labelsAt_of_ends {k ssp sp room fin : Nat} (hssp : ssp ≤ sp)
    (h : Ends rc (scanLabels msg (scanName msg k) ssp sp room) fin) :
    LabelsAt msg rc k ssp sp room fin := by
  induction k using Nat.strong_induction_on generalizing ssp sp room fin with
  | _ k ihk =>
    induction room using Nat.strong_induction_on generalizing sp fin with
    | _ room ih =>
      rw [scanLabels_step hssp] at h
      obtain ⟨hsp, h⟩ := h
      by_cases h0 : msg sp = 0
      · rw [if_pos h0] at h
        exact h ▸ .last hsp h0
      rw [if_neg h0] at h
      by_cases hp : msg sp &&& 0xC0 = 0
      · rw [if_neg (not_not.mpr hp)] at h
        by_cases hfull : room < (msg sp).toNat + 2
        · rw [if_pos hfull] at h
          exact h ▸ .full hsp h0 hp hfull
        · rw [if_neg hfull] at h
          have hpos : (msg sp).toNat ≠ 0 := fun hz => h0 (UInt8.toNat_inj.mp hz)
          refine .label h.1 h0 hp (not_lt.mp hfull) (ih _ ?_ (by omega) h.2)
          omega
      · rw [if_pos hp] at h
        by_cases hr : msg sp &&& 0xC0 = 0xC0
        · rw [if_neg (not_not.mpr hr)] at h
          obtain ⟨hsp1, h⟩ := h
          by_cases hoff : ssp ≤ pointerOff (msg sp) (msg (sp + 1))
          · rw [if_pos hoff] at h
            exact h ▸ .forward hsp1 hr hoff
          · rw [if_neg hoff] at h
            obtain ⟨hin, rfl⟩ := h
            by_cases hstop : k = 0 ∨ room ≤ 1
            · exact .deep hsp1 hr (not_le.mp hoff) hstop
            · obtain ⟨hk, hroom⟩ := not_or.mp hstop
              obtain ⟨j, rfl⟩ := Nat.exists_eq_succ_of_ne_zero hk
              rw [Nat.succ_eq_add_one, scanName_room (not_le.mp hroom)] at hin
              exact .pointer hsp1 hr (not_le.mp hoff) (not_le.mp hroom)
                (ihk j (Nat.lt_succ_self j) le_rfl ⟨hin, rfl⟩)
        · rw [if_pos hr] at h
          exact h ▸ .reserved hsp hp hr

theorem nameAt_iff {siz p fin : Nat} (hsiz : 1 < siz) :
    NameAt msg rc siz p fin ↔ Ends rc (scanNameAt msg p siz) fin := by
  unfold NameAt scanNameAt
  rw [scanName_room hsiz]
  exact ⟨fun h => h.ends le_rfl, labelsAt_of_ends le_rfl⟩

end Names

/-! ## Whole messages -/

section Whole
variable (msg : Msg) (rc : Nat)

/-- The data of a record at `p`, as far as it is read. -/
def RDataAt (type p : Nat) : Prop :=
  if type = TY_AAAA then p + 16 ≤ rc
  else if type = TY_A then p + 4 ≤ rc
  else if type = TY_MX then ∃ fin, NameAt msg rc 512 (p + 2) fin
  else if type = TY_NS ∨ type = TY_CNAME ∨ type = TY_PTR then ∃ fin, NameAt msg rc 512 p fin
  else if type = TY_SOA then
    ∃ m r, NameAt msg rc 512 p m ∧ NameAt msg rc 512 m r ∧ r + 20 ≤ rc
  else True

/-- A record at `rr`, and where the next one begins. After a record of an unknown type or class
nothing is read. -/
def RecordAt (rr : Nat) (next : Option Nat) : Prop :=
  ∃ fin, NameAt msg rc 512 rr fin ∧ fin + 10 ≤ rc ∧
    if knownType (short msg fin) (short msg (fin + 2)) then
      RDataAt msg rc (short msg fin) (fin + 10) ∧ next = some (fin + 10 + short msg (fin + 8))
    else next = none

/-- At most `n` records from `mp` on. Nothing is read from the last byte of the message on. -/
inductive RecordsAt : Nat → Option Nat → Option Nat → Prop
  | done {mp} : RecordsAt 0 mp mp
  | stopped {n} : RecordsAt n none none
  | overrun {n mp} : rc - 1 ≤ mp → RecordsAt (n + 1) (some mp) none
  | record {n mp mp' next} : mp < rc - 1 → RecordAt msg rc mp mp' → RecordsAt n mp' next →
      RecordsAt (n + 1) (some mp) next

inductive QuestionsAt : Nat → Nat → Option Nat → Prop
  | done {mp} : QuestionsAt 0 mp (some mp)
  | overrun {n mp} : rc - 1 ≤ mp → QuestionsAt (n + 1) mp none
  | question {n mp fin fin' next} : mp < rc - 1 → NameAt msg rc 1024 mp fin' →
      NameAt msg rc 512 mp fin → fin + 4 ≤ rc → QuestionsAt n (fin + 4) next →
      QuestionsAt (n + 1) mp next

/-- A whole message: its header, and as many questions and records as the header counts. -/
def Whole : Prop :=
  12 ≤ rc ∧ ∃ qd an ns ar, QuestionsAt msg rc (short msg 4) 12 qd ∧
    RecordsAt msg rc (short msg 6) qd an ∧ RecordsAt msg rc (short msg 8) an ns ∧
    RecordsAt msg rc (short msg 10) ns ar

end Whole

section Whole
variable {msg : Msg} {rc : Nat}

@[simp] theorem val_getShort (p : Nat) : (getShort msg p).val = short msg p := rfl

@[simp] theorem inside_getShort (p : Nat) : Inside rc (getShort msg p) ↔ p + 2 ≤ rc := by
  unfold getShort
  simp only [inside_bind, inside_peek, val_peek, inside_pure, and_true]
  omega

@[simp] theorem inside_getLong (p : Nat) : Inside rc (getLong msg p) ↔ p + 4 ≤ rc := by
  unfold getLong
  simp only [inside_bind, inside_getShort, inside_pure, and_true]
  omega

/-- The first byte of a name is read. -/
theorem LabelsAt.lt {k ssp sp room fin : Nat} (h : LabelsAt msg rc k ssp sp room fin) : sp < rc := by
  cases h <;> omega

theorem inside_scanNameAt {p siz : Nat} (hsiz : 1 < siz) :
    Inside rc (scanNameAt msg p siz) ↔ ∃ fin, NameAt msg rc siz p fin := by
  constructor
  · intro h
    exact ⟨_, (nameAt_iff hsiz).mpr ⟨h, rfl⟩⟩
  · rintro ⟨fin, h⟩
    exact ((nameAt_iff hsiz).mp h).1

/-- The data of a mail exchanger: the preference before the name is read after it. -/
theorem inside_scanRData_mx (p : Nat) :
    Inside rc (scanRData msg TY_MX p) ↔ ∃ fin, NameAt msg rc 512 (p + 2) fin := by
  have hunfold : scanRData msg TY_MX p = (do
      let r ← scanNameAt msg (p + 2) 512
      if cstr r.2 = [] then pure .none
      else do
        let pref ← span msg p 2
        pure (.mx (cstr r.2) pref)) := rfl
  rw [hunfold, inside_bind, inside_scanNameAt (by decide)]
  constructor
  · exact fun h => h.1
  · rintro ⟨fin, h⟩
    refine ⟨⟨fin, h⟩, ?_⟩
    have hlt := LabelsAt.lt h
    split
    · exact inside_pure _
    · rw [inside_bind, inside_span]
      exact ⟨.inr hlt.le, inside_pure _⟩

theorem inside_scanRData_name {type : Nat} (hmx : type ≠ TY_MX) (ha : type ≠ TY_A)
    (haaaa : type ≠ TY_AAAA) (h : type = TY_NS ∨ type = TY_CNAME ∨ type = TY_PTR) (p : Nat) :
    Inside rc (scanRData msg type p) ↔ ∃ fin, NameAt msg rc 512 p fin := by
  unfold scanRData
  rw [if_neg haaaa, if_neg ha, if_pos (.inr h), if_pos hmx, inside_bind,
    inside_scanNameAt (by decide), if_neg hmx]
  constructor
  · exact fun h => h.1
  · intro h
    refine ⟨h, ?_⟩
    split <;> exact inside_pure _

theorem inside_scanRData_soa (p : Nat) :
    Inside rc (scanRData msg TY_SOA p) ↔
      ∃ m r, NameAt msg rc 512 p m ∧ NameAt msg rc 512 m r ∧ r + 20 ≤ rc := by
  have hunfold : scanRData msg TY_SOA p = (do
      let m ← scanNameAt msg p 512
      let r ← scanNameAt msg m.1 512
      let serial ← getLong msg r.1
      let refresh ← getLong msg (r.1 + 4)
      let retry ← getLong msg (r.1 + 8)
      let expire ← getLong msg (r.1 + 12)
      let minimum ← getLong msg (r.1 + 16)
      pure (.soa (cstr m.2) (cstr r.2) [serial, refresh, retry, expire, minimum])) := rfl
  rw [hunfold]
  simp only [inside_bind, inside_getLong, inside_pure, and_true]
  constructor
  · rintro ⟨hm, hr, -, -, -, -, hlast⟩
    exact ⟨_, _, (nameAt_iff (by decide)).mpr ⟨hm, rfl⟩, (nameAt_iff (by decide)).mpr ⟨hr, rfl⟩,
      hlast⟩
  · rintro ⟨m, r, hm, hr, hlast⟩
    obtain ⟨hmin, rfl⟩ := (nameAt_iff (by decide)).mp hm
    obtain ⟨hrin, rfl⟩ := (nameAt_iff (by decide)).mp hr
    refine ⟨hmin, hrin, ?_, ?_, ?_, ?_, hlast⟩ <;> omega

theorem inside_scanRData (type p : Nat) :
    Inside rc (scanRData msg type p) ↔ RDataAt msg rc type p := by
  unfold RDataAt
  by_cases haaaa : type = TY_AAAA
  · unfold scanRData
    rw [if_pos haaaa, if_pos haaaa, inside_bind, inside_span]
    simp
  by_cases ha : type = TY_A
  · unfold scanRData
    rw [if_neg haaaa, if_neg haaaa, if_pos ha, if_pos ha, inside_bind, inside_span]
    simp
  rw [if_neg haaaa, if_neg ha]
  by_cases hmx : type = TY_MX
  · rw [if_pos hmx, hmx, inside_scanRData_mx]
  rw [if_neg hmx]
  by_cases hname : type = TY_NS ∨ type = TY_CNAME ∨ type = TY_PTR
  · rw [if_pos hname, inside_scanRData_name hmx ha haaaa hname]
  rw [if_neg hname]
  by_cases hsoa : type = TY_SOA
  · rw [if_pos hsoa, hsoa, inside_scanRData_soa]
  · unfold scanRData
    rw [if_neg hsoa, if_neg haaaa, if_neg ha, if_neg fun h => h.elim hmx hname, if_neg hsoa]
    simp

theorem dumpRData_iff {p type xclass ttl rdlength : Nat} {name : Bytes} {next : Option Nat} :
    (Inside rc (dumpRData msg p name type xclass ttl rdlength) ∧
        (dumpRData msg p name type xclass ttl rdlength).val.map Prod.fst = next) ↔
      if knownType type xclass then RDataAt msg rc type p ∧ next = some (p + rdlength)
      else next = none := by
  unfold dumpRData
  by_cases hknown : knownType type xclass = true
  · rw [if_pos hknown, if_pos hknown, inside_bind, inside_scanRData]
    simp [eq_comm]
  · rw [if_neg hknown, if_neg hknown]
    simp [eq_comm]

theorem recordAt_iff {rr : Nat} {next : Option Nat} (hrr : rr < rc) :
    RecordAt msg rc rr next ↔
      Inside rc (dumpResourceRecord msg rc rr) ∧
        (dumpResourceRecord msg rc rr).val.map Prod.fst = next := by
  unfold dumpResourceRecord
  rw [if_neg (not_le.mpr hrr)]
  simp only [inside_bind, val_bind, inside_getShort, inside_getLong, val_getShort]
  constructor
  · rintro ⟨fin, hname, hfix, hrest⟩
    obtain ⟨hin, rfl⟩ := (nameAt_iff (by decide)).mp hname
    obtain ⟨hdata, hnext⟩ := dumpRData_iff.mpr hrest
    exact ⟨⟨hin, by omega, by omega, by omega, by omega, hdata⟩, hnext⟩
  · rintro ⟨⟨hin, -, -, -, hfix, hdata⟩, hnext⟩
    exact ⟨_, (nameAt_iff (by decide)).mpr ⟨hin, rfl⟩, by omega, dumpRData_iff.mp ⟨hdata, hnext⟩⟩

theorem dumpRecords_none (n : Nat) : dumpRecords msg rc n none = pure (none, []) := by
  cases n <;> rfl

theorem dumpRecords_step {n mp : Nat} {next : Option Nat} (hmp : mp < rc - 1) :
    Ends rc (dumpRecords msg rc (n + 1) (some mp)) next ↔
      ∃ mp', RecordAt msg rc mp mp' ∧ Ends rc (dumpRecords msg rc n mp') next := by
  have hrr : mp < rc := by omega
  rw [dumpRecords, if_neg (not_le.mpr hmp), ends_bind]
  cases hval : (dumpResourceRecord msg rc mp).val with
  | none =>
    rw [ends_pure]
    constructor
    · rintro ⟨hin, rfl⟩
      refine ⟨none, (recordAt_iff hrr).mpr ⟨hin, by rw [hval]; rfl⟩, ?_⟩
      rw [dumpRecords_none, ends_pure]
    · rintro ⟨mp', hrec, hends⟩
      obtain ⟨hin, hnext⟩ := (recordAt_iff hrr).mp hrec
      rw [hval] at hnext
      cases hnext
      rw [Option.map_none, dumpRecords_none, ends_pure] at hends
      exact ⟨hin, hends⟩
  | some r =>
    rw [ends_map]
    constructor
    · rintro ⟨hin, hends⟩
      exact ⟨some r.1, (recordAt_iff hrr).mpr ⟨hin, by rw [hval]; rfl⟩, hends⟩
    · rintro ⟨mp', hrec, hends⟩
      obtain ⟨hin, hnext⟩ := (recordAt_iff hrr).mp hrec
      rw [hval] at hnext
      cases hnext
      exact ⟨hin, hends⟩

theorem recordsAt_iff {n : Nat} {mp next : Option Nat} :
    RecordsAt msg rc n mp next ↔ Ends rc (dumpRecords msg rc n mp) next := by
  constructor
  · intro h
    induction h with
    | done => exact ends_pure.mpr rfl
    | stopped =>
      rw [dumpRecords_none]
      exact ends_pure.mpr rfl
    | overrun hmp =>
      rw [dumpRecords, if_pos hmp]
      exact ends_pure.mpr rfl
    | record hmp hrec _ ih => exact (dumpRecords_step hmp).mpr ⟨_, hrec, ih⟩
  · intro h
    induction n generalizing mp with
    | zero => exact ends_pure.mp h ▸ .done
    | succ n ih =>
      cases mp with
      | none =>
        rw [dumpRecords_none, ends_pure] at h
        exact h ▸ .stopped
      | some mp =>
        by_cases hmp : rc - 1 ≤ mp
        · rw [dumpRecords, if_pos hmp, ends_pure] at h
          exact h ▸ .overrun hmp
        · obtain ⟨mp', hrec, hends⟩ := (dumpRecords_step (not_le.mp hmp)).mp h
          exact .record (not_le.mp hmp) hrec (ih hends)

theorem dumpQuestions_step {n mp : Nat} {next : Option Nat} (hmp : mp < rc - 1) :
    (Inside rc (dumpQuestions msg rc (n + 1) mp) ∧ (dumpQuestions msg rc (n + 1) mp).val = next) ↔
      ∃ fin fin', NameAt msg rc 1024 mp fin' ∧ NameAt msg rc 512 mp fin ∧ fin + 4 ≤ rc ∧
        Inside rc (dumpQuestions msg rc n (fin + 4)) ∧
          (dumpQuestions msg rc n (fin + 4)).val = next := by
  rw [dumpQuestions, if_neg (not_le.mpr hmp)]
  unfold scanQuery
  simp only [inside_bind, val_bind, val_pure, inside_pure, inside_getShort, and_true]
  constructor
  · rintro ⟨⟨hq, ⟨hname, -, hfix⟩, hin⟩, hnext⟩
    exact ⟨_, _, (nameAt_iff (by decide)).mpr ⟨hq, rfl⟩,
      (nameAt_iff (by decide)).mpr ⟨hname, rfl⟩, hfix, hin, hnext⟩
  · rintro ⟨fin, fin', hq, hname, hfix, hin, hnext⟩
    obtain ⟨hqin, rfl⟩ := (nameAt_iff (by decide)).mp hq
    obtain ⟨hnin, rfl⟩ := (nameAt_iff (by decide)).mp hname
    exact ⟨⟨hqin, ⟨hnin, by omega, hfix⟩, hin⟩, hnext⟩

theorem questionsAt_iff {n mp : Nat} {next : Option Nat} :
    QuestionsAt msg rc n mp next ↔
      Inside rc (dumpQuestions msg rc n mp) ∧ (dumpQuestions msg rc n mp).val = next := by
  constructor
  · intro h
    induction h with
    | done => exact ⟨inside_pure _, rfl⟩
    | overrun hmp =>
      rw [dumpQuestions, if_pos hmp]
      exact ⟨inside_pure _, rfl⟩
    | question hmp hq hname hfix _ ih =>
      exact (dumpQuestions_step hmp).mpr ⟨_, _, hq, hname, hfix, ih⟩
  · intro h
    induction n generalizing mp with
    | zero =>
      obtain ⟨-, rfl⟩ := h
      exact .done
    | succ n ih =>
      by_cases hmp : rc - 1 ≤ mp
      · rw [dumpQuestions, if_pos hmp] at h
        obtain ⟨-, rfl⟩ := h
        exact .overrun hmp
      · obtain ⟨fin, fin', hq, hname, hfix, hrest⟩ := (dumpQuestions_step (not_le.mp hmp)).mp h
        exact .question (not_le.mp hmp) hq hname hfix (ih hrest)

/-- `dumpResponse` stays inside of exactly the whole messages. -/
theorem dumpResponse_inside_iff (msg : Msg) (rc : Nat) :
    Inside rc (dumpResponse msg rc) ↔ Whole msg rc := by
  have hhead : Inside rc (scanHeader msg) ↔ 12 ≤ rc := by
    unfold scanHeader
    simp only [inside_bind, inside_getShort, inside_pure, and_true]
    omega
  unfold dumpResponse Whole
  simp only [inside_bind, hhead, inside_pure, and_true]
  refine and_congr_right fun _ => ?_
  constructor
  · rintro ⟨hqd, han, hns, har⟩
    exact ⟨_, _, _, _, questionsAt_iff.mpr ⟨hqd, rfl⟩, recordsAt_iff.mpr ⟨han, rfl⟩,
      recordsAt_iff.mpr ⟨hns, rfl⟩, recordsAt_iff.mpr ⟨har, rfl⟩⟩
  · rintro ⟨qd, an, ns, ar, hqd, han, hns, har⟩
    obtain ⟨hqdin, rfl⟩ := questionsAt_iff.mp hqd
    obtain ⟨hanin, rfl⟩ := recordsAt_iff.mp han
    obtain ⟨hnsin, rfl⟩ := recordsAt_iff.mp hns
    exact ⟨hqdin, hanin, hnsin, (recordsAt_iff.mp har).1⟩

/-- A response of 14 bytes: a header that counts one answer, the name of the root, and one byte
of the type of the answer. -/
def cutResponse : Msg := fun i => if i = 7 then 1 else 0

/-- The fixed part of the answer is read behind the message. -/
theorem cutResponse_overrun : ¬Inside 14 (dumpResponse cutResponse 14) := by
  intro h
  unfold dumpResponse at h
  simp only [inside_bind] at h
  obtain ⟨-, -, han, -⟩ := h
  have hends : Ends 14 (dumpRecords cutResponse 14 1 (some 12)) _ := ⟨han, rfl⟩
  obtain ⟨mp', ⟨fin, hname, hfix, -⟩, -⟩ := (dumpRecords_step (by decide)).mp hends
  have hzero : cutResponse 12 = 0 := rfl
  have hfin : fin = 13 := by
    have hstep := (scanLabels_step le_rfl).mp (LabelsAt.ends hname le_rfl)
    rw [if_pos hzero] at hstep
    exact hstep.2.symm
  omega

end Whole

end delegate.dns
