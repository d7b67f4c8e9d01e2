-- Names of DNS messages there and back: what `putName` writes is read again by
-- `scanName`, and the position that `scanName` returns for a name that does not
-- fit its buffer.
import Delegate.DnsWellFormed

open reads

namespace delegate.dns

/-! ## There and back -/

/-- The text of a host name, with a dot at its end or without. -/
def hostName (ls : List Bytes) (trailing : Bool) : Bytes :=
  dotted ls ++ if trailing then [46] else []

theorem hostName_cons (l m : Bytes) (ls : List Bytes) (trailing : Bool) :
    hostName (l :: m :: ls) trailing = l ++ 46 :: hostName (m :: ls) trailing := by
  simp [hostName, dotted]

/-- What `putName` writes for a host name. -/
theorem putName_hostName {ls : List Bytes} (hok : LabelsOk ls) (hdot : ∀ l ∈ ls, (46 : Octet) ∉ l)
    (trailing : Bool) : putName (hostName ls trailing) = wire ls := by
  induction ls with
  | nil =>
    cases trailing
    · simp [hostName, dotted, putName, wire]
    · simp [hostName, dotted, putName, wire]
  | cons l ls ih =>
    obtain ⟨hne, hle⟩ := hok l List.mem_cons_self
    have hl := hdot l List.mem_cons_self
    cases ls with
    | nil =>
      cases trailing
      · have htext : hostName [l] false = l := by simp [hostName, dotted]
        rw [htext, putName_last hne hle hl, wire_cons]
        rfl
      · have htext : hostName [l] true = l ++ 46 :: [] := by simp [hostName, dotted]
        rw [htext, putName_label hne hle hl, wire_cons, putName]
        rfl
    | cons m ls =>
      rw [hostName_cons, putName_label hne hle hl, wire_cons,
        ih (fun k hk => hok k (List.mem_cons_of_mem _ hk))
          fun k hk => hdot k (List.mem_cons_of_mem _ hk)]

theorem length_dotted (ls : List Bytes) : (dotted ls).length ≤ (wire ls).length := by
  induction ls with
  | nil => simp [dotted]
  | cons l ls ih =>
    rw [wire_cons]
    cases ls with
    | nil =>
      simp only [dotted, List.length_append, List.length_cons]
      omega
    | cons m ls =>
      simp only [dotted, List.length_append, List.length_cons] at ih ⊢
      omega

/-- A host name is read back as it was written, without the dot at its end, and the position
after it is the end of the bytes; and whatever text is written, its bytes are labels of 1 to 63
bytes and one zero. -/
theorem name_there_and_back :
    (∀ (ls : List Bytes) (trailing : Bool) (msg : Msg) (p : Nat), LabelsOk ls →
      (∀ l ∈ ls, (46 : Octet) ∉ l ∧ (0 : Octet) ∉ l) → (wire ls).length ≤ 255 →
      At msg p (putName (hostName ls trailing)) →
      (scanNameAt msg p 512).val =
        (p + (putName (hostName ls trailing)).length, hostName ls false)) ∧
    ∀ name : Bytes, ∃ ls, putName name = wire ls ∧ LabelsOk ls := by
  constructor
  · intro ls trailing msg p hok hbytes hlen hat
    rw [putName_hostName hok (fun l hl => (hbytes l hl).1)] at hat ⊢
    have hdotted := length_dotted ls
    have htext : hostName ls false = dotted ls := by simp [hostName]
    rw [htext]
    unfold scanNameAt
    rw [scanName_room (by omega)]
    exact (labels_wire hok hat).scan le_rfl (by omega)
  · intro name
    obtain ⟨ls, hls, hok, -⟩ := putName_wire name
    exact ⟨ls, hls, hok⟩

theorem name_there_and_back_one :
    (scanNameAt (poke (fun _ => 0) 12 (putName (hostName [[97, 98], [99]] true))) 12 512).val =
      (12 + (putName (hostName [[97, 98], [99]] true)).length, hostName [[97, 98], [99]] false) := by
  apply name_there_and_back.1
  · simp [LabelsOk]
  · simp
  · simp [wire]
  · exact at_poke _ _ _

/-! ## The position after a name -/

/-- A length byte that begins a label. -/
def isLabel (len : Octet) : Prop := len ≠ 0 ∧ len &&& 0xC0 = 0

/-- A length byte of the name at `ssp`: its first byte, or the byte after a label. -/
inductive Walk (msg : Msg) (ssp : Nat) : Nat → Prop
  | first : Walk msg ssp ssp
  | label {p : Nat} : Walk msg ssp p → isLabel (msg p) → Walk msg ssp (p + 1 + (msg p).toNat)

/-- The name at `ssp` ends before `fin`: after its zero or after its first pointer. -/
def NameEnd (msg : Msg) (ssp fin : Nat) : Prop :=
  ∃ p, Walk msg ssp p ∧
    (msg p = 0 ∧ fin = p + 1 ∨ msg p &&& 0xC0 = 0xC0 ∧ fin = p + 2)

section
variable {msg : Msg} {ssp : Nat}

theorem Walk.le {p : Nat} (h : Walk msg ssp p) : ssp ≤ p := by
  induction h with
  | first => exact le_rfl
  | label _ _ ih => omega

/-- Of two length bytes, the one before the other begins a label that ends before it. -/
theorem Walk.before {p q : Nat} (hp : Walk msg ssp p) (hq : Walk msg ssp q) (hlt : p < q) :
    isLabel (msg p) ∧ p + 1 + (msg p).toNat ≤ q := by
  induction hq generalizing p with
  | first => exact absurd hp.le (by omega)
  | @label q hq hlabel ih =>
    rcases Nat.lt_trichotomy p q with hpq | rfl | hqp
    · obtain ⟨hl, hle⟩ := ih hp hpq
      exact ⟨hl, by omega⟩
    · exact ⟨hlabel, le_rfl⟩
    · -- `p` would stand inside of the label at `q`
      have hinside : ∀ r, Walk msg ssp r → q < r → q + 1 + (msg q).toNat ≤ r := by
        intro r hr
        induction hr with
        | first =>
          intro hlt
          exact absurd hq.le (by omega)
        | @label r hr hrl ihr =>
          intro hlt
          rcases Nat.lt_trichotomy q r with hqr | rfl | hrq
          · have := ihr hqr
            omega
          · exact le_rfl
          · have := (ih hr hrq).2
            omega
      have := hinside p hp hqp
      omega

/-- The position after the byte at which the labels end: one byte on, or two for a pointer. -/
def afterEnd (msg : Msg) (p : Nat) : Nat := if msg p &&& 0xC0 = 0xC0 then p + 2 else p + 1

theorem lt_afterEnd (msg : Msg) (p : Nat) : p < afterEnd msg p := by
  unfold afterEnd
  split <;> omega

/-- A scan with a buffer of `siz` bytes stops at `p` and returns `ret`: at the end of the labels,
or at a label that does not fit. -/
def StopsAt (msg : Msg) (ssp siz p ret : Nat) : Prop :=
  Walk msg ssp p ∧ p - ssp < siz ∧
    (¬ isLabel (msg p) ∧ ret = afterEnd msg p ∨
      isLabel (msg p) ∧ siz ≤ p + 1 + (msg p).toNat - ssp ∧ ret = p + 1)

/-- Where the loop of `scanName` stops. The room left is known unless the name ends here. -/
theorem scanLabels_stopsAt {follow : Nat → Nat → Scan (Nat × Bytes)} {siz : Nat} (room : Nat) :
    ∀ sp, Walk msg ssp sp → sp - ssp < siz → (msg sp ≠ 0 → room + sp = siz + ssp) →
      ∃ p, StopsAt msg ssp siz p (scanLabels msg follow ssp sp room).val.1 := by
  induction room using Nat.strong_induction_on with
  | _ room ih =>
    intro sp hwalk hfit hroom
    rw [scanLabels, val_bind, val_peek]
    split
    · rename_i h0
      refine ⟨sp, hwalk, hfit, .inl ⟨fun h => h.1 h0, ?_⟩⟩
      rw [afterEnd, h0, if_neg (by decide)]
      rfl
    · rename_i h0
      have hroom := hroom h0
      split
      · rename_i hbits
        refine ⟨sp, hwalk, hfit, .inl ⟨fun h => hbits h.2, ?_⟩⟩
        unfold afterEnd
        by_cases hpointer : msg sp &&& 0xC0 = 0xC0
        · rw [if_neg (not_not.mpr hpointer), if_pos hpointer, val_bind, val_peek]
          dsimp only
          split
          · rfl
          · split
            · rfl
            · rfl
        · rw [if_pos hpointer, if_neg hpointer]
          rfl
      · rename_i hbits
        have hlabel : isLabel (msg sp) := ⟨h0, not_not.mp hbits⟩
        split
        · exact ⟨sp, hwalk, hfit, .inr ⟨hlabel, by omega, rfl⟩⟩
        · have hpos : (msg sp).toNat ≠ 0 := fun h => h0 (UInt8.toNat_inj.mp h)
          rw [val_bind, val_bind, val_peek, val_bind]
          apply ih _ (by omega) _ (hwalk.label hlabel) (by have := hwalk.le; omega)
          intro hnext
          rw [if_pos hnext]
          simp only [List.length_singleton]
          omega

theorem scanNameAt_stopsAt (msg : Msg) (ssp : Nat) {siz : Nat} (h : 1 < siz) :
    ∃ p, StopsAt msg ssp siz p (scanNameAt msg ssp siz).val.1 := by
  unfold scanNameAt
  rw [scanName_room h]
  exact scanLabels_stopsAt siz ssp .first (by omega) fun _ => rfl

/-- A length byte after which no label begins is the last one. -/
theorem Walk.le_end {p q : Nat} (hp : Walk msg ssp p) (hend : ¬ isLabel (msg p))
    (hq : Walk msg ssp q) : q ≤ p := by
  by_contra hlt
  exact hend (hp.before hq (by omega)).1

/-- A scan that stops at a label returns a position before the end of the name. -/
theorem StopsAt.ret_lt {siz p ret q : Nat} (h : StopsAt msg ssp siz p ret)
    (hlabel : isLabel (msg p)) (hq : Walk msg ssp q) (hend : ¬ isLabel (msg q)) :
    ret < afterEnd msg q := by
  obtain ⟨hp, -, ⟨hno, -⟩ | ⟨-, -, rfl⟩⟩ := h
  · exact absurd hlabel hno
  · have hle := hq.le_end hend hp
    have hne : p ≠ q := by
      rintro rfl
      exact hend hlabel
    have hstep := (hp.before hq (by omega)).2
    have hlt := lt_afterEnd msg q
    omega

/-- A length byte fits a buffer exactly if it is not behind the place where the scan stops. -/
theorem StopsAt.fits_iff {siz p ret q : Nat} (h : StopsAt msg ssp siz p ret)
    (hq : Walk msg ssp q) : q - ssp < siz ↔ q ≤ p := by
  obtain ⟨hp, hfit, hstop⟩ := h
  constructor
  · intro hlt
    rcases hstop with ⟨hend, -⟩ | ⟨-, hfull, -⟩
    · exact hp.le_end hend hq
    · by_contra hpq
      have := (hp.before hq (by omega)).2
      omega
  · intro hle
    omega

/-- Two scans of a name return the same position exactly if they stop at the same byte. -/
theorem StopsAt.same_iff {siz1 siz2 p1 p2 ret1 ret2 : Nat} (h1 : StopsAt msg ssp siz1 p1 ret1)
    (h2 : StopsAt msg ssp siz2 p2 ret2) : ret1 = ret2 ↔ p1 = p2 := by
  constructor
  · intro hret
    by_cases hl1 : isLabel (msg p1)
    · by_cases hl2 : isLabel (msg p2)
      · obtain ⟨-, -, ⟨hno, -⟩ | ⟨-, -, hret1⟩⟩ := h1
        · exact absurd hl1 hno
        · obtain ⟨-, -, ⟨hno, -⟩ | ⟨-, -, hret2⟩⟩ := h2
          · exact absurd hl2 hno
          · omega
      · have hlt := h1.ret_lt hl1 h2.1 hl2
        obtain ⟨-, -, ⟨-, hret2⟩ | ⟨hl, -⟩⟩ := h2
        · omega
        · exact absurd hl hl2
    · by_cases hl2 : isLabel (msg p2)
      · have hlt := h2.ret_lt hl2 h1.1 hl1
        obtain ⟨-, -, ⟨-, hret1⟩ | ⟨hl, -⟩⟩ := h1
        · omega
        · exact absurd hl hl1
      · exact Nat.le_antisymm (h2.1.le_end hl2 h1.1) (h1.1.le_end hl1 h2.1)
  · rintro rfl
    obtain ⟨-, -, ⟨hno1, hret1⟩ | ⟨hl1, -, hret1⟩⟩ := h1
    · obtain ⟨-, -, ⟨-, hret2⟩ | ⟨hl2, -⟩⟩ := h2
      · rw [hret1, hret2]
      · exact absurd hl2 hno1
    · obtain ⟨-, -, ⟨hno2, -⟩ | ⟨-, -, hret2⟩⟩ := h2
      · exact absurd hl1 hno2
      · rw [hret1, hret2]

/-- The bytes at which a name can end. -/
def endByte (len : Octet) : Prop := len = 0 ∨ len &&& 0xC0 = 0xC0

theorem not_isLabel_of_endByte {len : Octet} (h : endByte len) : ¬ isLabel len := by
  rintro ⟨h0, hbits⟩
  rcases h with h | h
  · exact h0 h
  · exact (pointer_bits h).2 hbits

theorem nameEnd_iff {fin : Nat} :
    NameEnd msg ssp fin ↔ ∃ p, Walk msg ssp p ∧ endByte (msg p) ∧ fin = afterEnd msg p := by
  unfold NameEnd endByte afterEnd
  refine exists_congr fun p => and_congr_right fun _ => ?_
  constructor
  · rintro (⟨h0, rfl⟩ | ⟨hp, rfl⟩)
    · refine ⟨.inl h0, ?_⟩
      rw [h0, if_neg (by decide)]
    · exact ⟨.inr hp, (if_pos hp).symm⟩
  · rintro ⟨h0 | hp, rfl⟩
    · refine .inl ⟨h0, ?_⟩
      rw [h0, if_neg (by decide)]
    · exact .inr ⟨hp, if_pos hp⟩

end

/-- The position that `scanName` returns is that of the end of the name, for two sizes of the
buffer. -/
def SamePosition (msg : Msg) (ssp siz1 siz2 : Nat) : Prop :=
  (scanNameAt msg ssp siz1).val.1 = (scanNameAt msg ssp siz2).val.1 ∧
    ∀ fin, NameEnd msg ssp fin → (scanNameAt msg ssp siz1).val.1 = fin

/-- The labels that fit the one buffer are those that fit the other, and the byte that ends the
name is among what fits. -/
def FitsBoth (msg : Msg) (ssp siz1 siz2 : Nat) : Prop :=
  ∀ p, Walk msg ssp p →
    (p - ssp < siz1 ↔ p - ssp < siz2) ∧ (endByte (msg p) → p - ssp < siz1)

section
variable {msg : Msg} {ssp siz1 siz2 : Nat} (h1 : 1 < siz1) (h2 : 1 < siz2)
include h1 h2

theorem fits_of_samePosition (h : SamePosition msg ssp siz1 siz2) :
    FitsBoth msg ssp siz1 siz2 := by
  obtain ⟨p1, hs1⟩ := scanNameAt_stopsAt msg ssp h1
  obtain ⟨p2, hs2⟩ := scanNameAt_stopsAt msg ssp h2
  obtain ⟨hsame, hend⟩ := h
  rw [hs1.same_iff hs2] at hsame
  subst hsame
  intro p hp
  refine ⟨?_, ?_⟩
  · rw [hs1.fits_iff hp, hs2.fits_iff hp]
  · intro hbyte
    have hret := hend _ (nameEnd_iff.mpr ⟨p, hp, hbyte, rfl⟩)
    have hno := not_isLabel_of_endByte hbyte
    have hno1 : ¬ isLabel (msg p1) := by
      intro hl
      exact absurd (hs1.ret_lt hl hp hno) (by omega)
    rw [hs1.fits_iff hp]
    exact hs1.1.le_end hno1 hp

theorem samePosition_of_fits (h : FitsBoth msg ssp siz1 siz2) :
    SamePosition msg ssp siz1 siz2 := by
  obtain ⟨p1, hs1⟩ := scanNameAt_stopsAt msg ssp h1
  obtain ⟨p2, hs2⟩ := scanNameAt_stopsAt msg ssp h2
  constructor
  · rw [hs1.same_iff hs2]
    have hle1 := (hs2.fits_iff hs1.1).mp ((h p1 hs1.1).1.mp hs1.2.1)
    have hle2 := (hs1.fits_iff hs2.1).mp ((h p2 hs2.1).1.mpr hs2.2.1)
    omega
  · intro fin hfin
    obtain ⟨p, hp, hbyte, rfl⟩ := nameEnd_iff.mp hfin
    have hno := not_isLabel_of_endByte hbyte
    have hle := (hs1.fits_iff hp).mp ((h p hp).2 hbyte)
    have hge := hp.le_end hno hs1.1
    obtain rfl : p = p1 := by omega
    obtain ⟨-, -, ⟨-, hret⟩ | ⟨hl, -⟩⟩ := hs1
    · exact hret
    · exact absurd hl hno

end

/-- For two sizes of the buffer, `scanName` returns the end of the name as its position exactly if
the byte that ends the name is less than both sizes from its beginning; where the labels end with
no such byte, it returns the same position exactly if the same labels fit. -/
theorem position_same_iff (msg : Msg) (ssp siz1 siz2 : Nat) (h1 : 1 < siz1) (h2 : 1 < siz2) :
    SamePosition msg ssp siz1 siz2 ↔ FitsBoth msg ssp siz1 siz2 :=
  ⟨fits_of_samePosition h1 h2, samePosition_of_fits h1 h2⟩

/-- A message with a name of nine labels of 63 bytes. -/
def longName : Msg := fun i => if 576 ≤ i then 0 else if i % 64 = 0 then 63 else 97

theorem longName_label {n : Nat} (h : n < 9) : longName (64 * n) = 63 := by
  unfold longName
  rw [if_neg (by omega), if_pos (by omega)]

theorem walk_longName (n : Nat) (h : n ≤ 9) : Walk longName 0 (64 * n) := by
  induction n with
  | zero => exact .first
  | succ n ih =>
    have hlen := longName_label h
    have hnext := (ih (by omega)).label (by rw [hlen]; exact ⟨by decide, by decide⟩)
    rw [hlen] at hnext
    exact hnext

/-- The labels of a name that begins at one of the labels. -/
theorem walk_longName_inv {k p : Nat} (hk : k ≤ 9) (h : Walk longName (64 * k) p) :
    ∃ n ≤ 9, p = 64 * n := by
  induction h with
  | first => exact ⟨k, hk, rfl⟩
  | @label p _ hlabel ih =>
    obtain ⟨n, hn, rfl⟩ := ih
    have hlt : n < 9 := by
      by_contra hge
      refine hlabel.1 ?_
      unfold longName
      rw [if_pos (by omega)]
    have hlen := longName_label hlt
    refine ⟨n + 1, hlt, ?_⟩
    rw [hlen, show (63 : UInt8).toNat = 63 from rfl]
    omega

/-- The last four labels fit a buffer of 512 bytes. -/
theorem position_same_labels : SamePosition longName (64 * 5) 512 1024 := by
  refine (position_same_iff longName (64 * 5) 512 1024 (by omega) (by omega)).mpr ?_
  intro p hp
  obtain ⟨n, hn, rfl⟩ := walk_longName_inv (by omega) hp
  exact ⟨by omega, fun _ => by omega⟩

/-- A name of nine labels with 63 bytes each has no room in a buffer of 512 bytes. -/
theorem position_differs : ¬ SamePosition longName 0 512 1024 := by
  intro hsame
  have hfit := fits_of_samePosition (by omega) (by omega) hsame
  have hlast := (hfit 576 (walk_longName 9 le_rfl)).2 (.inl (by decide))
  omega

end delegate.dns
