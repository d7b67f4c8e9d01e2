-- The elements of a host list that are written as ranges of addresses,
-- like `192.168.[0-15].*`. `canonWildcardAddr` rewrites the `*` of a
-- pattern, `scan_addrrange` reads the fields, and `match_addrrange` looks
-- at the last word of an address.
import Delegate.NetPrefix

open ctext delegate.vaddr

namespace delegate.hostlist

/-! ## Patterns -/

/-- One field of a pattern. -/
inductive Field
  | octet (v : BitVec 8)
  | any
  | span (lo hi : BitVec 8)
deriving DecidableEq, Repr

def Field.isSpan : Field → Bool
  | .span _ _ => true
  | _ => false

def Field.text : Field → Text
  | .octet v => dec v.toNat
  | .any => ['*']
  | .span lo hi => '[' :: (dec lo.toNat ++ '-' :: (dec hi.toNat ++ [']']))

/-- The fields with dots between them. -/
def patternText : List Field → Text
  | [] => []
  | [f] => f.text
  | f :: g :: fs => f.text ++ '.' :: patternText (g :: fs)

/-- The octets that a field stands for. -/
def Field.octets : Field → Octets
  | .octet v => ⟨v, v⟩
  | .any => ⟨0, 255⟩
  | .span lo hi => ⟨lo, hi⟩

/-- The octets that `scan_addrrange` reads from a field: a `*` is no
number, so it is read as 0. -/
def Field.scanned : Field → Octets
  | .octet v => ⟨v, v⟩
  | .any => ⟨0, 0⟩
  | .span lo hi => ⟨lo, hi⟩

/-- What `canonWildcardAddr` makes of a field. -/
def Field.canon : Field → Field
  | .any => .span 0 255
  | f => f

/-- The fields after `canonWildcardAddr`, which gives up on a pattern that
has a range in it. -/
def canonPattern (fs : List Field) : List Field :=
  if fs.any Field.isSpan then fs else fs.map Field.canon

/-- The fields at the places of a word, with missing fields at the end. -/
def octetsAt (oct : Field → Octets) (fs : List Field) (ai : Fin 4) : Octets :=
  (fs[ai.val]?).elim ⟨0, 255⟩ oct

/-- Every octet of the word lies between the octets at its place. -/
def InRanges (r : Fin 4 → Octets) (w : BitVec 32) : Prop :=
  ∀ ai, (r ai).h_low ≤ octet w ai ∧ octet w ai ≤ (r ai).h_high

instance (r : Fin 4 → Octets) (w : BitVec 32) : Decidable (InRanges r w) :=
  inferInstanceAs (Decidable (∀ _, _))

/-- The pattern is compiled as a range: it has a range in it, or a `*`
among several fields. -/
def IsRange (fs : List Field) : Prop :=
  fs.length ≤ 4 ∧ (fs.any Field.isSpan = true ∨ (.any ∈ fs ∧ 2 ≤ fs.length))

instance (fs : List Field) : Decidable (IsRange fs) := inferInstanceAs (Decidable (_ ∧ _))

/-! ## The text of a pattern -/

theorem addrChar_of_mem_text {f : Field} {c : Char} (h : c ∈ f.text) :
    addrChar c = true ∧ c ≠ '.' := by
  have hdec : ∀ v : BitVec 8, c ∈ dec v.toNat → addrChar c = true ∧ c ≠ '.' := by
    intro v hv
    refine ⟨by simp [addrChar, isDigit_of_mem_dec hv], ?_⟩
    rintro rfl
    exact not_mem_dec (by decide) hv
  cases f with
  | octet v => exact hdec v h
  | any =>
    obtain rfl := List.mem_singleton.mp h
    decide
  | span lo hi =>
    simp only [Field.text, List.mem_cons, List.mem_append, List.not_mem_nil, or_false] at h
    rcases h with rfl | h | rfl | h | rfl
    · decide
    · exact hdec lo h
    · decide
    · exact hdec hi h
    · decide

theorem text_length (f : Field) : f.text.length ≤ 9 := by
  cases f with
  | octet v => have := dec_length v; simp only [Field.text]; omega
  | any => decide
  | span lo hi =>
    have h1 := dec_length lo
    have h2 := dec_length hi
    simp only [Field.text, List.length_cons, List.length_append, List.length_nil]
    omega

theorem no_dot_text (f : Field) : '.' ∉ f.text := fun h => (addrChar_of_mem_text h).2 rfl

theorem addrText_text (f : Field) : AddrText f.text where
  chars := fun c hc => (addrChar_of_mem_text hc).1
  first := by
    cases f with
    | octet v => exact (addrText_dec v).first
    | any =>
      intro c hc
      obtain rfl := Option.some.inj hc
      decide
    | span lo hi =>
      intro c hc
      obtain rfl := Option.some.inj hc
      decide
  nonempty := by
    cases f with
    | octet v => exact dec_ne_nil _
    | any => simp [Field.text]
    | span lo hi => simp [Field.text]
  dots := dotOk_of_no_dot (no_dot_text f)
  last := by
    cases f with
    | octet v => exact (addrText_dec v).last
    | any => decide
    | span lo hi =>
      have hend : (Field.span lo hi).text = ('[' :: (dec lo.toNat ++ '-' :: dec hi.toNat)) ++ [']'] := by
        simp [Field.text]
      rw [hend, List.getLast?_concat]
      decide
  short := by have := text_length f; omega

theorem pattern_length (fs : List Field) : (patternText fs).length ≤ 10 * fs.length := by
  induction fs with
  | nil => simp [patternText]
  | cons f fs ih =>
    have := text_length f
    cases fs with
    | nil => simp only [patternText, List.length_cons, List.length_nil]; omega
    | cons g fs =>
      simp only [patternText, List.length_append, List.length_cons] at ih ⊢
      omega

theorem addrText_pattern {fs : List Field} (hne : fs ≠ []) (hlen : fs.length ≤ 4) :
    AddrText (patternText fs) := by
  induction fs with
  | nil => exact absurd rfl hne
  | cons f fs ih =>
    cases fs with
    | nil => exact addrText_text f
    | cons g fs =>
      have hrest := ih (by simp) (by simp only [List.length_cons] at hlen ⊢; omega)
      refine (addrText_text f).dot (no_dot_text f) hrest ?_
      have h1 := text_length f
      have h2 := pattern_length (g :: fs)
      simp only [List.length_cons] at hlen h2
      omega

theorem splitOn_pattern {fs : List Field} (hne : fs ≠ []) :
    (patternText fs).splitOn '.' = fs.map Field.text := by
  induction fs with
  | nil => exact absurd rfl hne
  | cons f fs ih =>
    cases fs with
    | nil => exact List.splitOn_eq_singleton (no_dot_text f)
    | cons g fs =>
      rw [patternText, List.splitOn_append_cons_self_of_not_mem (no_dot_text f), ih (by simp)]
      rfl

/-! ## The ranges that are read -/

theorem octetsOf_text (f : Field) : octetsOf f.text = some f.scanned := by
  have hcast : ∀ v : BitVec 8, BitVec.ofInt 8 (v.toNat : Int) = v := by
    intro v
    simp
  have hsmall : ∀ v : BitVec 8, v.toNat < 2 ^ 31 := fun v => by have := v.isLt; omega
  cases f with
  | octet v =>
    have hhead : ∀ s, dec v.toNat ≠ '[' :: s := by
      intro s h
      exact not_mem_dec (n := v.toNat) (c := '[') (by decide) (by rw [h]; simp)
    simp only [octetsOf, Field.text, atoi_dec (hsmall v), Field.scanned, hcast]
  | any => decide
  | span lo hi =>
    have hscan : scanRange (dec lo.toNat ++ '-' :: (dec hi.toNat ++ [']'])) = .two lo.toNat hi.toNat := by
      have h1 := strtol_dec_append lo.toNat ('-' :: (dec hi.toNat ++ [']'])) (by simp)
      have h2 := strtol_dec_append hi.toNat [']'] (by simp)
      simp only [scanRange, h1, h2, toInt32_of_small (hsmall lo), toInt32_of_small (hsmall hi)]
    simp [octetsOf, Field.text, hscan, Field.scanned, hcast]

theorem scanOctets_pattern (n : Nat) (fs : List Field) (h : fs.length ≤ n) :
    scanOctets n (fs.map Field.text) =
      fs.map Field.scanned ++ List.replicate (n - fs.length) ⟨0, 255⟩ := by
  induction fs generalizing n with
  | nil => cases n <;> rfl
  | cons f fs ih =>
    cases n with
    | zero => simp at h
    | succ n =>
      rw [List.map_cons, scanOctets, octetsOf_text]
      simp only [List.length_cons] at h
      simp only [ih n (by omega), List.map_cons, List.cons_append, List.length_cons,
        Nat.add_sub_add_right]

/-- The ranges of an element whose name is a pattern. -/
theorem scan_addrrange_pattern {fs : List Field} (hne : fs ≠ []) (hlen : fs.length ≤ 4) :
    scan_addrrange (patternText fs) = octetsAt Field.scanned fs := by
  have hshort : (patternText fs).take 127 = patternText fs := by
    refine List.take_of_length_le ?_
    have := pattern_length fs
    omega
  funext ai
  unfold scan_addrrange octetsAt
  rw [hshort, splitOn_pattern hne, scanOctets_pattern 4 fs hlen, List.getD_eq_getElem?_getD,
    List.getElem?_append, List.length_map]
  have hai := ai.isLt
  by_cases h : ai.val < fs.length
  · simp [h]
  · have hfill : ai.val - fs.length < 4 - fs.length := by omega
    simp [h, hfill]

/-! ## The rewriting of a pattern -/

/-- The characters before the dot are read one by one. -/
theorem wildField_append {n : Nat} {s t : Text} (hs : '.' ∉ s) (hn : s.length < n) :
    wildField n (s ++ t) = (s ++ (wildField (n - s.length) t).1, (wildField (n - s.length) t).2) := by
  induction s generalizing n with
  | nil => rfl
  | cons c s ih =>
    simp only [List.mem_cons, not_or, List.length_cons] at hs hn
    obtain ⟨n, rfl⟩ : ∃ k, n = k + 1 := ⟨n - 1, by omega⟩
    simp [wildField, Ne.symm hs.1, ih (n := n) hs.2 (by omega)]

theorem wildField_dot {n : Nat} {s t : Text} (hs : '.' ∉ s) (hn : s.length < n) :
    wildField n (s ++ '.' :: t) = (s ++ ['.'], t) := by
  obtain ⟨k, hk⟩ : ∃ k, n - s.length = k + 1 := ⟨n - s.length - 1, by omega⟩
  rw [wildField_append hs hn, hk]
  simp [wildField]

theorem wildField_end {n : Nat} {s : Text} (hs : '.' ∉ s) (hn : s.length < n) :
    wildField n s = (s, []) := by
  obtain ⟨k, hk⟩ : ∃ k, n - s.length = k + 1 := ⟨n - s.length - 1, by omega⟩
  have happend := @wildField_append n s [] hs hn
  rw [List.append_nil, hk] at happend
  simpa [wildField] using happend

/-- A field of a pattern, with or without its dot, in the notation of
ranges. -/
theorem canonField_text (f : Field) {e : Text} (he : e = [] ∨ e = ['.']) :
    canonField (f.text ++ e) = if f.isSpan then none else some (f.canon.text ++ e) := by
  cases f with
  | any => rcases he with rfl | rfl <;> decide
  | span lo hi =>
    have hbrack : ('[').isDigit = false := by decide
    simp [canonField, Field.text, Field.isSpan, hbrack]
  | octet v =>
    have hv := v.isLt
    have hatoi : atoi (dec v.toNat ++ e) = v.toNat := by
      have h := strtol_dec_append v.toNat e (by rcases he with rfl | rfl <;> simp)
      simp only [atoi, h]
      exact toInt32_of_small (by omega)
    have hall : (dec v.toNat ++ e).all (fun c => c.isDigit || c == '.') = true := by
      rw [List.all_append, Bool.and_eq_true]
      refine ⟨List.all_eq_true.mpr fun c hc => by simp [isDigit_of_mem_dec hc], ?_⟩
      rcases he with rfl | rfl <;> decide
    obtain ⟨d, ds, hd⟩ := List.exists_cons_of_ne_nil (dec_ne_nil v.toNat)
    have hdigit : d.isDigit = true := isDigit_of_mem_dec (n := v.toNat) (by rw [hd]; simp)
    have hstar : d ≠ '*' := by rintro rfl; revert hdigit; decide
    simp only [Field.text, Field.isSpan, Field.canon, Bool.false_eq_true, if_false]
    rw [hd, List.cons_append] at hatoi hall ⊢
    have hle : (v.toNat : Int) ≤ 255 := by omega
    unfold canonField
    split
    · rename_i h
      exact absurd (List.cons.inj h).1 hstar
    · rename_i h
      exact absurd (List.cons.inj h).1 hstar
    · rename_i h
      obtain ⟨rfl, -⟩ := List.cons.inj h
      simp [hdigit, hatoi, hle, hall]
    · rename_i h
      cases h

theorem canonFields_succ (n : Nat) {s : Text} (hs : s ≠ []) :
    canonFields (n + 1) s =
      match canonField (wildField 127 s).1, canonFields n (wildField 127 s).2 with
      | some f, some (t, k) => some (f ++ t, k + 1)
      | _, _ => none := by
  cases s with
  | nil => exact absurd rfl hs
  | cons c s => rfl

theorem canonFields_nil (n : Nat) : canonFields n [] = some ([], 0) := by cases n <;> rfl

theorem canonFields_pattern (n : Nat) {fs : List Field} (hne : fs ≠ []) (hlen : fs.length ≤ n) :
    canonFields n (patternText fs) =
      if fs.any Field.isSpan then none
      else some (patternText (fs.map Field.canon), fs.length) := by
  induction fs generalizing n with
  | nil => exact absurd rfl hne
  | cons f fs ih =>
    obtain ⟨n, rfl⟩ : ∃ k, n = k + 1 := ⟨n - 1, by simp only [List.length_cons] at hlen; omega⟩
    have hshort : f.text.length < 127 := by have := text_length f; omega
    cases fs with
    | nil =>
      have hfield := canonField_text f (e := []) (.inl rfl)
      rw [List.append_nil, List.append_nil] at hfield
      rw [patternText, canonFields_succ n (addrText_text f).nonempty,
        wildField_end (no_dot_text f) hshort, hfield, canonFields_nil]
      cases hf : f.isSpan <;> simp [hf, patternText]
    | cons g fs =>
      have hrest := ih n (by simp) (by simp only [List.length_cons] at hlen ⊢; omega)
      rw [patternText, canonFields_succ n (by simp), wildField_dot (no_dot_text f) hshort,
        canonField_text f (.inr rfl), hrest]
      cases hf : f.isSpan <;> cases hr : (g :: fs).any Field.isSpan <;>
        simp_all [patternText]

theorem text_subset_pattern {fs : List Field} {f : Field} (h : f ∈ fs) : f.text ⊆ patternText fs := by
  induction fs with
  | nil => simp at h
  | cons g fs ih =>
    cases fs with
    | nil =>
      obtain rfl := List.mem_singleton.mp h
      exact List.Subset.refl _
    | cons g' fs =>
      intro c hc
      rw [patternText, List.mem_append, List.mem_cons]
      rcases List.mem_cons.mp h with rfl | h
      · exact .inl hc
      · exact .inr (.inr (ih h hc))

/-- `canonWildcardAddr` rewrites the `*` of a pattern without ranges. -/
theorem canonWildcardAddr_pattern {fs : List Field} (h : IsRange fs) :
    canonWildcardAddr (patternText fs) = patternText (canonPattern fs) := by
  obtain ⟨hlen, hkind⟩ := h
  have hne : fs ≠ [] := by
    rintro rfl
    simp at hkind
  have hcanon := canonFields_pattern 4 hne hlen
  unfold canonWildcardAddr canonPattern
  cases hspan : fs.any Field.isSpan with
  | true =>
    rw [hspan] at hcanon
    simp only [if_true] at hcanon
    simp [hcanon]
  | false =>
    obtain ⟨hany, htwo⟩ := hkind.resolve_left (by simp [hspan])
    have hstar : (patternText fs).contains '*' = true := by
      simpa using text_subset_pattern hany (by simp [Field.text] : '*' ∈ Field.any.text)
    have hdot : (patternText fs).contains '.' = true := by
      obtain ⟨f, g, gs, rfl⟩ : ∃ f g gs, fs = f :: g :: gs := by
        match fs, htwo with
        | f :: g :: gs, _ => exact ⟨f, g, gs, rfl⟩
      simp [patternText]
    rw [hspan] at hcanon
    simp only [Bool.false_eq_true, if_false] at hcanon ⊢
    have hmap := pattern_length (fs.map Field.canon)
    rw [List.length_map] at hmap
    simp only [hstar, hdot, hcanon, Bool.and_self, if_true, htwo]
    exact List.take_of_length_le (by omega)

theorem canonPattern_length (fs : List Field) : (canonPattern fs).length = fs.length := by
  unfold canonPattern
  split <;> simp

/-- The name of a compiled pattern has a range in it. -/
theorem bracket_mem_canonPattern {fs : List Field} (h : IsRange fs) :
    '[' ∈ patternText (canonPattern fs) := by
  have hspan : ∀ gs : List Field, gs.any Field.isSpan = true → '[' ∈ patternText gs := by
    intro gs hgs
    obtain ⟨g, hg, hs⟩ := List.any_eq_true.mp hgs
    refine text_subset_pattern hg ?_
    cases g <;> simp_all [Field.isSpan, Field.text]
  refine hspan _ ?_
  unfold canonPattern
  split
  · assumption
  · rename_i hno
    have hany := (h.2.resolve_left hno).1
    exact List.any_eq_true.mpr ⟨.span 0 255, List.mem_map.mpr ⟨.any, hany, rfl⟩, rfl⟩

/-! ## The addresses of a pattern -/

/-- The ranges that a pattern stands for. -/
def rangesOf (fs : List Field) : Fin 4 → Octets := octetsAt Field.octets fs

/-- The ranges that are read from a pattern. -/
def rangesRead (fs : List Field) : Fin 4 → Octets := octetsAt Field.scanned (canonPattern fs)

/-- The compiled element. -/
theorem makeHost_pattern {S : Site} {listid : Text → Nat} {flags : BitVec 16} {fs : List Field}
    (h : IsRange fs) (hag : flags &&& HL_BYAGENT = 0)
    (hid : listid (patternText (canonPattern fs)) = 0) :
    makeHost S listid flags (patternText fs) =
      { h_mask := AddrNull, h_type := HT_BYHOST, h_name := patternText (canonPattern fs),
        ranges := rangesRead fs } := by
  have hne : fs ≠ [] := by
    rintro rfl
    simp [IsRange] at h
  have hcne : canonPattern fs ≠ [] := by
    rw [← List.length_pos_iff, canonPattern_length]
    exact List.length_pos_iff.mpr hne
  have hclen : (canonPattern fs).length ≤ 4 := by
    rw [canonPattern_length]
    exact h.1
  have hcanon := addrText_pattern hcne hclen
  have htext := addrText_pattern hne h.1
  have hmask : (scanMask S (patternText fs ++ [])).2 = AddrNull := by
    simp [scanMask, afterChr_eq_none (htext.not_mem (c := '/') (by decide))]
  have hmake := makeHost_addr S listid flags (m := []) ⟨htext, .inl rfl⟩ hag
    (by rw [canonWildcardAddr_pattern h]; exact scanVersion_addr hcanon)
  rw [hmask, canonWildcardAddr_pattern h, setName_addr hcanon hid, List.append_nil] at hmake
  rw [hmake]
  simp [bracket_mem_canonPattern h, scan_addrrange_pattern hcne hclen, rangesRead]

/-- The octets that are read lie in the ranges that the pattern stands for. -/
theorem inRanges_of_read {fs : List Field} {w : BitVec 32} (h : InRanges (rangesRead fs) w) :
    InRanges (rangesOf fs) w := by
  have hall : ∀ o : BitVec 8, 0 ≤ o ∧ o ≤ 255 := by decide
  intro ai
  have hread := h ai
  unfold rangesRead octetsAt at hread
  unfold rangesOf octetsAt
  by_cases hspan : fs.any Field.isSpan = true
  · rw [canonPattern, if_pos hspan] at hread
    cases hf : fs[ai.val]? with
    | none => rwa [hf] at hread
    | some f =>
      rw [hf] at hread
      cases f with
      | any => exact hall _
      | octet v => exact hread
      | span lo hi => exact hread
  · rw [canonPattern, if_neg hspan, List.getElem?_map] at hread
    cases hf : fs[ai.val]? with
    | none => rwa [hf] at hread
    | some f =>
      rw [hf] at hread
      cases f <;> exact hread

theorem match_addrrange_iff (e : Host) (addr : Addr) :
    match_addrrange e addr = true ↔ InRanges e.ranges addr.I3 := by
  simp [match_addrrange, InRanges, BitVec.not_lt]

theorem addrZero_iff (addr : Addr) : addr = AddrZero ↔ isV6 addr = false ∧ addr.I3 = 0 := by
  obtain ⟨a, b, c, d⟩ := addr
  simp [AddrZero, isV6]
  tauto

variable (W : World)

/-- A range element is true to its pattern for an IPv6 address when the
last word of the address lies outside of the ranges that are read, and for
an IPv4 address when the address, if it lies in the ranges of the pattern,
is not 0.0.0.0 and lies in the ranges that are read, of which the first
must not end at 0. -/
theorem addrRange_exact (S : Site) (listid : Text → Nat) (tab : Nat → HostList) (left : Nat)
    (hl : HostList) (cl : ClientInfo) (q : Query) (fs : List Field) (hfs : IsRange fs)
    (hl1 : ByHostList hl) (hid : listid (patternText (canonPattern fs)) = 0)
    (hlist : hl.hl_List = [makeHost S listid hl.hl_flags (patternText fs)])
    (hvd : (namesIn hl cl q).vdom = none)
    (htext : NoTextMatch (frameIn hl cl q (nestedAt W tab left cl q))
      (makeHost S listid hl.hl_flags (patternText fs))) :
    ((VA_hostIsinListX W tab left hl cl q).1 ≠ 0 ↔
      isV6 q.Vaddr.a_ints = false ∧ InRanges (rangesOf fs) q.Vaddr.a_ints.I3) ↔
    if isV6 q.Vaddr.a_ints then
      ¬ (InRanges (rangesRead fs) q.Vaddr.a_ints.I3 ∧ (rangesRead fs 0).h_high ≠ 0)
    else InRanges (rangesOf fs) q.Vaddr.a_ints.I3 →
      q.Vaddr.a_ints.I3 ≠ 0 ∧ (rangesRead fs 0).h_high ≠ 0 ∧
        InRanges (rangesRead fs) q.Vaddr.a_ints.I3 := by
  have hag : hl.hl_flags &&& HL_BYAGENT = 0 := by simpa [HostList.has] using hl1.agent
  have hmake := makeHost_pattern (S := S) hfs hag hid
  have hplain : PlainName (makeHost S listid hl.hl_flags (patternText fs)).h_name := by
    rw [hmake]
    refine (addrText_pattern ?_ ?_).plainName
    · rw [← List.length_pos_iff, canonPattern_length, List.length_pos_iff]
      rintro rfl
      simp [IsRange] at hfs
    · rw [canonPattern_length]
      exact hfs.1
  have honly : HostOnly (makeHost S listid hl.hl_flags (patternText fs)) :=
    ⟨hplain, by rw [hmake], by rw [hmake]; exact hostOnlyType_byhost, by rw [hmake], by rw [hmake]⟩
  have hknown : (makeHost S listid hl.hl_flags (patternText fs)).is HT_UNKNOWN = false :=
    not_unknown_of_byhost (by rw [hmake])
  have haccept : (VA_hostIsinListX W tab left hl cl q).1 ≠ 0 ↔
      q.Vaddr.a_ints ≠ AddrZero ∧ (rangesRead fs 0).h_high ≠ 0 ∧
        InRanges (rangesRead fs) q.Vaddr.a_ints.I3 := by
    rw [hostIsinListX_single W hlist hl1 honly (by rw [hmake]) (by rw [hmake]; exact hvd)
      (by rw [hmake]), compared_of_noTextMatch W q.Vaddr hplain hknown htext, hmake]
    simp only [AddrAND_null, AddrAND_zero, ne_eq, not_true_eq_false, and_false, if_false]
    split
    · rename_i h
      rw [match_addrrange_iff]
      exact ⟨fun hr => ⟨h.1, h.2, hr⟩, fun hr => hr.2.2⟩
    · rename_i h
      simp only [Bool.false_eq_true, false_iff]
      exact fun hr => h ⟨hr.1, hr.2.1⟩
  rw [haccept, Ne, addrZero_iff]
  cases hv : isV6 q.Vaddr.a_ints with
  | true =>
    simp only [Bool.true_eq_false, false_and, not_false_eq_true, true_and, if_true, iff_false]
    rw [and_comm]
  | false =>
    simp only [true_and, Bool.false_eq_true, if_false]
    constructor
    · intro h hin
      exact h.mpr hin
    · intro h
      exact ⟨fun hr => inRanges_of_read hr.2.2, h⟩

/-- The pattern `10.[0-15].*`. -/
def mixedPattern : List Field := [.octet 10, .span 0 15, .any]

/-- The address 10.1.0.7 is in `10.[0-15].*`. -/
theorem addrRange_exact_mixed :
    IsRange mixedPattern ∧
    (((VA_hostIsinListX stillWorld noLists (HL_MAXDEPTH + 1)
        (compiledOf (patternText mixedPattern)) client80
        (askTen.at 0x0A010007)).1 ≠ 0 ↔
      isV6 (ofV4 0x0A010007) = false ∧ InRanges (rangesOf mixedPattern) 0x0A010007) ↔
    if isV6 (ofV4 0x0A010007) then
      ¬ (InRanges (rangesRead mixedPattern) 0x0A010007 ∧ (rangesRead mixedPattern 0).h_high ≠ 0)
    else InRanges (rangesOf mixedPattern) 0x0A010007 →
      (0x0A010007 : BitVec 32) ≠ 0 ∧ (rangesRead mixedPattern 0).h_high ≠ 0 ∧
        InRanges (rangesRead mixedPattern) 0x0A010007) :=
  ⟨by decide, addrRange_exact stillWorld numericSite (fun _ => 0) noLists (HL_MAXDEPTH + 1)
    (compiledOf (patternText mixedPattern)) client80 (askTen.at 0x0A010007) mixedPattern (by decide)
    (byHostList_listOf _) rfl rfl (by decide) ⟨by decide, by decide, by decide⟩⟩

/-- The query asks for the address `::1:a00:5`, whose last word is that of
10.0.0.5. -/
def askSix : Query :=
  { askTen with Vaddr := { askTen.Vaddr with a_ints := ⟨0, 0, 1, 0x0A000005⟩ } }

/-- The pattern `10.*` holds an IPv6 address, `[0-0].*` does not hold
0.0.0.1, and `10.[0-15].*` does not hold 10.1.2.3. -/
theorem addrRange_misses :
    ((VA_hostIsinListX stillWorld noLists (HL_MAXDEPTH + 1)
        (compiledOf "10.*".toList) client80 askSix).1 ≠ 0 ∧
      isV6 askSix.Vaddr.a_ints = true) ∧
    ((VA_hostIsinListX stillWorld noLists (HL_MAXDEPTH + 1) (compiledOf "[0-0].*".toList) client80
        (askTen.at 1)).1 = 0 ∧ InRanges (rangesOf [.span 0 0, .any]) 1) ∧
    ((VA_hostIsinListX stillWorld noLists (HL_MAXDEPTH + 1)
        (compiledOf "10.[0-15].*".toList) client80
        (askTen.at 0x0A010203)).1 = 0 ∧ InRanges (rangesOf mixedPattern) 0x0A010203) := by
  decide

end delegate.hostlist
