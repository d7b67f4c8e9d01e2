-- The elements `a/n` of a host list: the network of the address `a` and
-- the prefix length `n`.
import Delegate.AddrText
import Delegate.HostFormula

open ctext delegate.vaddr

namespace delegate.hostlist

/-! ## The element -/

/-- An IPv4 address as a text. -/
def dotted (a : BitVec 32) : Text :=
  ['.'].intercalate ((List.finRange 4).map fun ai => dec (octet a ai).toNat)

theorem dotted_eq (a : BitVec 32) :
    dotted a = dec (octet a 0).toNat ++ '.' :: (dec (octet a 1).toNat ++ '.' ::
      (dec (octet a 2).toNat ++ '.' :: dec (octet a 3).toNat)) := by
  have hfin : List.finRange 4 = [0, 1, 2, 3] := by decide
  simp [dotted, hfin, List.intercalate]

/-- The text `a/n`. -/
def prefixText (a : BitVec 32) (n : Nat) : Text := dotted a ++ '/' :: dec n

theorem addrText_dotted (a : BitVec 32) : AddrText (dotted a) := by
  have hno : ∀ v : BitVec 8, '.' ∉ dec v.toNat := fun _ => not_mem_dec (by decide)
  have l0 := dec_length (octet a 0)
  have l1 := dec_length (octet a 1)
  have l2 := dec_length (octet a 2)
  have l3 := dec_length (octet a 3)
  rw [dotted_eq]
  have h23 := (addrText_dec (octet a 2)).dot (hno _) (addrText_dec (octet a 3)) (by omega)
  have h123 := (addrText_dec (octet a 1)).dot (hno _) h23
    (by simp only [List.length_append, List.length_cons]; omega)
  exact (addrText_dec (octet a 0)).dot (hno _) h123
    (by simp only [List.length_append, List.length_cons]; omega)

theorem digits_or_dot_of_dotted {a : BitVec 32} {c : Char} (h : c ∈ dotted a) :
    c.isDigit = true ∨ c = '.' := by
  rw [dotted_eq] at h
  simp only [List.mem_append, List.mem_cons] at h
  rcases h with h | rfl | h | rfl | h | rfl | h
  all_goals first | exact .inr rfl | exact .inl (isDigit_of_mem_dec h)

theorem not_mem_dotted {a : BitVec 32} {c : Char} (hd : c.isDigit = false) (hc : c ≠ '.') :
    c ∉ dotted a := by
  intro h
  rcases digits_or_dot_of_dotted h with h1 | h1
  · rw [h1] at hd
    cases hd
  · exact hc h1

theorem maskedText_net (a : BitVec 32) (n : Nat) : MaskedText (dotted a) ('/' :: dec n) :=
  ⟨addrText_dotted a, .inr ⟨dec n, rfl, fun _ hc => isDigit_of_mem_dec hc⟩⟩

theorem canonWildcardAddr_dotted (a : BitVec 32) : canonWildcardAddr (dotted a) = dotted a := by
  have h : (dotted a).contains '*' = false := by
    simpa using not_mem_dotted (a := a) (c := '*') (by decide) (by decide)
  rw [canonWildcardAddr, h, Bool.false_and]
  rfl

/-- The name of an address is resolved, whatever the flags for elements of
other kinds. -/
theorem setName_dotted {S : Site} {listid : Text → Nat} {flags : BitVec 16} {Hp : Host}
    {a : BitVec 32} {primaryname : Text} {addr : Addr} (hf : flags &&& HL_BYNAMEONLY = 0)
    (hid : listid (dotted a) = 0) (hres : S.gethostVAddr (dotted a) = some (primaryname, addr)) :
    setName S listid flags Hp (dotted a) =
      { Hp with h_name := if primaryname ≠ [] then primaryname else dotted a, h_Addr := addr,
                h_mask := default_netmask Hp.h_mask addr } := by
  have hstar : '*' ∉ dotted a := not_mem_dotted (by decide) (by decide)
  have hopen : '[' ∉ dotted a := not_mem_dotted (by decide) (by decide)
  rw [setName_addr (addrText_dotted a) hid]
  simp [hstar, hopen, hf, hres]

/-! ## The mask -/

/-- The mask that the code lays over the last word for the length `n`. -/
def prefixMask (n : Nat) : BitVec 32 := 0xFFFFFFFF#32 <<< (32 - n)

theorem isnetmasklen_dec : ∀ n < 33, 1 ≤ n → isnetmasklen (dec n) = if n ≤ 31 then (n : Int) else 0 := by
  decide

/-- A length of 32 is not a prefix length for the code: its text is read as
the address 0.0.0.32. -/
theorem maskOf_dec (S : Site) {host : Text} {n : Nat} (hh : TimePeriod host = false) (h1 : 1 ≤ n)
    (h2 : n ≤ 32) :
    maskOf S host (dec n) =
      if n ≤ 31 then { MaskZero with I3 := prefixMask n } else ofV4 32 := by
  have hlen := isnetmasklen_dec n (by omega) h1
  by_cases hn : n ≤ 31
  · rw [if_pos hn] at hlen ⊢
    have hne : n ≠ 0 := by omega
    simp [maskOf, hh, hlen, hne, prefixMask]
  · have h32 : n = 32 := by omega
    subst h32
    have haddr : VSA_strisaddr S.pton6 (dec 32) = true := by
      have : inet_aton (dec 32) = some 32 := by decide
      simp [VSA_strisaddr, this, dec_ne_nil]
      decide
    have hval : VA_strtoVAddr S.pton6 (dec 32) = some (ofV4 32) := by
      have : inet_addrV4 (dec 32) = some 32 := by decide
      simp [VA_strtoVAddr, this]
    have hdot : dec 32 ≠ ['.'] := by decide
    simp [maskOf, hh, hlen, hdot, haddr, hval]

/-- The word that is laid over addresses for the element `a/n`. -/
def prefixWord (n : Nat) : BitVec 32 := if n ≤ 31 then prefixMask n else 32

def prefixMaskAddr (n : Nat) : Addr :=
  if n ≤ 31 then { MaskZero with I3 := prefixMask n } else ofV4 32

theorem prefixMaskAddr_I3 (n : Nat) : (prefixMaskAddr n).I3 = prefixWord n := by
  unfold prefixMaskAddr prefixWord
  split <;> rfl

theorem prefixWord_plain : ∀ n < 33, 1 ≤ n → prefixWord n ≠ CLASS_MASK ∧ prefixWord n ≠ HEURISTIC_MASK := by
  decide

/-- The compiled element. -/
theorem makeHost_net {S : Site} {listid : Text → Nat} {flags : BitVec 16} {a : BitVec 32} {n : Nat}
    {primaryname : Text} (hag : flags &&& HL_BYAGENT = 0) (hnm : flags &&& HL_BYNAMEONLY = 0)
    (h1 : 1 ≤ n) (h2 : n ≤ 32) (hid : listid (dotted a) = 0)
    (hres : S.gethostVAddr (dotted a) = some (primaryname, ofV4 a)) :
    makeHost S listid flags (prefixText a n) =
      { h_name := if primaryname ≠ [] then primaryname else dotted a, h_Addr := ofV4 a,
        h_mask := prefixMaskAddr n, h_type := HT_BYHOST } := by
  have hmask : (scanMask S (dotted a ++ '/' :: dec n)).2 = prefixMaskAddr n := by
    have hs : '/' ∉ dotted a := not_mem_dotted (by decide) (by decide)
    simp only [scanMask, afterChr_append hs, beforeChr_append hs]
    rw [maskOf_dec S (addrText_dotted a).plainName.period h1 h2]
    rfl
  have hplain := prefixWord_plain n (by omega) h1
  rw [← prefixMaskAddr_I3] at hplain
  unfold prefixText
  rw [makeHost_addr S listid flags (maskedText_net a n) hag
    (by rw [canonWildcardAddr_dotted]; exact scanVersion_addr (addrText_dotted a)),
    canonWildcardAddr_dotted, setName_dotted hnm hid hres, hmask,
    default_netmask_of_plain rfl hplain.1 hplain.2]

/-! ## The hosts of a network -/

/-- The first `n` bits of two addresses are equal. -/
def SameFirst (n : Nat) (a b : BitVec 32) : Prop := ∀ i < n, a.getMsbD i = b.getMsbD i

theorem getMsbD_prefixMask {n : Nat} (hn : n ≤ 32) (i : Nat) :
    (prefixMask n).getMsbD i = decide (i < n) := by
  have hall : 0xFFFFFFFF#32 = BitVec.allOnes 32 := by decide
  rw [prefixMask, hall, BitVec.getMsbD_shiftLeft, BitVec.getMsbD_allOnes]
  congr 1
  rw [eq_iff_iff]
  omega

theorem and_prefixMask_eq_iff {n : Nat} (hn : n ≤ 32) (a b : BitVec 32) :
    a &&& prefixMask n = b &&& prefixMask n ↔ SameFirst n a b := by
  constructor
  · intro h i hi
    have hbit := congrArg (fun x => x.getMsbD i) h
    simpa [getMsbD_prefixMask hn, hi] using hbit
  · intro h
    refine BitVec.eq_of_getMsbD_eq fun i hi => ?_
    rw [BitVec.getMsbD_and, BitVec.getMsbD_and, getMsbD_prefixMask hn]
    by_cases hin : i < n
    · rw [h i hin]
    · simp [hin]

theorem and_prefixMask_ne_zero_iff {n : Nat} (hn : n ≤ 32) (a : BitVec 32) :
    a &&& prefixMask n ≠ 0 ↔ ∃ i < n, a.getMsbD i = true := by
  have hz : (0 : BitVec 32) = 0 &&& prefixMask n := by simp
  rw [hz, Ne, and_prefixMask_eq_iff hn]
  simp [SameFirst]

/-- The word of the length 32 does not see the last bit. -/
theorem and_prefixWord_32 (a : BitVec 32) : (a ^^^ 1) &&& prefixWord 32 = a &&& prefixWord 32 := by
  have h : (1 : BitVec 32) &&& prefixWord 32 = 0 := by decide
  ext i hi
  have hbit := congrArg (fun x => x.getLsbD i) h
  simp only [BitVec.getLsbD_and] at hbit
  simp only [← BitVec.getLsbD_eq_getElem, BitVec.getLsbD_and, BitVec.getLsbD_xor]
  revert hbit
  cases (1 : BitVec 32).getLsbD i <;> cases (prefixWord 32).getLsbD i <;> simp

variable (W : World)

/-- The element is compared with an IPv4 address under its mask. A masked
value of zero never matches. -/
theorem compared_net {F : Frame} {v : VAddr} {e : Host} {n : Nat} {a b : BitVec 32}
    (hname : PlainName e.h_name) (ht : NoTextMatch F e) (htype : e.h_type = HT_BYHOST)
    (haddr : e.h_Addr = ofV4 a) (hmask : e.h_mask = prefixMaskAddr n)
    (hrange : (e.ranges 0).h_high = 0) (hv : v.a_ints = ofV4 b) :
    compared W F v e = true ↔
      b &&& prefixWord n = a &&& prefixWord n ∧ a &&& prefixWord n ≠ 0 := by
  have hu := not_unknown_of_byhost htype
  have hb : AddrAND (ofV4 b) (prefixMaskAddr n) = ofV4 (b &&& prefixWord n) := by
    simp [AddrAND, ofV4, prefixMaskAddr_I3]
  have ha : AddrAND (prefixMaskAddr n) (ofV4 a) = ofV4 (a &&& prefixWord n) := by
    simp [AddrAND, ofV4, prefixMaskAddr_I3, BitVec.and_comm]
  have hz : ∀ x, ofV4 x = AddrZero ↔ x = 0 := by
    intro x
    simp [ofV4, AddrZero]
  have hinj : ∀ x y, ofV4 x = ofV4 y ↔ x = y := by
    intro x y
    simp [ofV4]
  rw [compared_of_noTextMatch W v hname hu ht, hv, haddr, hmask, hb, ha]
  simp only [hrange, ne_eq, hz, hinj, not_true_eq_false, and_false, if_false]
  split
  · rename_i h
    rw [decide_eq_true_iff]
    exact ⟨fun heq => ⟨heq, h.2⟩, fun h' => h'.1⟩
  · rename_i h
    simp only [Bool.false_eq_true, false_iff, not_and, not_not]
    intro heq
    rw [heq] at h
    simpa using h

/-- The query asks for the address `b`. -/
def Query.at (q : Query) (b : BitVec 32) : Query :=
  { q with Vaddr := { q.Vaddr with a_ints := ofV4 b } }

/-- The element `a/n` holds exactly the addresses with the first `n` bits
of `a` when `n` is not 32 and these bits are not all zero. In every other
case some address is judged wrong. -/
theorem netPrefix_exact (S : Site) (listid : Text → Nat) (tab : Nat → HostList) (left : Nat)
    (hl : HostList) (cl : ClientInfo) (q : Query) (a : BitVec 32) (n : Nat) (primaryname : Text)
    (h1 : 1 ≤ n) (h2 : n ≤ 32) (hl1 : ByHostList hl) (hid : listid (dotted a) = 0)
    (hres : S.gethostVAddr (dotted a) = some (primaryname, ofV4 a))
    (hprim : primaryname = [] ∨ PlainName primaryname)
    (hlist : hl.hl_List = [makeHost S listid hl.hl_flags (prefixText a n)])
    (hvd : (namesIn hl cl q).vdom = none)
    (htext : NoTextMatch (frameIn hl cl q (nestedAt W tab left cl q))
      (makeHost S listid hl.hl_flags (prefixText a n))) :
    (∀ b : BitVec 32,
      (VA_hostIsinListX W tab left hl cl (q.at b)).1 ≠ 0 ↔ SameFirst n a b) ↔
    n ≤ 31 ∧ ∃ i < n, a.getMsbD i = true := by
  have hag : hl.hl_flags &&& HL_BYAGENT = 0 := by simpa [HostList.has] using hl1.agent
  have hnm : hl.hl_flags &&& HL_BYNAMEONLY = 0 := by simpa [HostList.has] using hl1.named
  have hmake := makeHost_net hag hnm h1 h2 hid hres
  have hname : PlainName (makeHost S listid hl.hl_flags (prefixText a n)).h_name := by
    rw [hmake]
    simp only
    split
    · rename_i hne
      exact hprim.resolve_left hne
    · exact (addrText_dotted a).plainName
  have haccept : ∀ b, (VA_hostIsinListX W tab left hl cl (q.at b)).1 ≠ 0 ↔
      b &&& prefixWord n = a &&& prefixWord n ∧ a &&& prefixWord n ≠ 0 := by
    intro b
    have honly : HostOnly (makeHost S listid hl.hl_flags (prefixText a n)) :=
      ⟨hname, by rw [hmake], by rw [hmake]; exact hostOnlyType_byhost, by rw [hmake], by rw [hmake]⟩
    rw [hostIsinListX_single W hlist hl1 honly (by rw [hmake]) (by rw [hmake]; exact hvd)
      (by rw [hmake])]
    exact compared_net W hname ⟨htext.domain, htext.exactly, htext.pattern⟩ (by rw [hmake])
      (by rw [hmake]) (by rw [hmake]) (by rw [hmake]) rfl
  simp only [haccept]
  by_cases hn : n ≤ 31
  · have hword : prefixWord n = prefixMask n := by simp [prefixWord, hn]
    simp only [hword, and_prefixMask_eq_iff h2, and_prefixMask_ne_zero_iff h2]
    constructor
    · intro h
      exact ⟨hn, ((h a).mpr fun _ _ => rfl).2⟩
    · rintro ⟨-, hbit⟩ b
      exact ⟨fun h i hi => (h.1 i hi).symm, fun h => ⟨fun i hi => (h i hi).symm, hbit⟩⟩
  · have h32 : n = 32 := by omega
    subst h32
    refine ⟨fun h => ?_, fun h => absurd h.1 hn⟩
    -- the last bit is not looked at
    have hself := ((h a).mpr fun _ _ => rfl).2
    have hother : SameFirst 32 a (a ^^^ 1) := by
      refine (h _).mp ⟨?_, hself⟩
      exact and_prefixWord_32 a
    have hlast := hother 31 (by decide)
    have hone : (1 : BitVec 32).getMsbD 31 = true := by decide
    rw [BitVec.getMsbD_xor, hone] at hlast
    exact absurd hlast (by cases a.getMsbD 31 <;> decide)

/-- A site that resolves addresses to themselves and knows no names. -/
def numericSite : Site where
  pton6 := fun _ => none
  gethostVAddr := fun t => (inet_aton t).map fun w => ([], ofV4 w)
  hostname := "localhost".toList
  isMYSELF := fun _ => false

/-- The list of one element, from its text. -/
def compiledOf (text : Text) : HostList := listOf [makeHost numericSite (fun _ => 0) 0 text]

theorem byHostList_listOf (es : List Host) : ByHostList (listOf es) where
  clhost := by simp [HostList.has, listOf]
  auth := by simp [HostList.has, listOf]
  agent := by simp [HostList.has, listOf]
  named := by simp [HostList.has, listOf]

/-- The element `10.0.0.0/8`. -/
theorem netPrefix_exact_ten :
    (∀ b : BitVec 32, (VA_hostIsinListX stillWorld noLists (HL_MAXDEPTH + 1)
        (compiledOf (prefixText 0x0A000000 8))
      client80 (askTen.at b)).1 ≠ 0 ↔ SameFirst 8 0x0A000000 b) ↔
    8 ≤ 31 ∧ ∃ i < 8, (0x0A000000 : BitVec 32).getMsbD i = true :=
  netPrefix_exact stillWorld numericSite (fun _ => 0) noLists (HL_MAXDEPTH + 1)
    (compiledOf (prefixText 0x0A000000 8)) client80 askTen 0x0A000000 8 [] (by decide) (by decide)
    (byHostList_listOf _) rfl (by decide) (.inl rfl) rfl (by decide)
    ⟨by decide, by decide, by decide⟩

/-- The element `10.0.0.5/32` does not hold 10.0.0.5, and `0.0.0.1/8` does
not hold 0.0.0.2. -/
theorem netPrefix_misses :
    ¬ (∀ b : BitVec 32, (VA_hostIsinListX stillWorld noLists (HL_MAXDEPTH + 1)
        (compiledOf "10.0.0.5/32".toList) client80 (askTen.at b)).1 ≠ 0 ↔
      SameFirst 32 0x0A000005 b) ∧
    ¬ (∀ b : BitVec 32, (VA_hostIsinListX stillWorld noLists (HL_MAXDEPTH + 1)
        (compiledOf "0.0.0.1/8".toList) client80 (askTen.at b)).1 ≠ 0 ↔
      SameFirst 8 1 b) := by
  refine ⟨fun h => ?_, fun h => ?_⟩
  · exact absurd ((h 0x0A000005).mpr fun _ _ => rfl) (by decide)
  · exact absurd ((h 2).mpr (by unfold SameFirst; decide)) (by decide)

end delegate.hostlist
