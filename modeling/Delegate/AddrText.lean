-- Elements of a host list that are written as an address: numbers, `*`
-- and ranges between dots, with or without a mask. Nothing but the
-- address and the mask is read from such a text.
import Delegate.HostCompile
import Delegate.HostElement

open ctext delegate.vaddr

namespace delegate.hostlist

/-! ## Address texts -/

def addrChar (c : Char) : Bool := c.isDigit || ".*[]-".toList.contains c

/-- The characters that an address text starts with. -/
def addrStart (c : Char) : Bool := c.isDigit || "*[".toList.contains c

/-- A dot has no dot and no `-` after it. -/
def DotOk (c d : Char) : Prop := ¬ (c = '.' ∧ (d = '.' ∨ d = '-'))

theorem dotOk_of_no_dot {s : Text} (h : '.' ∉ s) : s.IsChain DotOk := by
  induction s with
  | nil => exact List.isChain_nil
  | cons c s ih =>
    simp only [List.mem_cons, not_or] at h
    refine (ih h.2).cons fun d _ => ?_
    rintro ⟨rfl, -⟩
    exact h.1 rfl

theorem dec_length (v : BitVec 8) : (dec v.toNat).length ≤ 3 := by
  rw [dec, Nat.length_toDigits_le_iff (by decide) (by decide)]
  have := v.isLt
  omega

/-- The text is written in the characters of an address. -/
structure AddrText (t : Text) : Prop where
  chars : ∀ c ∈ t, addrChar c = true
  first : ∀ c ∈ t.head?, addrStart c = true
  nonempty : t ≠ []
  dots : t.IsChain DotOk
  last : t.getLast? ≠ some '-'
  short : t.length ≤ 1023

/-- A field of an address, followed by a dot and an address. -/
theorem AddrText.dot {f t : Text} (hf : AddrText f) (hno : '.' ∉ f) (ht : AddrText t)
    (hlen : f.length + t.length ≤ 1022) : AddrText (f ++ '.' :: t) where
  chars := by
    intro c hc
    simp only [List.mem_append, List.mem_cons] at hc
    rcases hc with hc | rfl | hc
    · exact hf.chars c hc
    · decide
    · exact ht.chars c hc
  first := by
    obtain ⟨c, s, rfl⟩ := List.exists_cons_of_ne_nil hf.nonempty
    exact hf.first
  nonempty := by simp
  dots := by
    have htail : ('.' :: t).IsChain DotOk := by
      refine ht.dots.cons fun d hd => ?_
      rintro ⟨-, rfl | rfl⟩
      · exact absurd (ht.first _ hd) (by decide)
      · exact absurd (ht.first _ hd) (by decide)
    refine hf.dots.append htail ?_
    rintro x hx y - ⟨rfl, -⟩
    exact hno (List.mem_of_getLast? hx)
  last := by
    obtain ⟨c, s, rfl⟩ := List.exists_cons_of_ne_nil ht.nonempty
    rw [List.getLast?_append, List.getLast?_cons_cons]
    have hl := ht.last
    cases h : (c :: s).getLast? with
    | none => simp at h
    | some x =>
      rw [h] at hl
      simpa using hl
  short := by
    rw [List.length_append, List.length_cons]
    omega

/-- A number of an octet is an address text. -/
theorem addrText_dec (v : BitVec 8) : AddrText (dec v.toNat) where
  chars := fun c hc => by simp [addrChar, isDigit_of_mem_dec hc]
  first := fun c hc => by simp [addrStart, isDigit_of_mem_dec (List.mem_of_mem_head? hc)]
  nonempty := dec_ne_nil _
  dots := dotOk_of_no_dot (not_mem_dec (by decide))
  last := fun h => not_mem_dec (n := v.toNat) (c := '-') (by decide) (List.mem_of_getLast? h)
  short := by
    have := dec_length v
    omega

theorem AddrText.not_mem {t : Text} (h : AddrText t) {c : Char} (hc : addrChar c = false) :
    c ∉ t := by
  intro hm
  rw [h.chars c hm] at hc
  cases hc

theorem AddrText.no_dots {t : Text} (h : AddrText t) {d : Char} (hd : d = '.' ∨ d = '-') :
    ¬ ['.', d] <:+: t := by
  intro hi
  have hc := List.IsChain.infix h.dots hi
  simp only [List.isChain_cons_cons] at hc
  exact hc.1 ⟨rfl, hd⟩

theorem AddrText.head_ne {t : Text} (h : AddrText t) {c : Char} {s : Text} (ht : t = c :: s)
    {d : Char} (hd : addrStart d = false) : c ≠ d := by
  rintro rfl
  have := h.first c (by rw [ht]; rfl)
  rw [this] at hd
  cases hd

theorem AddrText.plainName {t : Text} (h : AddrText t) : PlainName t := by
  obtain ⟨c, s, rfl⟩ := List.exists_cons_of_ne_nil h.nonempty
  refine plainName_of_ends ?_ h.last
  simp only [startsSpecial, Bool.or_eq_false_iff, beq_eq_false_iff_ne]
  exact ⟨⟨⟨h.head_ne rfl (by decide), h.head_ne rfl (by decide)⟩, h.head_ne rfl (by decide)⟩,
    h.head_ne rfl (by decide)⟩

/-! ## What is read from an address text -/

/-- An address text, alone or with a mask of numbers after it. -/
structure MaskedText (t m : Text) : Prop where
  addr : AddrText t
  mask : m = [] ∨ ∃ d, m = '/' :: d ∧ ∀ c ∈ d, c.isDigit = true

theorem MaskedText.not_mem {t m : Text} (h : MaskedText t m) {c : Char}
    (hc : addrChar c = false) (hs : c ≠ '/') : c ∉ t ++ m := by
  have hd : c.isDigit = false := by
    simp only [addrChar, Bool.or_eq_false_iff] at hc
    exact hc.1
  rw [List.mem_append, not_or]
  refine ⟨h.addr.not_mem hc, ?_⟩
  rcases h.mask with rfl | ⟨d, rfl, hm⟩
  · simp
  · rw [List.mem_cons, not_or]
    refine ⟨hs, fun hmem => ?_⟩
    rw [hm c hmem] at hd
    cases hd

/-- At most one `/` stands in the text. -/
theorem MaskedText.count_slash {t m : Text} (h : MaskedText t m) : (t ++ m).count '/' ≤ 1 := by
  have ht : t.count '/' = 0 := List.count_eq_zero.mpr (h.addr.not_mem (by decide))
  rw [List.count_append, ht]
  rcases h.mask with rfl | ⟨d, rfl, hm⟩
  · simp
  · have hd : d.count '/' = 0 := by
      refine List.count_eq_zero.mpr fun hmem => ?_
      have := hm _ hmem
      revert this
      decide
    simp [hd]

theorem splitProto_addr {t m : Text} (h : MaskedText t m) : splitProto (t ++ m) = ([], t ++ m) := by
  have hnone : strstr "://".toList (t ++ m) = none :=
    strstr_eq_none (not_infix_of_not_mem (c := ':') (by decide) (h.not_mem (by decide) (by decide)))
  simp only [splitProto, hnone, Option.isSome_none, Bool.false_eq_true, if_false]

theorem cutRoute_addr {t m : Text} (h : MaskedText t m) : cutRoute (t ++ m) = t ++ m := by
  have hnone : strstr "//".toList (t ++ m) = none := by
    refine strstr_eq_none fun hi => ?_
    have hle := hi.sublist.count_le '/'
    have hone := h.count_slash
    have htwo : ("//".toList).count '/' = 2 := by decide
    omega
  simp only [cutRoute, hnone]

theorem scanVdomain_addr {t m : Text} (h : MaskedText t m) : scanVdomain (t ++ m) = none := by
  have hchain : (t ++ m).IsChain DotOk := by
    rcases h.mask with rfl | ⟨d, rfl, hm⟩
    · simpa using h.addr.dots
    · have hno : '.' ∉ '/' :: d := by
        rw [List.mem_cons, not_or]
        refine ⟨by decide, fun hc => ?_⟩
        have := hm _ hc
        revert this
        decide
      refine h.addr.dots.append (dotOk_of_no_dot hno) ?_
      intro x _ y hy
      simp only [List.head?_cons, Option.mem_def, Option.some.injEq] at hy
      subst hy
      rintro ⟨-, h1 | h1⟩ <;> cases h1
  have hnone : strstr ['.', '-'] (t ++ m) = none := by
    refine strstr_eq_none fun hi => ?_
    have hc := List.IsChain.infix hchain hi
    simp only [List.isChain_cons_cons] at hc
    exact hc.1 ⟨rfl, .inr rfl⟩
  simp only [scanVdomain, hnone]

theorem scanOp_addr {t m : Text} (h : MaskedText t m) : scanOp (t ++ m) = (.ON_EQ, t ++ m) := by
  obtain ⟨c, s, rfl⟩ := List.exists_cons_of_ne_nil h.addr.nonempty
  have h1 : c ≠ '!' := h.addr.head_ne rfl (by decide)
  have h2 : c ≠ '+' := h.addr.head_ne rfl (by decide)
  rw [List.cons_append]
  unfold scanOp
  split
  · rename_i heq
    exact absurd (List.cons.inj heq).1 h1
  · unfold scanOp1
    split
    · rename_i heq
      exact absurd (List.cons.inj heq).1 h1
    · rename_i heq
      exact absurd (List.cons.inj heq).1 h2
    · rfl

theorem scanTypes_addr {t m : Text} (h : MaskedText t m) : scanTypes (t ++ m) = (0, t ++ m) := by
  obtain ⟨c, s, rfl⟩ := List.exists_cons_of_ne_nil h.addr.nonempty
  have h1 : c ≠ '-' := h.addr.head_ne rfl (by decide)
  rw [List.cons_append]
  unfold scanTypes
  split
  · rename_i heq
    exact absurd (List.cons.inj heq).1 h1
  · rfl

theorem addr_ne_operator {t m : Text} (h : MaskedText t m) {d : Char} (hd : addrStart d = false) :
    t ++ m ≠ [d] := by
  obtain ⟨c, s, rfl⟩ := List.exists_cons_of_ne_nil h.addr.nonempty
  intro heq
  exact h.addr.head_ne rfl hd (List.cons.inj heq).1

theorem splitUsers_addr {t : Text} (h : AddrText t) : splitUsers t = none := by
  simp only [splitUsers, afterChr_eq_none (h.not_mem (c := '@') (by decide)), Option.map_none]

theorem insertAny_addr {t : Text} (h : AddrText t) : insertAny t = t := by
  obtain ⟨c, s, rfl⟩ := List.exists_cons_of_ne_nil h.nonempty
  have h1 : '-' ≠ c := (h.head_ne rfl (by decide)).symm
  simp [insertAny, HostIncomingIFX, List.isPrefixOf, h1]

theorem scanPorts_addr {t : Text} (h : AddrText t) : scanPorts t = (t, none) := by
  have hcolon := afterChr_eq_none (h.not_mem (c := ':') (by decide))
  have hdots : strstr "..".toList t = none := strstr_eq_none (h.no_dots (.inl rfl))
  simp only [scanPorts, hcolon, hdots]

/-- The element of an address text: only the name and the mask are read. -/
theorem makeHost_addr (S : Site) (listid : Text → Nat) (flags : BitVec 16) {t m : Text}
    (h : MaskedText t m) (hf : flags &&& HL_BYAGENT = 0)
    (hv : scanVersion (canonWildcardAddr t) = (0, canonWildcardAddr t)) :
    makeHost S listid flags (t ++ m) =
      setName S listid flags { h_mask := (scanMask S (t ++ m)).2, h_type := HT_BYHOST }
        (canonWildcardAddr t) := by
  have hhost : (scanMask S (t ++ m)).1 = t := by
    have hs : '/' ∉ t := h.addr.not_mem (by decide)
    rcases h.mask with rfl | ⟨d, rfl, -⟩
    · simp [scanMask, afterChr_eq_none hs]
    · simp [scanMask, afterChr_append hs, beforeChr_append hs]
  have hdot : t ≠ ['.'] := by
    have := addr_ne_operator (m := []) ⟨h.addr, .inl rfl⟩ (d := '.') (by decide)
    simpa using this
  unfold makeHost
  simp only [splitProto_addr h, cutRoute_addr h, addr_ne_operator h (d := '&') (by decide),
    addr_ne_operator h (d := '|') (by decide), addr_ne_operator h (d := '!') (by decide),
    scanOp_addr h, scanVdomain_addr h, scanTypes_addr h, hf, if_false]
  unfold makeHostOf
  rw [show scanMask S (t ++ m) = (t, (scanMask S (t ++ m)).2) from Prod.ext hhost rfl]
  simp only [hdot, if_false, List.take_of_length_le h.addr.short, splitUsers_addr h.addr,
    insertAny_addr h.addr, scanPorts_addr h.addr, hv]
  have htype : defaultType 0#16 false = HT_BYHOST := by decide
  simp [htype]

theorem scanVersion_addr {t : Text} (h : AddrText t) : scanVersion t = (0, t) := by
  obtain ⟨c, s, rfl⟩ := List.exists_cons_of_ne_nil h.nonempty
  have hc : c ≠ '_' := h.head_ne rfl (by decide)
  unfold scanVersion
  split
  all_goals first | rfl | (rename_i heq; exact absurd (List.cons.inj heq).1 hc)

/-- An address text is a range, a pattern, or an address to resolve. -/
theorem setName_addr {S : Site} {listid : Text → Nat} {flags : BitVec 16} {Hp : Host} {t : Text}
    (h : AddrText t) (hid : listid t = 0) :
    setName S listid flags Hp t =
      if t.contains '[' then { Hp with h_name := t, ranges := scan_addrrange t }
      else if t.contains '*' then { Hp with h_name := t }
      else if flags &&& HL_BYNAMEONLY ≠ 0 then { Hp with h_name := t, h_asis := true }
      else
        match S.gethostVAddr t with
        | none => { Hp with h_name := t }
        | some (primaryname, addr) =>
          { Hp with h_name := if primaryname ≠ [] then primaryname else t, h_Addr := addr,
                    h_mask := default_netmask Hp.h_mask addr } := by
  have hp := h.plainName
  have hquest : t ≠ ['?'] := by
    simpa using addr_ne_operator (m := []) ⟨h, .inl rfl⟩ (d := '?') (by decide)
  have htail : strtailstr t ".-".toList = false := by
    rw [Bool.eq_false_iff]
    intro hs
    obtain ⟨u, rfl⟩ := List.isSuffixOf_iff_suffix.mp hs
    exact h.last (by simp)
  obtain ⟨c, s, rfl⟩ := List.exists_cons_of_ne_nil h.nonempty
  have hdash : c ≠ '-' := h.head_ne rfl (by decide)
  have hunder : c ≠ '_' := h.head_ne rfl (by decide)
  have hclif : HostIncomingIFX (c :: s) = false := by
    simp [HostIncomingIFX, List.isPrefixOf, hdash.symm]
  have hset : "__".toList.isPrefixOf (c :: s) = false := by
    simp [List.isPrefixOf, hunder.symm]
  have hhead : (c :: s).head? ≠ some '-' := by simpa using hdash
  unfold setName
  cases S.gethostVAddr (c :: s) <;>
    simp only [hp.expire, hid, hp.clientside, hclif, hp.incoming, hp.outgoing, hp.period, hhead,
      hset, hquest, htail, Bool.false_eq_true, if_false, ne_eq, not_true_eq_false,
      Bool.or_self, Bool.or_false, decide_false, Bool.false_and]

/-! ## A list of one element -/

/-- The list looks at the address and the names of the host asked for. -/
structure ByHostList (hl : HostList) : Prop where
  clhost : hl.has HL_BYCLHOST = false
  auth : hl.has HL_BYAUTH = false
  agent : hl.has HL_BYAGENT = false
  named : hl.has HL_BYNAMEONLY = false

variable (W : World)

/-- A list of one element holds the hosts that the element matches. -/
theorem hostIsinListX_single {tab : Nat → HostList} {left : Nat} {hl : HostList} {cl : ClientInfo}
    {q : Query} {e : Host} (hlist : hl.hl_List = [e]) (hf : ByHostList hl) (he : HostOnly e)
    (hop : e.h_op = .ON_EQ) (hvd : (namesIn hl cl q).vdom = e.h_vdomain) (hport : e.h_port = none) :
    (VA_hostIsinListX W tab left hl cl q).1 ≠ 0 ↔
      compared W (frameIn hl cl q (nestedAt W tab left cl q)) q.Vaddr e = true := by
  have hidle : idle (namesIn hl cl q) false e = false := by simp [idle, hvd, hop]
  have heval := evalHost_of_hostOnly W (F := frameIn hl cl q (nestedAt W tab left cl q))
    (carryIn hl cl q) hf.agent hf.auth he
  rw [hport, Option.all_none, Bool.and_true] at heval
  have hhost : (carryIn hl cl q).hosti = q.Vaddr := by simp [carryIn, hf.clhost]
  rw [hhost] at heval
  rw [VA_hostIsinListX_eq, hlist]
  simp only [hf.auth, Bool.false_and, Bool.false_eq_true, if_false, walk, List.foldl_cons,
    List.foldl_nil]
  have hnm : (frameIn hl cl q (nestedAt W tab left cl q)).nm = namesIn hl cl q := rfl
  simp only [step, start, hop, hnm, hidle, heval, Bool.false_eq_true, if_false, Walk.result, accum]
  cases compared W (frameIn hl cl q (nestedAt W tab left cl q)) q.Vaddr e <;> simp

end delegate.hostlist
