-- The elements of a host list that look at the host alone: no user, no
-- protocol, no named list and no interface. What such an element says
-- about a host is the comparison of the host with it, and the port.
import Delegate.HostMatch

open ctext gates delegate.vaddr

namespace delegate.hostlist

variable (W : World)

/-! ## Plain names -/

/-- The name stands for no special kind of element. -/
structure PlainName (hp : Text) : Prop where
  expire : isExpire hp = false
  period : TimePeriod hp = false
  self : strcaseeq hp "--self".toList = false
  mx : strcaseeq (hp.take 3) "_mx".toList = false
  group : isAddrGroup hp = false
  clientside : HostOnClientside hp = false
  outgoing : HostOutgoingIF hp = false
  incoming : HostIncomingIF hp = false
  unknown : HostUnknown hp = false
  cantResolve : CantResolve hp = false

/-- The characters that start the name of a special element. -/
def startsSpecial (c : Char) : Bool := c == '-' || c == '.' || c == '?' || c == '_'

/-- A text of another first character is another text. -/
theorem strcaseeq_of_head {c d : Char} {s t : Text} (hd : d.isAlpha = false) (hl : d.toLower = d)
    (h : c ≠ d) : strcaseeq (c :: s) (d :: t) = false := by
  rw [strcaseeq, beq_eq_false_iff_ne]
  intro heq
  rw [List.map_cons, List.map_cons, hl] at heq
  exact h (eq_of_toLower_eq hd (List.cons.inj heq).1)

theorem isAddrGroup_last {hp : Text} (h : isAddrGroup hp = true) : hp.getLast? = some '-' := by
  unfold isAddrGroup at h
  simp only [Bool.or_eq_true, strtailstr, List.isSuffixOf_iff_suffix] at h
  rcases h with ((h | h) | h) | h <;> obtain ⟨t, rfl⟩ := h <;> simp

/-- A name with an ordinary first and last character is plain. -/
theorem plainName_of_ends {c : Char} {s : Text} (hc : startsSpecial c = false)
    (hl : (c :: s).getLast? ≠ some '-') : PlainName (c :: s) := by
  simp only [startsSpecial, Bool.or_eq_false_iff, beq_eq_false_iff_ne] at hc
  obtain ⟨⟨⟨h1, h2⟩, h3⟩, h4⟩ := hc
  have hgroup : isAddrGroup (c :: s) = false := by
    by_contra h
    exact hl (isAddrGroup_last (by simpa using h))
  exact {
    expire := by simp [isExpire, List.isPrefixOf, h1.symm]
    period := by simp [TimePeriod, List.isPrefixOf, h1.symm]
    self := strcaseeq_of_head rfl rfl h1
    mx := strcaseeq_of_head rfl rfl h4
    group := hgroup
    clientside := by simp [HostOnClientside, h1, h2]
    outgoing := by simp [HostOutgoingIF, h2]
    incoming := by simp [HostIncomingIF, h1, h2]
    unknown := by simp [HostUnknown, h3]
    cantResolve := by simp [CantResolve, h3] }

/-! ## Elements that look at the host alone -/

/-- The type says to compare the host, and nothing else. -/
def hostOnlyType (t : BitVec 16) : Bool :=
  t != HT_BYAGENT && t &&& (HT_IPV4 ||| HT_IPV6) == 0 && t &&& HT_CLIF == 0 &&
    t &&& HT_RIDPEER == 0 && t &&& HT_BYFILE == 0 && t &&& HT_BYHOST != 0 &&
    t &&& (HT_BYAUTH ||| HT_BYCERT) == 0

theorem hostOnlyType_byhost : hostOnlyType HT_BYHOST = true := by decide

theorem hostOnlyType_unknown : hostOnlyType (HT_BYHOST ||| HT_UNKNOWN) = true := by decide

theorem not_unknown_of_byhost {e : Host} (h : e.h_type = HT_BYHOST) : e.is HT_UNKNOWN = false := by
  rw [Host.is, h]
  decide

/-- The element compares the host with a name, an address or a range, and
then looks at the port. -/
structure HostOnly (e : Host) : Prop where
  name : PlainName e.h_name
  listid : e.h_listid = 0
  type : hostOnlyType e.h_type = true
  proto : e.h_proto = none
  user : e.h_user = none

theorem HostOnly.types {e : Host} (h : HostOnly e) :
    e.h_type ≠ HT_BYAGENT ∧ e.is (HT_IPV4 ||| HT_IPV6) = false ∧ e.is HT_CLIF = false ∧
      e.is HT_RIDPEER = false ∧ e.is HT_BYFILE = false ∧ e.is HT_BYHOST = true ∧
      e.byuser = false := by
  have ht := h.type
  simp only [hostOnlyType, Bool.and_eq_true, bne_iff_ne, beq_iff_eq] at ht
  obtain ⟨⟨⟨⟨⟨⟨h1, h2⟩, h3⟩, h4⟩, h5⟩, h6⟩, h7⟩ := ht
  refine ⟨h1, ?_, ?_, ?_, ?_, ?_, ?_⟩ <;> simp_all [Host.is, Host.byuser]

/-- The comparison of the host with the element. -/
def compared (F : Frame) (hosti : VAddr) (e : Host) : Bool :=
  matchByHost W F.nm e hosti (F.hostname e) (F.isAlias e) (AddrAND hosti.a_ints e.h_mask)
    (AddrAND e.h_mask e.h_Addr)

theorem evalEarly_of_hostOnly {F : Frame} {e : Host} (c : Carry) (hF : F.byagent = false)
    (h : HostOnly e) : evalEarly W F c e = none := by
  obtain ⟨hag, hv, -⟩ := h.types
  have hn := h.name
  unfold evalEarly
  simp only [hn.expire, hF, hag, Frame.otherIP, hv, h.listid, hn.period, hn.self, hn.mx, hn.group,
    Bool.false_eq_true, if_false, decide_false, Bool.or_self, Bool.false_and, ne_eq,
    not_true_eq_false]

theorem sidesOf_of_hostOnly {e : Host} (cl : ClientInfo) (c : Carry) (h : HostOnly e) :
    sidesOf W cl c e = some ⟨e.h_mask, AddrAND e.h_mask e.h_Addr, none⟩ := by
  obtain ⟨-, -, hclif, hrid, -⟩ := h.types
  simp [sidesOf, h.name.clientside, h.name.outgoing, hclif, hrid, h.name.incoming]

/-- What such an element says in a list that is not by authentication or by
agent. The loop variables stay as they are. -/
theorem evalHost_of_hostOnly {F : Frame} {e : Host} (c : Carry) (hag : F.byagent = false)
    (hau : F.byauth = false) (h : HostOnly e) :
    evalHost W F c e =
      (.verdict (compared W F c.hosti e &&
        e.h_port.all (fun l => c.portnum = 0 || matchPort l c.portnum)), c) := by
  obtain ⟨-, -, -, -, hfile, hhost, huser⟩ := h.types
  unfold evalHost
  rw [evalEarly_of_hostOnly W c hag h, sidesOf_of_hostOnly W F.cl c h]
  simp [evalSides, Carry.place, hau, hfile, hhost, evalNamed, usedName, h.user, exitByhost,
    huser, userport, h.proto, compared]
  rfl

/-! ## Hosts that do not match as texts -/

/-- The name of the element and the names of the host do not match. -/
structure NoTextMatch (F : Frame) (e : Host) : Prop where
  domain : ("*.".toList.isPrefixOf e.h_name && strcaseeq (e.h_name.drop 2) (F.hostname e)) = false
  exactly : strcaseeq e.h_name (F.hostname e) = false
  pattern : matchName F.nm e (F.hostname e) (F.isAlias e) = false

/-- Without a match of the texts the addresses are compared: with the
address of the element, or else with its range. -/
theorem compared_of_noTextMatch {F : Frame} {e : Host} (v : VAddr) (h : PlainName e.h_name)
    (hu : e.is HT_UNKNOWN = false) (ht : NoTextMatch F e) :
    compared W F v e =
      (let ahost := AddrAND v.a_ints e.h_mask
       let chost := AddrAND e.h_mask e.h_Addr
       if ahost ≠ AddrZero ∧ chost ≠ AddrZero then decide (ahost = chost)
       else if ahost ≠ AddrZero ∧ (e.ranges 0).h_high ≠ 0 then match_addrrange e ahost
       else false) := by
  unfold compared matchByHost
  simp only [h.cantResolve, hu, h.unknown, ht.domain, ht.exactly, ht.pattern, Bool.or_self,
    Bool.false_and, Bool.false_eq_true, if_false]

/-- A pattern without `*` matches no shorter text. -/
theorem rexpLoop_longer {ic : Bool} (n : Nat) (rp sp : Text) (hs : '*' ∉ rp)
    (hl : sp.length < rp.length) : rexpLoop ic n rp sp none = false := by
  induction n generalizing rp sp with
  | zero => rfl
  | succ n ih =>
    rcases rp with _ | ⟨p, r⟩
    · simp at hl
    · have hp : p ≠ '*' := by rintro rfl; simp at hs
      rcases sp with _ | ⟨c, s⟩
      · simp [rexpLoop, hp]
      · have hrest := ih r s (fun h => hs (List.mem_cons_of_mem _ h)) (by simpa using hl)
        simp [rexpLoop, hp, hrest]

theorem rexpmatch_longer {rexp str : Text} (hs : '*' ∉ rexp) (hl : str.length < rexp.length) :
    rexpmatch rexp str = false := rexpLoop_longer _ _ _ hs hl

theorem strcaseeq_longer {a b : Text} (hl : b.length < a.length) : strcaseeq a b = false := by
  rw [strcaseeq, beq_eq_false_iff_ne]
  intro h
  have := congrArg List.length h
  simp only [List.length_map] at this
  omega

/-- A name without `*` that is longer than the names of the host does not
match them. -/
theorem noTextMatch_of_longer {F : Frame} {e : Host} (hs : '*' ∉ e.h_name)
    (hc : F.nm.cname.length < e.h_name.length)
    (ha : ∀ t ∈ F.nm.aliasName, t.length < e.h_name.length) : NoTextMatch F e := by
  have hname : (F.hostname e).length < e.h_name.length := by
    unfold Frame.hostname
    split
    · cases hal : F.nm.aliasName with
      | none => exact Nat.lt_of_le_of_lt (Nat.zero_le _) hc
      | some t => exact ha t hal
    · exact hc
  have hdom : "*.".toList.isPrefixOf e.h_name = false := by
    by_contra h
    rw [Bool.not_eq_false, List.isPrefixOf_iff_prefix] at h
    exact hs (h.subset (by decide))
  refine ⟨by rw [hdom, Bool.false_and], strcaseeq_longer hname, ?_⟩
  have hne : e.h_name ≠ F.hostname e := fun h => by rw [h] at hname; omega
  unfold matchName
  rw [rexpmatch_longer hs hname, decide_eq_false hne, hdom]
  cases hal : F.nm.aliasName with
  | none => simp
  | some t =>
    have ht := ha t hal
    simp [rexpmatch_longer hs ht, strcaseeq_longer ht]

end delegate.hostlist
