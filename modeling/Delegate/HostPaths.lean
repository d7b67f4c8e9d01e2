-- The lists of a path (hostlist.cpp): `makePathListX` compiles the text of a path once,
-- and `getHostInList` reads the elements of the list one by one.
import Delegate.HostListTab

open ctext delegate.vaddr

namespace delegate.hostlist

/-! ## The pure model -/

/-- The list of a path, with the random base once `HL_XRANDSET` is on. -/
structure PathList where
  path : Text
  opts : Text
  hlist : HostList
  hl_base : Option Nat := none

/-- `makePathListX`: the id of the list. A path that is known with its options keeps its list. -/
def makePathListX (S : Site) (tab : Tab) (depth : Nat) (what path opts : Text)
    (pathlists : List PathList) : Option (Nat × List PathList) :=
  match pathlists.findIdx? fun p => p.path = path ∧ p.opts = opts with
  | some hi => some (hi + 1, pathlists)
  | none =>
    let HL : HostList :=
      { hl_what := what, hl_flags := if opts.contains 'n' then HL_BYNAMEONLY else 0 }
    ((scan_ListL ',' path).foldlM (fun hl e => addHostList1 S (idOf tab) depth e hl) HL).map
      fun HL => (pathlists.length + 1, pathlists ++ [{ path := path, opts := opts, hlist := HL }])

/-- `hl_List[k]`. The element 0 is not used, and there is none behind the last. -/
def HostList.slot (HL : HostList) : Nat → Option Host
  | 0 => none
  | k + 1 => HL.hl_List[k]?

/-- The port of an element, or 0. -/
def Host.firstPort (Hp : Host) : Int :=
  match Hp.h_port with
  | some (p :: _) => atoi p
  | _ => 0

/-- What `getHostInList` comes to: -1, the element that is read with its port, or a pointer that
was never set. -/
inductive Got
  | fail
  | host (Hp : Host) (port : Int)
  | undefined

def Got.read : Option Host → Got
  | some Hp => .host Hp Hp.firstPort
  | none => .undefined

/-- `getHostInList`, where `rand` is what `trand1` draws. -/
def getHostInList (rand : Nat) (pathlists : List PathList) (hlid hi : Int) :
    Got × List PathList :=
  if hlid < 1 ∨ pathlists.length < hlid then (.fail, pathlists)
  else
    match pathlists[(hlid - 1).toNat]? with
    | none => (.fail, pathlists)
    | some p =>
      let HL := p.hlist
      let hl_cnt := HL.hl_List.length
      if hi < 0 ∨ hl_cnt < hi then (.fail, pathlists)
      else if HL.has HL_XRANDOM then
        let hl_base := p.hl_base.getD (rand % 1024)
        (.read (HL.slot ((hi.toNat + hl_base) % hl_cnt + 1)),
          pathlists.set (hlid - 1).toNat { p with hl_base := some hl_base })
      else (.read (HL.slot (hi.toNat + 1)), pathlists)

/-- The calls for `hi` from 0 to `n - 1`. -/
def getHosts (rand : Nat → Nat) (hlid : Int) : Nat → List PathList → List Got × List PathList
  | 0, pathlists => ([], pathlists)
  | n + 1, pathlists =>
    let (gots, pathlists) := getHosts rand hlid n pathlists
    let (got, pathlists) := getHostInList (rand n) pathlists hlid n
    (gots ++ [got], pathlists)

/-! ## The elements that are read -/

section
variable {pathlists : List PathList} {hlid : Int} {p : PathList} {rand : Nat} {hi : Int}

/-- Nothing is read but elements of the list. -/
def Defined (p : PathList) (got : Got) : Prop :=
  got = .fail ∨ ∃ Hp ∈ p.hlist.hl_List, got = .host Hp Hp.firstPort

theorem read_slot {HL : HostList} {k : Nat} (hk : k < HL.hl_List.length) :
    Got.read (HL.slot (k + 1)) = .host HL.hl_List[k] HL.hl_List[k].firstPort := by
  have hslot : HL.slot (k + 1) = some HL.hl_List[k] := List.getElem?_eq_getElem hk
  rw [hslot]
  rfl

theorem defined_slot {k : Nat} (hk : k < p.hlist.hl_List.length) :
    Defined p (.read (p.hlist.slot (k + 1))) :=
  .inr ⟨_, List.getElem_mem hk, read_slot hk⟩

theorem not_defined_slot {k : Nat} (hk : p.hlist.hl_List.length ≤ k) :
    ¬Defined p (.read (p.hlist.slot (k + 1))) := by
  have hnone : p.hlist.slot (k + 1) = none := List.getElem?_eq_none hk
  rw [hnone]
  rintro (⟨⟨⟩⟩ | ⟨_, _, ⟨⟩⟩)

variable (hid : 1 ≤ hlid) (hp : pathlists[(hlid - 1).toNat]? = some p)
include hid hp

theorem hlid_valid : ¬(hlid < 1 ∨ (pathlists.length : Int) < hlid) := by
  have hlt := (List.getElem?_eq_some_iff.mp hp).1
  omega

/-- The index that is out of the range. -/
theorem getHostInList_fail (hhi : hi < 0 ∨ (p.hlist.hl_List.length : Int) < hi) :
    getHostInList rand pathlists hlid hi = (.fail, pathlists) := by
  unfold getHostInList
  rw [if_neg (hlid_valid hid hp), hp]
  dsimp only
  rw [if_pos hhi]

/-- Without `HL_XRANDOM` the list is read from its first element on. -/
theorem getHostInList_plain (hrandom : p.hlist.has HL_XRANDOM = false) (h0 : 0 ≤ hi)
    (hcnt : hi ≤ p.hlist.hl_List.length) :
    getHostInList rand pathlists hlid hi = (.read (p.hlist.slot (hi.toNat + 1)), pathlists) := by
  unfold getHostInList
  rw [if_neg (hlid_valid hid hp), hp]
  dsimp only
  rw [if_neg (by omega), hrandom, if_neg (by decide)]

/-- With `HL_XRANDOM` it is read from the random base on, and the base is kept. -/
theorem getHostInList_random (hrandom : p.hlist.has HL_XRANDOM = true) (h0 : 0 ≤ hi)
    (hcnt : hi ≤ p.hlist.hl_List.length) :
    getHostInList rand pathlists hlid hi =
      (.read (p.hlist.slot ((hi.toNat + p.hl_base.getD (rand % 1024)) %
          p.hlist.hl_List.length + 1)),
        pathlists.set (hlid - 1).toNat
          { p with hl_base := some (p.hl_base.getD (rand % 1024)) }) := by
  unfold getHostInList
  rw [if_neg (hlid_valid hid hp), hp]
  dsimp only
  rw [if_neg (by omega), if_pos hrandom]

/-- Only the index that is the number of the elements is read beyond them. -/
theorem defined_iff (hne : p.hlist.hl_List ≠ []) (rand : Nat) (hi : Int) :
    Defined p (getHostInList rand pathlists hlid hi).1 ↔
      p.hlist.has HL_XRANDOM = true ∨ hi ≠ p.hlist.hl_List.length := by
  have hpos : 0 < p.hlist.hl_List.length := List.length_pos_of_ne_nil hne
  by_cases hhi : hi < 0 ∨ (p.hlist.hl_List.length : Int) < hi
  · rw [getHostInList_fail hid hp hhi]
    refine iff_of_true (.inl rfl) (.inr ?_)
    omega
  · rw [not_or, not_lt, not_lt] at hhi
    cases hrandom : p.hlist.has HL_XRANDOM with
    | true =>
      rw [getHostInList_random hid hp hrandom hhi.1 hhi.2]
      exact iff_of_true (defined_slot (Nat.mod_lt _ hpos)) (.inl rfl)
    | false =>
      rw [getHostInList_plain hid hp hrandom hhi.1 hhi.2]
      by_cases hlast : hi = p.hlist.hl_List.length
      · refine iff_of_false (not_defined_slot (by omega)) ?_
        rintro (⟨⟨⟩⟩ | hne)
        exact hne hlast
      · exact iff_of_true (defined_slot (by omega)) (.inr hlast)

/-- Without `HL_XRANDOM` the calls give the elements in their order. -/
theorem getHosts_plain (rand : Nat → Nat) (hrandom : p.hlist.has HL_XRANDOM = false) (n : Nat)
    (hn : n ≤ p.hlist.hl_List.length) :
    getHosts rand hlid n pathlists =
      ((p.hlist.hl_List.take n).map fun Hp => .host Hp Hp.firstPort, pathlists) := by
  induction n with
  | zero => rfl
  | succ n ih =>
    rw [getHosts, ih (by omega)]
    dsimp only
    rw [getHostInList_plain hid hp hrandom (by omega) (by omega), Int.toNat_natCast,
      read_slot (by omega), List.take_succ_eq_append_getElem (by omega), List.map_append]
    rfl

/-- With `HL_XRANDOM` they give them from the base on, and around. -/
theorem getHosts_random (rand : Nat → Nat) (hrandom : p.hlist.has HL_XRANDOM = true)
    (n : Nat) (hn : n < p.hlist.hl_List.length) :
    getHosts rand hlid (n + 1) pathlists =
      (((p.hlist.hl_List.rotate (p.hl_base.getD (rand 0 % 1024))).take (n + 1)).map
          fun Hp => .host Hp Hp.firstPort,
        pathlists.set (hlid - 1).toNat
          { p with hl_base := some (p.hl_base.getD (rand 0 % 1024)) }) := by
  generalize hb : p.hl_base.getD (rand 0 % 1024) = b
  have hlen := List.length_rotate p.hlist.hl_List b
  have hread : ∀ k : Nat, k < p.hlist.hl_List.length →
      [Got.read (p.hlist.slot ((k + b) % p.hlist.hl_List.length + 1))] =
        ((p.hlist.hl_List.rotate b)[k]?.toList).map fun Hp => .host Hp Hp.firstPort := by
    intro k hk
    rw [read_slot (Nat.mod_lt _ (by omega)), List.getElem?_eq_getElem (by omega),
      List.getElem_rotate]
    rfl
  induction n with
  | zero =>
    rw [getHosts, getHosts]
    dsimp only
    rw [getHostInList_random hid hp hrandom (by omega) (by omega), hb, Int.toNat_natCast,
      List.nil_append, hread 0 hn, List.take_one, List.head?_eq_getElem?]
  | succ n ih =>
    -- the base is found in the list now
    have hp' : (pathlists.set (hlid - 1).toNat { p with hl_base := some b })[(hlid - 1).toNat]? =
        some { p with hl_base := some b } :=
      List.getElem?_set_self (List.getElem?_eq_some_iff.mp hp).1
    rw [getHosts, ih (by omega)]
    dsimp only
    rw [getHostInList_random hid hp' hrandom (by omega) (by dsimp only; omega), Int.toNat_natCast,
      List.set_set]
    dsimp only [Option.getD_some]
    rw [hread (n + 1) hn, ← List.map_append, ← List.take_add_one]

end

/-! ## Every index of every list -/

/-- `getHostInList` reads an element of the list or returns -1 if and only if the index is not the
number of the elements or the list is read from a random base; and the calls for 0 to the number
of the elements give each of them, in their order or from the base on and around. -/
theorem getHostInList_defined_iff (pathlists : List PathList) (hlid : Int) (p : PathList)
    (hid : 1 ≤ hlid) (hp : pathlists[(hlid - 1).toNat]? = some p) (hne : p.hlist.hl_List ≠ []) :
    (∀ (rand : Nat) (hi : Int), Defined p (getHostInList rand pathlists hlid hi).1 ↔
        p.hlist.has HL_XRANDOM = true ∨ hi ≠ p.hlist.hl_List.length) ∧
      ∀ rand : Nat → Nat, ∃ base : Nat, (p.hlist.has HL_XRANDOM = false → base = 0) ∧
        (getHosts rand hlid p.hlist.hl_List.length pathlists).1 =
          (p.hlist.hl_List.rotate base).map fun Hp => .host Hp Hp.firstPort := by
  refine ⟨defined_iff hid hp hne, fun rand => ?_⟩
  cases hrandom : p.hlist.has HL_XRANDOM with
  | false =>
    refine ⟨0, fun _ => rfl, ?_⟩
    rw [getHosts_plain hid hp rand hrandom _ le_rfl, List.take_length, List.rotate_zero]
  | true =>
    obtain ⟨n, hn⟩ : ∃ n, p.hlist.hl_List.length = n + 1 :=
      Nat.exists_eq_add_one.mpr (List.length_pos_of_ne_nil hne)
    refine ⟨p.hl_base.getD (rand 0 % 1024), by rintro ⟨⟩, ?_⟩
    rw [hn, getHosts_random hid hp rand hrandom n (by omega)]
    dsimp only
    rw [List.take_of_length_le (by rw [List.length_rotate, hn])]

/-- A site that resolves no names. -/
def bareSite : Site :=
  { pton6 := fun _ => none, gethostVAddr := fun _ => none, hostname := ['h'],
    isMYSELF := fun _ => false }

/-- The list of the path `svr`, which has one element: the index 1 is not refused, and the pointer
behind the element is read. -/
theorem getHostInList_undefined :
    ∃ pathlists p, makePathListX bareSite [] 1 "PATH".toList "svr".toList [] [] =
        some (1, pathlists) ∧ pathlists[(1 - 1 : Int).toNat]? = some p ∧
      p.hlist.hl_List ≠ [] ∧ ¬Defined p (getHostInList 0 pathlists 1 1).1 := by
  refine ⟨_, _, rfl, rfl, List.cons_ne_nil _ _, ?_⟩
  rintro (⟨⟨⟩⟩ | ⟨_, _, ⟨⟩⟩)

/-- Every index of that list. -/
theorem getHostInList_defined_svr :
    ∃ pathlists p, makePathListX bareSite [] 1 "PATH".toList "svr".toList [] [] =
        some (1, pathlists) ∧
      ∀ (rand : Nat) (hi : Int), Defined p (getHostInList rand pathlists 1 hi).1 ↔
        p.hlist.has HL_XRANDOM = true ∨ hi ≠ p.hlist.hl_List.length :=
  ⟨_, _, rfl, (getHostInList_defined_iff _ 1 _ (by decide) rfl (List.cons_ne_nil _ _)).1⟩

end delegate.hostlist
