-- The addresses of a host list and of the lists that it names (`addvsa`, `HL2VSA`,
-- hostlist.cpp), as they are put into the slots of an array.
import Delegate.HostPaths

open ctext delegate.vaddr

namespace delegate.hostlist

/-! ## The pure model -/

section
variable {VSAddr : Type} (VAtoVSA : Host → Int → VSAddr) (ht_list : Tab)

/-- The port of an element, or the one that is given. -/
def Host.portOr (Hp : Host) (port : Int) : Int := if Hp.firstPort = 0 then port else Hp.firstPort

/-- The loop of `addvsa`. `nested` is the call for a list that an element names. -/
def addvsa.loop
    (nested : HostList → Nat → List (Option VSAddr) → Option (Nat × List (Option VSAddr)))
    (port : Int) (max : Nat) :
    List Host → Nat → List (Option VSAddr) → Option (Nat × List (Option VSAddr))
  | [], ac, va => some (ac, va)
  | Hp :: hosts, ac, va =>
    if max ≤ ac then some (ac, va)
    else if Hp.h_listid ≠ 0 then
      match ht_list[Hp.h_listid - 1]? with
      | none => none
      | some HL =>
        match nested HL ac va with
        | none => none
        | some (n, va) => addvsa.loop nested port max hosts (ac + n) va
    else
      addvsa.loop nested port max hosts (ac + 1) (va.set ac (some (VAtoVSA Hp (Hp.portOr port))))

/-- `addvsa`, with calls at most `depth` deep: the count that it returns, and the slots. -/
def addvsa (port : Int) (max : Nat) : Nat → HostList → Nat → List (Option VSAddr) →
    Option (Nat × List (Option VSAddr))
  | 0, _, _, _ => none
  | depth + 1, HL, ac, va =>
    addvsa.loop VAtoVSA ht_list (addvsa port max depth) port max HL.hl_List ac va

/-- `HL2VSA` with `mac` slots that are not filled. -/
def HL2VSA (depth : Nat) (pathlists : List PathList) (hlid port : Int) (mac : Nat) :
    Option (Nat × List (Option VSAddr)) :=
  if hlid < 1 ∨ pathlists.length < hlid then some (0, List.replicate mac none)
  else
    match pathlists[(hlid - 1).toNat]? with
    | none => none
    | some p => addvsa VAtoVSA ht_list port mac depth p.hlist 0 (List.replicate mac none)

/-! ## What a list stands for -/

/-- An element as it is met: an address, or the begin of a list that is named. -/
inductive Entry (VSAddr : Type)
  | addr (vsa : VSAddr)
  | list

def Entry.addr? : Entry VSAddr → Option VSAddr
  | .addr vsa => some vsa
  | .list => none

/-- The addresses of some entries, in their order. -/
def addrs (es : List (Entry VSAddr)) : List VSAddr := es.filterMap Entry.addr?

/-- The elements of a list and of the lists that it names, in their order. -/
def entries.loop (nested : HostList → Option (List (Entry VSAddr))) (port : Int) :
    List Host → Option (List (Entry VSAddr))
  | [] => some []
  | Hp :: hosts =>
    if Hp.h_listid ≠ 0 then do
      let HL ← ht_list[Hp.h_listid - 1]?
      let es ← nested HL
      let rest ← entries.loop nested port hosts
      some (.list :: es ++ rest)
    else do
      let rest ← entries.loop nested port hosts
      some (.addr (VAtoVSA Hp (Hp.portOr port)) :: rest)

/-- The lists are named at most `depth` deep: a list that names itself has no entries. -/
def entries (port : Int) : Nat → HostList → Option (List (Entry VSAddr))
  | 0, _ => none
  | depth + 1, HL => entries.loop VAtoVSA ht_list (entries port depth) port HL.hl_List

end

/-! ## The slots -/

section
variable {VSAddr : Type}

/-- The slots of an array after the addresses were put into it. -/
def slots (mac : Nat) (as : List VSAddr) : List (Option VSAddr) :=
  (as.take mac).map some ++ List.replicate (mac - as.length) none

/-- The count is that of the filled slots, which are the first ones, and they hold addresses in
the order of the list. -/
def Counted (mac : Nat) (as : List VSAddr) (r : Nat × List (Option VSAddr)) : Prop :=
  r.1 ≤ mac ∧ r.1 ≤ as.length ∧ r.2 = slots mac (as.take r.1)

/-- A list is named only where no address stands before it, or where there is no room behind
those that do. `pre` are the addresses before the entries. -/
def FairAfter (mac : Nat) (pre : List VSAddr) (es : List (Entry VSAddr)) : Prop :=
  ∀ a b, es = a ++ .list :: b → pre ++ addrs a = [] ∨ mac ≤ (pre ++ addrs a).length

def Fair (mac : Nat) (es : List (Entry VSAddr)) : Prop := FairAfter mac [] es

variable {mac : Nat} {pre : List VSAddr} {es es' : List (Entry VSAddr)} {a : VSAddr}

@[simp] theorem addrs_nil : addrs ([] : List (Entry VSAddr)) = [] := rfl

@[simp] theorem addrs_list : addrs (.list :: es) = addrs es := rfl

@[simp] theorem addrs_addr : addrs (.addr a :: es) = a :: addrs es := rfl

@[simp] theorem addrs_append : addrs (es ++ es') = addrs es ++ addrs es' := List.filterMap_append

theorem fairAfter_nil : FairAfter mac pre ([] : List (Entry VSAddr)) := by
  intro a b h
  simp at h

theorem fairAfter_list :
    FairAfter mac pre (.list :: es) ↔ (pre = [] ∨ mac ≤ pre.length) ∧ FairAfter mac pre es := by
  constructor
  · intro h
    refine ⟨by simpa using h [] es rfl, fun a b hab => ?_⟩
    exact h (.list :: a) b (by rw [hab]; rfl)
  · rintro ⟨hfirst, hrest⟩ a b hab
    rcases List.cons_eq_append_iff.mp hab with ⟨rfl, -⟩ | ⟨a', rfl, hrest'⟩
    · simpa using hfirst
    · exact hrest a' b hrest'

theorem fairAfter_addr :
    FairAfter mac pre (.addr a :: es) ↔ FairAfter mac (pre ++ [a]) es := by
  constructor
  · intro h x y hxy
    have hsplit := h (.addr a :: x) y (by rw [hxy]; rfl)
    simpa using hsplit
  · intro h x y hxy
    rcases List.cons_eq_append_iff.mp hxy with ⟨-, hhead⟩ | ⟨x', rfl, hrest⟩
    · cases hhead
    · simpa using h x' y hrest

theorem fairAfter_append :
    FairAfter mac pre (es ++ es') ↔ FairAfter mac pre es ∧ FairAfter mac (pre ++ addrs es) es' := by
  induction es generalizing pre with
  | nil => simp [fairAfter_nil]
  | cons e es ih =>
    cases e with
    | addr a =>
      rw [List.cons_append, fairAfter_addr, fairAfter_addr, ih, addrs_addr, List.append_assoc]
      rfl
    | list => rw [List.cons_append, fairAfter_list, fairAfter_list, ih, addrs_list, and_assoc]

/-- Where there is no room, every list may be named. -/
theorem fairAfter_full (h : mac ≤ pre.length) (es : List (Entry VSAddr)) :
    FairAfter mac pre es := by
  intro a b _
  right
  rw [List.length_append]
  omega

theorem length_slots (mac : Nat) (pre : List VSAddr) : (slots mac pre).length = mac := by
  unfold slots
  rw [List.length_append, List.length_map, List.length_take, List.length_replicate]
  omega

theorem slots_nil (mac : Nat) : slots mac ([] : List VSAddr) = List.replicate mac none := by
  simp [slots]

/-- Addresses that find no room change nothing. -/
theorem slots_full (h : mac ≤ pre.length) (as : List VSAddr) :
    slots mac (pre ++ as) = slots mac pre := by
  unfold slots
  rw [List.take_append_of_le_length h, List.length_append]
  have hnone : mac - (pre.length + as.length) = mac - pre.length := by omega
  rw [hnone]

/-- The next slot is filled. -/
theorem slots_snoc (h : pre.length < mac) (a : VSAddr) :
    (slots mac pre).set pre.length (some a) = slots mac (pre ++ [a]) := by
  obtain ⟨k, rfl⟩ := Nat.exists_eq_add_of_lt h
  have hroom : pre.length + k + 1 - pre.length = k + 1 := by omega
  have hrest : pre.length + k + 1 - (pre ++ [a]).length = k := by
    rw [List.length_append, List.length_singleton]
    omega
  unfold slots
  rw [List.take_of_length_le (by omega), List.take_of_length_le
    (by rw [List.length_append, List.length_singleton]; omega), hroom, hrest,
    List.set_append_right _ _ (by rw [List.length_map]), List.length_map, Nat.sub_self,
    List.replicate_succ, List.set_cons_zero, List.map_append, List.append_assoc]
  rfl

/-- How many slots are filled. -/
def filled (va : List (Option VSAddr)) : Nat := va.countP Option.isSome

theorem filled_slots (mac : Nat) (pre : List VSAddr) :
    filled (slots mac pre) = min mac pre.length := by
  have hall : (Option.isSome ∘ some : VSAddr → Bool) = fun _ => true := rfl
  unfold filled slots
  rw [List.countP_append, List.countP_map, List.countP_replicate, hall, List.countP_true,
    List.length_take]
  rfl

/-- No slot from `ac` on is filled. -/
def Above (mac ac : Nat) (va : List (Option VSAddr)) : Prop :=
  va.length = mac ∧ ∀ k, ac ≤ k → va.getD k none = none

theorem Above.mono {ac ac' : Nat} {va : List (Option VSAddr)} (h : Above mac ac va)
    (hle : ac ≤ ac') : Above mac ac' va :=
  ⟨h.1, fun k hk => h.2 k (Nat.le_trans hle hk)⟩

theorem above_slots (mac : Nat) (pre : List VSAddr) : Above mac pre.length (slots mac pre) := by
  refine ⟨length_slots mac pre, fun k hk => ?_⟩
  unfold slots
  rw [List.getD_eq_getElem?_getD, List.getElem?_append_right
    (by rw [List.length_map, List.length_take]; omega), List.getElem?_replicate]
  split
  · rfl
  · rfl

theorem Above.set {ac : Nat} {va : List (Option VSAddr)} (h : Above mac ac va) (hroom : ac < mac)
    (a : VSAddr) : Above mac (ac + 1) (va.set ac (some a)) ∧
      filled (va.set ac (some a)) = filled va + 1 := by
  obtain ⟨hlen, hnone⟩ := h
  have hlt : ac < va.length := by omega
  have hac : va[ac] = none := by
    have hget := hnone ac le_rfl
    rwa [List.getD_eq_getElem _ _ hlt] at hget
  refine ⟨⟨by rw [List.length_set, hlen], fun k hk => ?_⟩, ?_⟩
  · rw [List.getD_eq_getElem?_getD, List.getElem?_set_ne (by omega), ← List.getD_eq_getElem?_getD]
    exact hnone k (by omega)
  · unfold filled
    rw [List.countP_set hlt, hac]
    simp

end

/-! ## The run over a list -/

section
variable {VSAddr : Type} {VAtoVSA : Host → Int → VSAddr} {ht_list : Tab} {port : Int} {mac : Nat}
  {nested : HostList → Nat → List (Option VSAddr) → Option (Nat × List (Option VSAddr))}
  {expand : HostList → Option (List (Entry VSAddr))}

/-- A run never goes back, and fills no more slots than it counts. -/
def Forward (mac : Nat) (run : Nat → List (Option VSAddr) → Option (Nat × List (Option VSAddr))) :
    Prop :=
  ∀ ac va n va', Above mac ac va → run ac va = some (n, va') →
    ac ≤ n ∧ Above mac n va' ∧ filled va' + ac ≤ filled va + n

/-- A run over a list that is fair puts its addresses into the slots, and counts them. -/
def Fills (mac : Nat) (run : Nat → List (Option VSAddr) → Option (Nat × List (Option VSAddr)))
    (es : List (Entry VSAddr)) : Prop :=
  Fair mac es → run 0 (slots mac []) = some (min (addrs es).length mac, slots mac (addrs es))

/-- A run over a list that is not fair counts more than it fills. -/
def Overcounts (mac : Nat)
    (run : Nat → List (Option VSAddr) → Option (Nat × List (Option VSAddr)))
    (es : List (Entry VSAddr)) : Prop :=
  ¬Fair mac es → ∀ n va', run 0 (slots mac []) = some (n, va') → filled va' < n

theorem loop_forward (hnested : ∀ HL, Forward mac (nested HL)) (hosts : List Host) :
    Forward mac (addvsa.loop VAtoVSA ht_list nested port mac hosts) := by
  induction hosts with
  | nil =>
    intro ac va n va' habove hrun
    cases hrun
    exact ⟨le_rfl, habove, le_rfl⟩
  | cons Hp hosts ih =>
    intro ac va n va' habove hrun
    rw [addvsa.loop] at hrun
    split at hrun
    · cases hrun
      exact ⟨le_rfl, habove, le_rfl⟩
    · rename_i hroom
      split at hrun
      · split at hrun
        · cases hrun
        · rename_i HL _
          split at hrun
          · cases hrun
          · rename_i n₁ va₁ hcall
            -- the count of the call is added to the count before it
            obtain ⟨hle, habove₁, hfill⟩ := hnested HL ac va n₁ va₁ habove hcall
            obtain ⟨hle', habove', hfill'⟩ := ih _ _ _ _
              (habove₁.mono (Nat.le_add_left n₁ ac)) hrun
            exact ⟨by omega, habove', by omega⟩
      · obtain ⟨habove₁, hone⟩ := habove.set (by omega) (VAtoVSA Hp (Hp.portOr port))
        obtain ⟨hle', habove', hfill'⟩ := ih _ _ _ _ habove₁ hrun
        exact ⟨by omega, habove', by omega⟩

theorem addvsa_forward (depth : Nat) (HL : HostList) :
    Forward mac (addvsa VAtoVSA ht_list port mac depth HL) := by
  induction depth generalizing HL with
  | zero =>
    intro ac va n va' _ hrun
    cases hrun
  | succ depth ih => exact loop_forward ih HL.hl_List

/-- The entries of a list that begins with an element. -/
theorem entries_cons {Hp : Host} {hosts : List Host} {es : List (Entry VSAddr)}
    (h : entries.loop VAtoVSA ht_list expand port (Hp :: hosts) = some es) :
    (Hp.h_listid = 0 ∧ ∃ rest, entries.loop VAtoVSA ht_list expand port hosts = some rest ∧
        es = .addr (VAtoVSA Hp (Hp.portOr port)) :: rest) ∨
      (Hp.h_listid ≠ 0 ∧ ∃ HL inner rest, ht_list[Hp.h_listid - 1]? = some HL ∧
        expand HL = some inner ∧ entries.loop VAtoVSA ht_list expand port hosts = some rest ∧
        es = .list :: (inner ++ rest)) := by
  rw [entries.loop] at h
  split at h
  · rename_i hid
    obtain ⟨HL, hHL, h⟩ := Option.bind_eq_some_iff.mp h
    obtain ⟨inner, hinner, h⟩ := Option.bind_eq_some_iff.mp h
    obtain ⟨rest, hrest, h⟩ := Option.bind_eq_some_iff.mp h
    cases h
    exact .inr ⟨hid, HL, inner, rest, hHL, hinner, hrest, rfl⟩
  · rename_i hid
    obtain ⟨rest, hrest, h⟩ := Option.bind_eq_some_iff.mp h
    cases h
    exact .inl ⟨not_not.mp hid, rest, hrest, rfl⟩

/-- The turn of the loop at an address that finds room. -/
theorem loop_addr {Hp : Host} {hosts : List Host} {pre : List VSAddr} (hid : Hp.h_listid = 0)
    (hroom : pre.length < mac) :
    addvsa.loop VAtoVSA ht_list nested port mac (Hp :: hosts) (min pre.length mac)
        (slots mac pre) =
      addvsa.loop VAtoVSA ht_list nested port mac hosts
        (min (pre ++ [VAtoVSA Hp (Hp.portOr port)]).length mac)
        (slots mac (pre ++ [VAtoVSA Hp (Hp.portOr port)])) := by
  have hlen : min (pre ++ [VAtoVSA Hp (Hp.portOr port)]).length mac = pre.length + 1 := by
    rw [List.length_append, List.length_singleton]
    omega
  rw [addvsa.loop, if_neg (by omega), if_neg (not_not.mpr hid), Nat.min_eq_left hroom.le,
    slots_snoc hroom, hlen]

/-- The turn of the loop at a list that is named, while there is room. -/
theorem loop_list {Hp : Host} {HL : HostList} {hosts : List Host} {ac : Nat}
    {va : List (Option VSAddr)} (hid : Hp.h_listid ≠ 0)
    (hHL : ht_list[Hp.h_listid - 1]? = some HL) (hroom : ac < mac) :
    addvsa.loop VAtoVSA ht_list nested port mac (Hp :: hosts) ac va =
      (nested HL ac va).bind fun r =>
        addvsa.loop VAtoVSA ht_list nested port mac hosts (ac + r.1) r.2 := by
  rw [addvsa.loop, if_neg (by omega), if_pos hid, hHL]
  dsimp only
  cases nested HL ac va with
  | none => rfl
  | some r => rfl

/-- Where there is no room the loop is left. -/
theorem loop_full {hosts : List Host} {ac : Nat} {va : List (Option VSAddr)} (hfull : mac ≤ ac) :
    addvsa.loop VAtoVSA ht_list nested port mac hosts ac va = some (ac, va) := by
  cases hosts with
  | nil => rfl
  | cons Hp hosts => rw [addvsa.loop, if_pos hfull]

theorem loop_fills
    (hnested : ∀ HL inner, expand HL = some inner → Fills mac (nested HL) inner)
    {hosts : List Host} {es : List (Entry VSAddr)}
    (hes : entries.loop VAtoVSA ht_list expand port hosts = some es) (pre : List VSAddr)
    (hfair : FairAfter mac pre es) :
    addvsa.loop VAtoVSA ht_list nested port mac hosts (min pre.length mac) (slots mac pre) =
      some (min (pre ++ addrs es).length mac, slots mac (pre ++ addrs es)) := by
  induction hosts generalizing es pre with
  | nil =>
    cases hes
    rw [addrs_nil, List.append_nil]
    rfl
  | cons Hp hosts ih =>
    by_cases hfull : mac ≤ pre.length
    · have hlen : min (pre ++ addrs es).length mac = min pre.length mac := by
        rw [List.length_append]
        omega
      rw [loop_full (by omega), slots_full hfull, hlen]
    · have hroom : pre.length < mac := by omega
      rcases entries_cons hes with ⟨hid, rest, hrest, rfl⟩ |
        ⟨hid, HL, inner, rest, hHL, hinner, hrest, rfl⟩
      · rw [loop_addr hid hroom, ih hrest _ (fairAfter_addr.mp hfair), addrs_addr,
          List.append_assoc]
        rfl
      · -- there is room, so no address stands before the list
        obtain ⟨hfirst, hfair⟩ := fairAfter_list.mp hfair
        have hpre : pre = [] := hfirst.resolve_right hfull
        subst hpre
        obtain ⟨hfair₁, hfair₂⟩ := fairAfter_append.mp hfair
        have hcall := hnested HL inner hinner hfair₁
        rw [List.length_nil] at hroom
        rw [List.length_nil, Nat.zero_min, loop_list hid hHL hroom, hcall, Option.bind_some]
        dsimp only
        rw [Nat.zero_add]
        have hloop := ih hrest _ hfair₂
        rw [List.nil_append] at hloop
        rw [hloop, addrs_list, addrs_append, List.nil_append]

theorem loop_overcounts (hforward : ∀ HL, Forward mac (nested HL))
    (hfills : ∀ HL inner, expand HL = some inner → Fills mac (nested HL) inner)
    (hover : ∀ HL inner, expand HL = some inner → Overcounts mac (nested HL) inner)
    {hosts : List Host} {es : List (Entry VSAddr)}
    (hes : entries.loop VAtoVSA ht_list expand port hosts = some es) (pre : List VSAddr)
    (hfair : ¬FairAfter mac pre es) {n : Nat} {va' : List (Option VSAddr)}
    (hrun : addvsa.loop VAtoVSA ht_list nested port mac hosts (min pre.length mac)
      (slots mac pre) = some (n, va')) : filled va' < n := by
  induction hosts generalizing es pre with
  | nil =>
    cases hes
    exact absurd fairAfter_nil hfair
  | cons Hp hosts ih =>
    have hroom : pre.length < mac := by
      by_contra hfull
      exact hfair (fairAfter_full (by omega) es)
    have hsome : filled (slots mac pre) = pre.length := by
      rw [filled_slots]
      omega
    rcases entries_cons hes with ⟨hid, rest, hrest, rfl⟩ |
      ⟨hid, HL, inner, rest, hHL, hinner, hrest, rfl⟩
    · rw [loop_addr hid hroom] at hrun
      exact ih hrest _ (fun h => hfair (fairAfter_addr.mpr h)) hrun
    · rw [loop_list hid hHL (by omega), Nat.min_eq_left hroom.le] at hrun
      obtain ⟨⟨n₁, va₁⟩, hcall, hrun⟩ := Option.bind_eq_some_iff.mp hrun
      obtain ⟨hle, habove, hfill⟩ := hforward HL _ _ _ _ (above_slots mac pre) hcall
      -- what the rest of the list counts and fills
      obtain ⟨-, -, hfill'⟩ := loop_forward hforward hosts _ _ _ _
        (habove.mono (Nat.le_add_left n₁ pre.length)) hrun
      by_cases hpre : pre = []
      · subst hpre
        rw [List.length_nil, Nat.zero_add] at hrun hfill'
        by_cases hinside : Fair mac inner
        · have heval := hfills HL inner hinner hinside
          rw [List.length_nil] at hcall
          rw [heval] at hcall
          cases hcall
          refine ih hrest (addrs inner) (fun h => hfair ?_) hrun
          exact fairAfter_list.mpr ⟨.inl rfl, fairAfter_append.mpr ⟨hinside, h⟩⟩
        · have hmore := hover HL inner hinner hinside _ _ hcall
          omega
      · -- the call counts the addresses before it once more
        have hpos : 0 < pre.length := List.length_pos_of_ne_nil hpre
        omega

theorem addvsa_fills (depth : Nat) (HL : HostList) (es : List (Entry VSAddr))
    (hes : entries VAtoVSA ht_list port depth HL = some es) :
    Fills mac (addvsa VAtoVSA ht_list port mac depth HL) es := by
  induction depth generalizing HL es with
  | zero => cases hes
  | succ depth ih =>
    intro hfair
    have hloop := loop_fills ih hes [] hfair
    rwa [List.length_nil, Nat.zero_min, List.nil_append] at hloop

theorem addvsa_overcounts (depth : Nat) (HL : HostList) (es : List (Entry VSAddr))
    (hes : entries VAtoVSA ht_list port depth HL = some es) :
    Overcounts mac (addvsa VAtoVSA ht_list port mac depth HL) es := by
  induction depth generalizing HL es with
  | zero => cases hes
  | succ depth ih =>
    intro hfair n va' hrun
    refine loop_overcounts (addvsa_forward depth) (addvsa_fills depth) ih hes [] hfair ?_
    rwa [List.length_nil, Nat.zero_min]

theorem filled_of_counted {as : List VSAddr} {r : Nat × List (Option VSAddr)}
    (h : Counted mac as r) : filled r.2 = r.1 := by
  obtain ⟨hmac, hlen, hslots⟩ := h
  rw [hslots, filled_slots, List.length_take]
  omega

end

/-- `HL2VSA` of a list counts the slots that it fills, which are the first ones in the order of
the list, if and only if no list is named behind an address while there is room. -/
theorem HL2VSA_counted_iff {VSAddr : Type} (VAtoVSA : Host → Int → VSAddr) (ht_list : Tab)
    (depth : Nat) (pathlists : List PathList) (hlid port : Int) (mac : Nat) (p : PathList)
    (es : List (Entry VSAddr)) (hid : 1 ≤ hlid) (hp : pathlists[(hlid - 1).toNat]? = some p)
    (hes : entries VAtoVSA ht_list port depth p.hlist = some es) :
    (∃ r, HL2VSA VAtoVSA ht_list depth pathlists hlid port mac = some r ∧
        Counted mac (addrs es) r) ↔ Fair mac es := by
  have hcall : HL2VSA VAtoVSA ht_list depth pathlists hlid port mac =
      addvsa VAtoVSA ht_list port mac depth p.hlist 0 (slots mac []) := by
    unfold HL2VSA
    rw [if_neg (hlid_valid hid hp), hp, slots_nil]
  rw [hcall]
  constructor
  · rintro ⟨⟨n, va'⟩, hrun, hcount⟩
    by_contra hfair
    have hmore := addvsa_overcounts depth p.hlist es hes hfair n va' hrun
    have hfilled := filled_of_counted hcount
    dsimp only at hfilled
    omega
  · intro hfair
    refine ⟨_, addvsa_fills depth p.hlist es hes hfair, ?_, ?_, ?_⟩
    · exact Nat.min_le_right _ _
    · exact Nat.min_le_left _ _
    · dsimp only
      unfold slots
      rw [List.length_take, List.take_take]
      have hleft : min mac (min (addrs es).length mac) = min (addrs es).length mac := by omega
      have hright : mac - min (min (addrs es).length mac) (addrs es).length =
          mac - (addrs es).length := by omega
      rw [hleft, hright]
      rcases Nat.le_total mac (addrs es).length with h | h
      · rw [Nat.min_eq_right h]
      · rw [Nat.min_eq_left h, List.take_of_length_le h, List.take_length]

/-- An element that is an address. -/
def hostAt (n : BitVec 32) : Host := { h_Addr := ⟨0, 0, 0, n⟩ }

/-- The address and the port as they are. -/
def plainVSA (Hp : Host) (port : Int) : Addr × Int := (Hp.h_Addr, port)

/-- A table with one list of one address. -/
def oneList : Tab := [{ hl_what := "dns".toList, hl_List := [hostAt 2] }]

/-- An address, and behind it the list. -/
def addressFirst : PathList :=
  { path := "host1,dns".toList, opts := [],
    hlist := { hl_what := "RES_NS".toList, hl_List := [hostAt 1, { h_listid := 1 }] } }

/-- Three are counted where two slots are filled. -/
theorem HL2VSA_overcounts :
    HL2VSA plainVSA oneList 2 [addressFirst] 1 53 4 = some (3,
        [some (⟨0, 0, 0, 1⟩, 53), some (⟨0, 0, 0, 2⟩, 53), none, none]) ∧
      ¬∃ r, HL2VSA plainVSA oneList 2 [addressFirst] 1 53 4 = some r ∧
        Counted 4 [(⟨0, 0, 0, 1⟩, 53), (⟨0, 0, 0, 2⟩, 53)] r := by
  have hrun : HL2VSA plainVSA oneList 2 [addressFirst] 1 53 4 = some (3,
      [some (⟨0, 0, 0, 1⟩, 53), some (⟨0, 0, 0, 2⟩, 53), none, none]) := rfl
  refine ⟨hrun, ?_⟩
  rintro ⟨r, hr, hcount⟩
  have hthree : r.1 = 3 := by
    rw [hrun] at hr
    cases hr
    rfl
  have htwo := hcount.2.1
  rw [hthree] at htwo
  exact absurd htwo (by decide)

/-- The list first, and an address behind it. -/
def listFirst : PathList :=
  { path := "dns,host1".toList, opts := [],
    hlist := { hl_what := "RES_NS".toList, hl_List := [{ h_listid := 1 }, hostAt 1] } }

/-- There every slot that is counted is filled. -/
theorem HL2VSA_counted_list :
    (∃ r, HL2VSA plainVSA oneList 2 [listFirst] 1 53 4 = some r ∧
        Counted 4 [(⟨0, 0, 0, 2⟩, 53), (⟨0, 0, 0, 1⟩, 53)] r) ↔
      Fair 4 [.list, .addr ((⟨0, 0, 0, 2⟩ : Addr), (53 : Int)), .addr (⟨0, 0, 0, 1⟩, 53)] :=
  HL2VSA_counted_iff plainVSA oneList 2 [listFirst] 1 53 4 listFirst
    [.list, .addr ((⟨0, 0, 0, 2⟩ : Addr), (53 : Int)), .addr (⟨0, 0, 0, 1⟩, 53)]
    (by decide) rfl rfl

end delegate.hostlist
