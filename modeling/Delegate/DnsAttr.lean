-- The records of a DNS node and their expiry. `expireattr` compares times in
-- 32 bits, so a large TTL makes a fresh record look expired.
import Delegate.DnsIndex

open ctext

namespace delegate.dnsnode

/-! ## The records of a node -/

/-- The sum of two `int`s. -/
def addInt (a b : Int) : Int := Int.bmod (a + b) (2 ^ 32)

/-- A record has a flag of the mask. -/
def Attr.has (mask : UInt32) (a : Attr) : Bool := mask &&& a.a_flag != 0

/-- A record with the same flag, length and data. -/
def sameAttr (flag : UInt32) (data : List UInt8) (a : Attr) : Bool :=
  flag == a.a_flag && data.length == a.a_data.length && a.a_data == data

/-- The records of a node after `DNS_putattr`, and its value. A new one is put at `addr`. -/
def putattr (addr : Nat) (flag : UInt32) (ttl : Int) (data : List UInt8) (now : Int)
    (attrs : List Attr) : List Attr × Bool :=
  if attrs.any (sameAttr flag data) then (attrs, false)
  else (⟨addr, flag, now, ttl, data⟩ :: attrs, true)

/-- `expireattr`. All records of the mask are cleared as soon as one of them is expired. -/
def expireattr (flag : UInt32) (ttl now : Int) (attrs : List Attr) : List Attr :=
  if ttl ≤ 0 then attrs
  else if attrs.any (fun a => a.has flag &&
      (decide (addInt a.a_date a.a_ttl ≤ now) || decide (addInt a.a_date ttl ≤ now))) then
    attrs.map fun a => if a.has flag then { a with a_flag := 0 } else a
  else attrs

/-- The records of a node after `DNS_getattr`, and those it returns in an array of `ac`. -/
def getattr (flag : UInt32) (ttl : Int) (ac : Nat) (now : Int) (attrs : List Attr) :
    List Attr × List Attr :=
  let attrs := expireattr flag ttl now attrs
  (attrs, (attrs.filter (·.has flag)).take (max ac 1))

def setAttrs (s : Store) (nid : Nat) (attrs : List Attr) : Store :=
  s.setNode (getnode s nid) { s.heap (getnode s nid) with n_attr := attrs }

def DNS_putattr (nid : Nat) (flag : UInt32) (ttl : Int) (data : List UInt8) (now : Int)
    (s : Store) : Store × Bool :=
  let r := putattr s.records flag ttl data now (s.heap (getnode s nid)).n_attr
  ({ setAttrs s nid r.1 with records := s.records + 1 }, r.2)

def DNS_getattr (nid : Nat) (flag : UInt32) (ttl : Int) (ac : Nat) (now : Int) (s : Store) :
    Store × List Attr :=
  let r := getattr flag ttl ac now (s.heap (getnode s nid)).n_attr
  (setAttrs s nid r.1, r.2)

/-! ## What the records are for -/

/-- A record is expired at `now`, for a limit on its age. -/
def Expired (lim now : Int) (a : Attr) : Prop := a.a_date + a.a_ttl ≤ now ∨ a.a_date + lim ≤ now

instance instDecidableExpired (lim now : Int) (a : Attr) : Decidable (Expired lim now a) :=
  inferInstanceAs (Decidable (_ ∨ _))

/-- Some record of the mask is expired. -/
def AnyExpired (mask : UInt32) (lim now : Int) (live : List Attr) : Prop :=
  ∃ a ∈ live, a.has mask = true ∧ Expired lim now a

instance instDecidableAnyExpired (mask : UInt32) (lim now : Int) (live : List Attr) :
    Decidable (AnyExpired mask lim now live) :=
  inferInstanceAs (Decidable (∃ a ∈ live, _))

/-- The records that are not cleared, after a put. -/
def livePut (addr : Nat) (flag : UInt32) (ttl : Int) (data : List UInt8) (now : Int)
    (live : List Attr) : List Attr :=
  if flag = 0 ∨ live.any (sameAttr flag data) then live else ⟨addr, flag, now, ttl, data⟩ :: live

/-- The records that are not cleared, after a get, and the answer: all records of the mask, or
none if one of them is expired. -/
def liveGet (mask : UInt32) (lim now : Int) (live : List Attr) : List Attr × List Attr :=
  if AnyExpired mask lim now live then (live.filter (!·.has mask), [])
  else (live, live.filter (·.has mask))

/-- The records of a node that are not cleared. -/
def live (attrs : List Attr) : List Attr := attrs.filter (·.a_flag != 0)

/-! ## Sums of 32 bits -/

/-- A time or a TTL. -/
def Int31 (t : Int) : Prop := 0 ≤ t ∧ t < 2 ^ 31

instance instDecidableInt31 (t : Int) : Decidable (Int31 t) :=
  inferInstanceAs (Decidable (_ ∧ _))

theorem addInt_eq {a b : Int} (ha : 0 ≤ a) (hb : 0 ≤ b) (h : a + b < 2 ^ 31) :
    addInt a b = a + b := by
  unfold addInt
  rw [Int.bmod_def]
  split <;> omega

theorem addInt_neg {a b : Int} (ha : a < 2 ^ 31) (hb : b < 2 ^ 31) (h : 2 ^ 31 ≤ a + b) :
    addInt a b < 0 := by
  unfold addInt
  rw [Int.bmod_def]
  split <;> omega

theorem addInt_le_iff {a b now : Int} (ha : Int31 a) (hb : Int31 b) (hnow : Int31 now) :
    addInt a b ≤ now ↔ a + b ≤ now ∨ 2 ^ 31 ≤ a + b := by
  obtain ⟨ha, ha'⟩ := ha
  obtain ⟨hb, hb'⟩ := hb
  obtain ⟨hnow, hnow'⟩ := hnow
  by_cases h : a + b < 2 ^ 31
  · rw [addInt_eq ha hb h]
    omega
  · have := addInt_neg ha' hb' (not_lt.mp h)
    omega

/-- A sum of the record does not fit in 32 bits. -/
def Overflows (lim : Int) (a : Attr) : Prop :=
  2 ^ 31 ≤ a.a_date + a.a_ttl ∨ 2 ^ 31 ≤ a.a_date + lim

instance instDecidableOverflows (lim : Int) (a : Attr) : Decidable (Overflows lim a) :=
  inferInstanceAs (Decidable (_ ∨ _))

/-- A get whose answer is right: a record of the mask is expired, or no sum overflows and the
array has room. -/
def GetOk (mask : UInt32) (lim : Int) (ac : Nat) (now : Int) (live : List Attr) : Prop :=
  AnyExpired mask lim now live ∨
    (∀ a ∈ live, a.has mask = true → ¬Overflows lim a) ∧
      (live.filter (·.has mask)).length ≤ max ac 1

section Node
variable {attrs : List Attr}

theorem has_live {mask : UInt32} {a : Attr} (h : a.has mask = true) : (a.a_flag != 0) = true := by
  unfold Attr.has at h
  rw [bne_iff_ne] at h ⊢
  intro h0
  rw [h0, UInt32.and_zero] at h
  exact h rfl

theorem filter_has_live (mask : UInt32) (attrs : List Attr) :
    (live attrs).filter (·.has mask) = attrs.filter (·.has mask) := by
  unfold live
  rw [List.filter_filter]
  apply List.filter_congr
  intro a _
  by_cases h : a.has mask = true
  · simp [h, has_live h]
  · simp [h]

/-- `expireattr` takes some record of the mask for expired. -/
def LooksExpired (mask : UInt32) (lim now : Int) (live : List Attr) : Prop :=
  AnyExpired mask lim now live ∨ ∃ a ∈ live, a.has mask = true ∧ Overflows lim a

theorem looksExpired_iff {mask : UInt32} {lim now : Int} (hlim : 0 < lim) (hlim' : lim < 2 ^ 31)
    (hnow : Int31 now) (hattrs : ∀ a ∈ attrs, Int31 a.a_date ∧ Int31 a.a_ttl) :
    attrs.any (fun a => a.has mask &&
        (decide (addInt a.a_date a.a_ttl ≤ now) || decide (addInt a.a_date lim ≤ now))) = true ↔
      LooksExpired mask lim now (live attrs) := by
  rw [List.any_eq_true]
  have hone : ∀ a ∈ attrs, (addInt a.a_date a.a_ttl ≤ now ∨ addInt a.a_date lim ≤ now) ↔
      Expired lim now a ∨ Overflows lim a := by
    intro a ha
    obtain ⟨hdate, httl⟩ := hattrs a ha
    rw [addInt_le_iff hdate httl hnow, addInt_le_iff hdate ⟨hlim.le, hlim'⟩ hnow]
    unfold Expired Overflows
    omega
  have hlive : ∀ a, a ∈ live attrs ∧ a.has mask = true ↔ a ∈ attrs ∧ a.has mask = true := by
    intro a
    rw [← List.mem_filter, filter_has_live, List.mem_filter]
  unfold LooksExpired AnyExpired
  constructor
  · rintro ⟨a, ha, h⟩
    simp only [Bool.and_eq_true, Bool.or_eq_true, decide_eq_true_eq] at h
    obtain ⟨hl, -⟩ := (hlive a).mpr ⟨ha, h.1⟩
    rcases (hone a ha).mp h.2 with he | ho
    · exact .inl ⟨a, hl, h.1, he⟩
    · exact .inr ⟨a, hl, h.1, ho⟩
  · intro h
    obtain ⟨a, hl, hhas, hor⟩ : ∃ a ∈ live attrs, a.has mask = true ∧
        (Expired lim now a ∨ Overflows lim a) := by
      rcases h with ⟨a, hl, hhas, he⟩ | ⟨a, hl, hhas, ho⟩
      · exact ⟨a, hl, hhas, .inl he⟩
      · exact ⟨a, hl, hhas, .inr ho⟩
    obtain ⟨ha, -⟩ := (hlive a).mp ⟨hl, hhas⟩
    refine ⟨a, ha, ?_⟩
    simp only [Bool.and_eq_true, Bool.or_eq_true, decide_eq_true_eq]
    exact ⟨hhas, (hone a ha).mpr hor⟩

theorem expireattr_looks {mask : UInt32} {lim now : Int} (hlim : 0 < lim) (hlim' : lim < 2 ^ 31)
    (hnow : Int31 now) (hattrs : ∀ a ∈ attrs, Int31 a.a_date ∧ Int31 a.a_ttl)
    (h : LooksExpired mask lim now (live attrs)) :
    expireattr mask lim now attrs =
      attrs.map fun a => if a.has mask then { a with a_flag := 0 } else a := by
  unfold expireattr
  rw [if_neg (not_le.mpr hlim), if_pos ((looksExpired_iff hlim hlim' hnow hattrs).mpr h)]

theorem expireattr_fresh {mask : UInt32} {lim now : Int} (hlim : 0 < lim) (hlim' : lim < 2 ^ 31)
    (hnow : Int31 now) (hattrs : ∀ a ∈ attrs, Int31 a.a_date ∧ Int31 a.a_ttl)
    (h : ¬LooksExpired mask lim now (live attrs)) : expireattr mask lim now attrs = attrs := by
  unfold expireattr
  rw [if_neg (not_le.mpr hlim), if_neg fun h' => h ((looksExpired_iff hlim hlim' hnow hattrs).mp h')]

/-- Cleared records have no flag. -/
theorem filter_cleared (mask : UInt32) (attrs : List Attr) :
    (attrs.map fun a => if a.has mask then { a with a_flag := 0 } else a).filter (·.has mask) =
      [] := by
  rw [List.filter_eq_nil_iff]
  intro b hb
  obtain ⟨a, -, rfl⟩ := List.mem_map.mp hb
  by_cases h : a.has mask = true
  · rw [if_pos h]
    simp [Attr.has]
  · rw [if_neg h]
    exact h

theorem live_cleared (mask : UInt32) (attrs : List Attr) :
    live (attrs.map fun a => if a.has mask then { a with a_flag := 0 } else a) =
      (live attrs).filter (!·.has mask) := by
  unfold live
  induction attrs with
  | nil => rfl
  | cons a attrs ih =>
    rw [List.map_cons, List.filter_cons, List.filter_cons, ih]
    by_cases h : a.has mask = true
    · rw [if_pos h, if_pos (has_live h)]
      simp [h]
    · rw [if_neg h]
      by_cases h0 : (a.a_flag != 0) = true
      · simp [h0, h]
      · simp [h0]

/-- The answer of a get is right exactly under the condition. -/
theorem getattr_right_iff {mask : UInt32} {lim now : Int} (hlim : 0 < lim) (hlim' : lim < 2 ^ 31)
    (hnow : Int31 now) (hattrs : ∀ a ∈ attrs, Int31 a.a_date ∧ Int31 a.a_ttl) (ac : Nat) :
    (getattr mask lim ac now attrs).2 = (liveGet mask lim now (live attrs)).2 ↔
      GetOk mask lim ac now (live attrs) := by
  unfold getattr liveGet GetOk
  dsimp only
  by_cases hexp : AnyExpired mask lim now (live attrs)
  · rw [expireattr_looks hlim hlim' hnow hattrs (.inl hexp), if_pos hexp, filter_cleared]
    exact ⟨fun _ => .inl hexp, fun _ => List.take_nil⟩
  rw [if_neg hexp]
  by_cases hover : ∃ a ∈ live attrs, a.has mask = true ∧ Overflows lim a
  · rw [expireattr_looks hlim hlim' hnow hattrs (.inr hover), filter_cleared, List.take_nil]
    obtain ⟨a, ha, hhas, ho⟩ := hover
    constructor
    · intro h
      have hmem : a ∈ (live attrs).filter (·.has mask) := List.mem_filter.mpr ⟨ha, hhas⟩
      dsimp only at h
      rw [← h] at hmem
      cases hmem
    · rintro (h | ⟨hno, -⟩)
      · exact absurd h hexp
      · exact absurd ho (hno a ha hhas)
  · have hneg : ¬LooksExpired mask lim now (live attrs) := not_or.mpr ⟨hexp, hover⟩
    rw [expireattr_fresh hlim hlim' hnow hattrs hneg, filter_has_live, List.take_eq_self_iff]
    constructor
    · intro h
      exact .inr ⟨fun a ha hhas ho => hover ⟨a, ha, hhas, ho⟩, h⟩
    · rintro (h | h)
      · exact absurd h hexp
      · exact h.2

theorem getattr_live {mask : UInt32} {lim now : Int} (hlim : 0 < lim) (hlim' : lim < 2 ^ 31)
    (hnow : Int31 now) (hattrs : ∀ a ∈ attrs, Int31 a.a_date ∧ Int31 a.a_ttl) {ac : Nat}
    (hok : GetOk mask lim ac now (live attrs)) :
    live (getattr mask lim ac now attrs).1 = (liveGet mask lim now (live attrs)).1 := by
  unfold getattr liveGet
  by_cases hexp : AnyExpired mask lim now (live attrs)
  · rw [expireattr_looks hlim hlim' hnow hattrs (.inl hexp), if_pos hexp]
    exact live_cleared mask attrs
  · obtain ⟨hover, -⟩ := hok.resolve_left hexp
    have hneg : ¬LooksExpired mask lim now (live attrs) := by
      rintro (h | ⟨a, ha, hhas, ho⟩)
      · exact hexp h
      · exact hover a ha hhas ho
    rw [expireattr_fresh hlim hlim' hnow hattrs hneg, if_neg hexp]

theorem putattr_live (addr : Nat) (flag : UInt32) (ttl : Int) (data : List UInt8) (now : Int) :
    live (putattr addr flag ttl data now attrs).1 = livePut addr flag ttl data now (live attrs) := by
  have hany : flag ≠ 0 → (live attrs).any (sameAttr flag data) = attrs.any (sameAttr flag data) := by
    intro hflag
    unfold live
    rw [List.any_filter]
    congr 1
    funext a
    by_cases h : sameAttr flag data a = true
    · have : a.a_flag = flag := by
        unfold sameAttr at h
        simp only [Bool.and_eq_true, beq_iff_eq] at h
        exact h.1.1.symm
      simp [h, this, hflag]
    · simp [h]
  unfold putattr livePut
  by_cases hflag : flag = 0
  · have hor : flag = 0 ∨ (live attrs).any (sameAttr flag data) = true := .inl hflag
    rw [if_pos hor]
    split
    · rfl
    · subst hflag
      rfl
  · rw [hany hflag]
    by_cases hdup : attrs.any (sameAttr flag data) = true
    · rw [if_pos hdup, if_pos (.inr hdup)]
    · have hor : ¬(flag = 0 ∨ attrs.any (sameAttr flag data) = true) := not_or.mpr ⟨hflag, hdup⟩
      rw [if_neg hdup, if_neg hor]
      unfold live
      rw [List.filter_cons_of_pos (by simpa using hflag)]

end Node

/-! ## Runs -/

inductive AttrOp
  | put (nid : Nat) (flag : UInt32) (ttl : Int) (data : List UInt8) (now : Int)
  | get (nid : Nat) (mask : UInt32) (lim : Int) (ac : Nat) (now : Int)

/-- The node exists, and the numbers are `int`s: times and TTLs from 0 on, and a limit above. -/
def AttrOp.InRange (NID : Nat) : AttrOp → Prop
  | put nid _ ttl _ now => nid ≤ NID ∧ Int31 ttl ∧ Int31 now
  | get nid _ lim _ now => nid ≤ NID ∧ 0 < lim ∧ lim < 2 ^ 31 ∧ Int31 now

/-- One call. A get has an answer. -/
def attrStep (s : Store) : AttrOp → Store × List Attr
  | .put nid flag ttl data now => ((DNS_putattr nid flag ttl data now s).1, [])
  | .get nid mask lim ac now => DNS_getattr nid mask lim ac now s

def attrRun (s : Store) : List AttrOp → Store × List (List Attr)
  | [] => (s, [])
  | op :: ops =>
    let r := attrRun (attrStep s op).1 ops
    (r.1, (attrStep s op).2 :: r.2)

/-- The records of each node that are not cleared, and the address of the next one. -/
structure Live where
  of : Nat → List Attr
  records : Nat

def liveStep (l : Live) : AttrOp → Live × List Attr
  | .put nid flag ttl data now =>
    (⟨Function.update l.of nid (livePut l.records flag ttl data now (l.of nid)), l.records + 1⟩, [])
  | .get nid mask lim _ now =>
    (⟨Function.update l.of nid (liveGet mask lim now (l.of nid)).1, l.records⟩,
      (liveGet mask lim now (l.of nid)).2)

def liveRun (l : Live) : List AttrOp → Live × List (List Attr)
  | [] => (l, [])
  | op :: ops =>
    let r := liveRun (liveStep l op).1 ops
    (r.1, (liveStep l op).2 :: r.2)

/-- No get of the run meets a sum that overflows, or an array that is too small. -/
def RunOk (l : Live) : List AttrOp → Prop
  | [] => True
  | .put nid flag ttl data now :: ops => RunOk (liveStep l (.put nid flag ttl data now)).1 ops
  | .get nid mask lim ac now :: ops =>
    GetOk mask lim ac now (l.of nid) ∧ RunOk (liveStep l (.get nid mask lim ac now)).1 ops

/-- The store has the records. -/
structure Holds (s : Store) (key : Nat → List Text) (l : Live) : Prop where
  index : Index s key
  records : s.records = l.records
  live : ∀ nid ≤ s.NID, live (s.heap nid).n_attr = l.of nid
  times : ∀ nid ≤ s.NID, ∀ a ∈ (s.heap nid).n_attr, Int31 a.a_date ∧ Int31 a.a_ttl

section Run
variable {s : Store} {key : Nat → List Text} {l : Live}

theorem Holds.setAttrs (h : Holds s key l) {nid : Nat} (hnid : nid ≤ s.NID) {attrs : List Attr}
    (htimes : ∀ a ∈ attrs, Int31 a.a_date ∧ Int31 a.a_ttl) (n : Nat) :
    Holds { setAttrs s nid attrs with records := n } key
      ⟨Function.update l.of nid (dnsnode.live attrs), n⟩ := by
  have hidx := @Index.setNode _ _ h.index nid { s.heap nid with n_attr := attrs }
    ⟨rfl, rfl, rfl, rfl, rfl⟩
  unfold dnsnode.setAttrs
  rw [h.index.getnode hnid]
  have hheap : ∀ i, ((s.setNode nid { s.heap nid with n_attr := attrs }).heap i).n_attr =
      if i = nid then attrs else (s.heap i).n_attr := by
    intro i
    unfold Store.setNode
    by_cases hi : i = nid
    · subst hi
      simp
    · simp [hi]
  refine ⟨⟨hidx.pos, hidx.next, hidx.table, hidx.room, hidx.size, hidx.nid, hidx.top, hidx.parent,
    hidx.children, hidx.inj⟩, rfl, ?_, ?_⟩
  · intro i hi
    dsimp only
    rw [hheap i]
    by_cases hin : i = nid
    · rw [if_pos hin, hin, Function.update_self]
    · rw [if_neg hin, Function.update_of_ne hin]
      exact h.live i hi
  · intro i hi a ha
    rw [hheap i] at ha
    by_cases hin : i = nid
    · rw [if_pos hin] at ha
      exact htimes a ha
    · rw [if_neg hin] at ha
      exact h.times i hi a ha

theorem putattr_times {addr : Nat} {flag : UInt32} {ttl now : Int} {data : List UInt8}
    {attrs : List Attr} (hattrs : ∀ a ∈ attrs, Int31 a.a_date ∧ Int31 a.a_ttl) (httl : Int31 ttl)
    (hnow : Int31 now) :
    ∀ a ∈ (putattr addr flag ttl data now attrs).1, Int31 a.a_date ∧ Int31 a.a_ttl := by
  unfold putattr
  split
  · exact hattrs
  · intro a ha
    rcases List.mem_cons.mp ha with rfl | ha
    · exact ⟨hnow, httl⟩
    · exact hattrs a ha

theorem getattr_times {mask : UInt32} {lim now : Int} {ac : Nat} {attrs : List Attr}
    (hattrs : ∀ a ∈ attrs, Int31 a.a_date ∧ Int31 a.a_ttl) :
    ∀ a ∈ (getattr mask lim ac now attrs).1, Int31 a.a_date ∧ Int31 a.a_ttl := by
  unfold getattr expireattr
  intro a ha
  dsimp only at ha
  split at ha
  · exact hattrs a ha
  split at ha
  · obtain ⟨b, hb, rfl⟩ := List.mem_map.mp ha
    split
    · exact hattrs b hb
    · exact hattrs b hb
  · exact hattrs a ha

/-- The store follows the records over a put. -/
theorem Holds.put (h : Holds s key l) {nid : Nat} {flag : UInt32} {ttl now : Int}
    {data : List UInt8} (hop : (AttrOp.put nid flag ttl data now).InRange s.NID) :
    Holds (attrStep s (.put nid flag ttl data now)).1 key
      (liveStep l (.put nid flag ttl data now)).1 := by
  obtain ⟨hnid, httl, hnow⟩ := hop
  have hset := h.setAttrs hnid
    (@putattr_times s.records flag ttl now data _ (h.times nid hnid) httl hnow) (s.records + 1)
  rw [putattr_live, h.live nid hnid, h.records] at hset
  simp only [attrStep, liveStep, DNS_putattr, h.index.getnode hnid, h.records]
  exact hset

/-- The answer of a get is right exactly under the condition, in every store of a run. -/
theorem Holds.get_iff (h : Holds s key l) {nid : Nat} {mask : UInt32} {lim now : Int} {ac : Nat}
    (hop : (AttrOp.get nid mask lim ac now).InRange s.NID) :
    (attrStep s (.get nid mask lim ac now)).2 = (liveStep l (.get nid mask lim ac now)).2 ↔
      GetOk mask lim ac now (l.of nid) := by
  obtain ⟨hnid, hlim, hlim', hnow⟩ := hop
  have hright := @getattr_right_iff _ mask lim now hlim hlim' hnow (h.times nid hnid) ac
  rw [h.live nid hnid] at hright
  simp only [attrStep, liveStep, DNS_getattr, h.index.getnode hnid]
  exact hright

/-- The store follows the records over a get under the condition. -/
theorem Holds.get (h : Holds s key l) {nid : Nat} {mask : UInt32} {lim now : Int} {ac : Nat}
    (hop : (AttrOp.get nid mask lim ac now).InRange s.NID) (hok : GetOk mask lim ac now (l.of nid)) :
    Holds (attrStep s (.get nid mask lim ac now)).1 key
      (liveStep l (.get nid mask lim ac now)).1 := by
  obtain ⟨hnid, hlim, hlim', hnow⟩ := hop
  have hset := h.setAttrs hnid (@getattr_times mask lim now ac _ (h.times nid hnid)) s.records
  rw [← h.live nid hnid] at hok
  rw [getattr_live hlim hlim' hnow (h.times nid hnid) hok, h.live nid hnid] at hset
  simp only [attrStep, liveStep, DNS_getattr, h.index.getnode hnid, ← h.records]
  exact hset

theorem attrStep_NID (s : Store) (op : AttrOp) : (attrStep s op).1.NID = s.NID := by
  cases op <;> rfl

/-- In a run whose gets all meet the condition, the answers are right. -/
theorem Holds.run (h : Holds s key l) {ops : List AttrOp} (hops : ∀ op ∈ ops, op.InRange s.NID)
    (hok : RunOk l ops) :
    (attrRun s ops).2 = (liveRun l ops).2 ∧ (attrRun s ops).1.NID = s.NID ∧
      Holds (attrRun s ops).1 key (liveRun l ops).1 := by
  induction ops generalizing s l with
  | nil => exact ⟨rfl, rfl, h⟩
  | cons op ops ih =>
    have hop := hops op List.mem_cons_self
    have hrest : ∀ o ∈ ops, o.InRange (attrStep s op).1.NID := by
      rw [attrStep_NID]
      exact fun o ho => hops o (List.mem_cons_of_mem _ ho)
    have hstep : (attrStep s op).2 = (liveStep l op).2 ∧
        Holds (attrStep s op).1 key (liveStep l op).1 ∧ RunOk (liveStep l op).1 ops := by
      cases op with
      | put nid flag ttl data now => exact ⟨rfl, h.put hop, hok⟩
      | get nid mask lim ac now => exact ⟨(h.get_iff hop).mpr hok.1, h.get hop hok.1, hok.2⟩
    obtain ⟨hanswer, hholds, hok'⟩ := hstep
    obtain ⟨hanswers, hNID, hend⟩ := ih hholds hrest hok'
    unfold attrRun liveRun
    refine ⟨?_, by rw [hNID, attrStep_NID], hend⟩
    dsimp only
    rw [hanswer, hanswers]

end Run

/-- The records at the start. -/
def noRecords (s : Store) : Live := ⟨fun _ => [], s.records⟩

/-- From a store without records: while the gets of a run meet the condition, every answer is
right, and the answer of the next get is right exactly if it meets the condition too. -/
theorem answers_right (s : Store) (key : Nat → List Text) (hidx : Index s key)
    (hnone : ∀ nid ≤ s.NID, (s.heap nid).n_attr = []) (ops : List AttrOp)
    (hops : ∀ op ∈ ops, op.InRange s.NID) (hok : RunOk (noRecords s) ops) :
    (attrRun s ops).2 = (liveRun (noRecords s) ops).2 ∧
      ∀ nid mask lim ac now, (AttrOp.get nid mask lim ac now).InRange s.NID →
        ((attrStep (attrRun s ops).1 (.get nid mask lim ac now)).2 =
            (liveStep (liveRun (noRecords s) ops).1 (.get nid mask lim ac now)).2 ↔
          GetOk mask lim ac now ((liveRun (noRecords s) ops).1.of nid)) := by
  have hstart : Holds s key (noRecords s) := by
    refine ⟨hidx, rfl, ?_, ?_⟩
    · intro nid hnid
      rw [hnone nid hnid]
      rfl
    · intro nid hnid a ha
      rw [hnone nid hnid] at ha
      cases ha
  obtain ⟨hanswers, hNID, hend⟩ := hstart.run hops hok
  refine ⟨hanswers, ?_⟩
  intro nid mask lim ac now hop
  exact hend.get_iff (by rwa [hNID])

/-- A put at the root node and a get one second later. -/
def putAndGet (ttl : Int) : List AttrOp :=
  [.put 1 2 ttl [1, 1, 10, 0, 0, 5] 1000000000, .get 1 2 3600 8 1000000001]

theorem answers_right_once :
    (attrRun Store.init (putAndGet 60)).2 = (liveRun (noRecords Store.init) (putAndGet 60)).2 := by
  refine (answers_right Store.init (fun _ => []) index_init ?_ (putAndGet 60) ?_ ?_).1
  · intro nid hnid
    have : nid = 0 ∨ nid = 1 := by
      change nid ≤ 1 at hnid
      omega
    rcases this with rfl | rfl <;> rfl
  · intro op hop
    rcases List.mem_cons.mp hop with rfl | hop
    · exact ⟨le_rfl, by decide, by decide⟩
    · rw [List.mem_singleton.mp hop]
      exact ⟨le_rfl, by decide, by decide, by decide⟩
  · exact ⟨.inr ⟨by decide, by decide⟩, trivial⟩

/-- With the largest TTL the fresh record is cleared and not returned. -/
theorem fresh_record_lost :
    (attrRun Store.init (putAndGet (2 ^ 31 - 1))).2 = [[], []] ∧
      (liveRun (noRecords Store.init) (putAndGet (2 ^ 31 - 1))).2 =
        [[], [⟨0, 2, 1000000000, 2 ^ 31 - 1, [1, 1, 10, 0, 0, 5]⟩]] := by
  decide +kernel

end delegate.dnsnode
