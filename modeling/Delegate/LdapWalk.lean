-- The walk of scan_mssgX over the elements of an LDAP message, with no edit
-- and no dump: which messages it walks to the end within their octets.
import Delegate.LdapRead

open stores
open delegate.dns (Octet Bytes)

namespace delegate.ldap

/-! ## The pure model -/

def TYPE_STRUCT : Octet := 0x20

def TYPE_INT : Octet := 2

/-- The sum of two `int`. -/
def addInt (a b : Int) : Int := (a + b).bmod (2 ^ 32)

/-- `scan_int`: the value and the reads. -/
def scan_int (m : Bytes) (p leng : Int) : Int × List Event :=
  (((field m p leng.toNat).foldl shiftIn 0).toInt, readsOf p leng.toNat)

/-- What a walk does, and `int1st` after it. -/
structure Trace where
  events : List Event
  int1st : Int

/-- The first integer, once it is there. -/
def takeInt (m : Bytes) (p : Int) (h : Head) (int1st : Int) : Int × List Event :=
  if h.type = TYPE_INT ∧ int1st < 0 then scan_int m (p + h.tlen) h.leng else (int1st, [])

mutual

def scan_mssg1 (m : Bytes) : Nat → Nat → Int → Int → Int → Option Trace
  | 0, _, _, _, _ => none
  | fuel + 1, lev, nel, data, int1st =>
    let h := scan_head m data
    let i := takeInt m data h int1st
    let events := h.events ++ .eno lev nel :: i.2
    if h.type &&& TYPE_STRUCT ≠ 0 then
      (scan_next m fuel (lev + 1) 1 h.leng (data + h.tlen) 0 i.1).map fun t =>
        ⟨events ++ t.events, t.int1st⟩
    else some ⟨events, i.1⟩

def scan_next (m : Bytes) : Nat → Nat → Int → Int → Int → Int → Int → Option Trace
  | 0, _, _, _, _, _, _ => none
  | fuel + 1, lev, cel, pleng, data, toff, int1st =>
    if pleng = 0 then some ⟨[], int1st⟩
    else
      let h := scan_head m data
      let ileng1 := addInt h.tlen h.leng
      let events := h.events ++ [.eno lev cel, .eno (lev + 1) 0]
      (scan_mssg1 m fuel lev cel data int1st).bind fun t =>
        if addInt toff ileng1 < pleng then
          (scan_next m fuel lev (cel + 1) pleng (data + ileng1) (addInt toff ileng1) t.int1st).map
            fun u => ⟨events ++ t.events ++ u.events, u.int1st⟩
        else some ⟨events ++ t.events, t.int1st⟩

end

/-- The walk over a message, with `fuel` as a bound on the depth of calls. -/
def scan_mssgX (fuel : Nat) (m : Bytes) (int1st : Int) : Option Trace :=
  (scan_mssg1 m fuel 0 1 0 int1st).map fun t =>
    ⟨(scan_head m 0).events ++ t.events, t.int1st⟩

/-! ## Messages that can be walked -/

/-- A read of an octet of the message, a store to one of the 16 numbers. -/
def Event.Ok (m : Bytes) : Event → Prop
  | .read p => 0 ≤ p ∧ p < m.length
  | .eno i _ => i < 16

def AllOk (m : Bytes) (events : List Event) : Prop := ∀ e ∈ events, e.Ok m

/-- The length of an element with its header. -/
def ileng (m : Bytes) (p : Int) : Int := addInt (tlen m p) (leng m p)

/-- The header of an element lies in the message. -/
def HeadIn (m : Bytes) (p : Int) : Prop := 0 ≤ p ∧ p + tlen m p ≤ m.length

def Constructed (m : Bytes) (p : Int) : Prop := octetAt m p &&& TYPE_STRUCT ≠ 0

instance instDecidableConstructed (m : Bytes) (p : Int) : Decidable (Constructed m p) :=
  inferInstanceAs (Decidable (_ ≠ _))

/-- The element is an integer, and none was there before it. -/
def FirstInt (m : Bytes) (p int1st : Int) : Prop := octetAt m p = TYPE_INT ∧ int1st < 0

instance instDecidableFirstInt (m : Bytes) (p int1st : Int) : Decidable (FirstInt m p int1st) :=
  inferInstanceAs (Decidable (_ ∧ _))

/-- The value of an integer element. -/
def intValue (m : Bytes) (p : Int) : Int :=
  (BitVec.ofNat 32 (value (field m (p + tlen m p) (leng m p).toNat))).toInt

/-- An element at a level, or the rest of the contents of one: elements at `p` on, of which `toff`
octets of `pleng` are done. -/
inductive Item
  | element (lev : Nat) (p : Int)
  | contents (lev : Nat) (pleng p toff : Int)

/-- The grammar of the messages that can be walked. Headers lie in the message, contents are at most
at level 14 and end after finitely many elements, and the integers up to the first one that is not
negative lie in the message. The numbers are the first integer before and after. -/
inductive Walkable (m : Bytes) : Item → Int → Int → Prop
  | leaf {lev : Nat} {p i : Int} : HeadIn m p → ¬Constructed m p →
      (FirstInt m p i → leng m p ≤ 0 ∨ p + tlen m p + leng m p ≤ m.length) →
      Walkable m (.element lev p) i (if FirstInt m p i then intValue m p else i)
  | node {lev : Nat} {p i j : Int} : HeadIn m p → Constructed m p →
      Walkable m (.contents (lev + 1) (leng m p) (p + tlen m p) 0) i j →
      Walkable m (.element lev p) i j
  | nothing {lev : Nat} {p toff i : Int} : Walkable m (.contents lev 0 p toff) i i
  | last {lev : Nat} {pleng p toff i j : Int} : pleng ≠ 0 → lev ≤ 14 →
      Walkable m (.element lev p) i j → pleng ≤ addInt toff (ileng m p) →
      Walkable m (.contents lev pleng p toff) i j
  | more {lev : Nat} {pleng p toff i k j : Int} : pleng ≠ 0 → lev ≤ 14 →
      Walkable m (.element lev p) i k → addInt toff (ileng m p) < pleng →
      Walkable m (.contents lev pleng (p + ileng m p) (addInt toff (ileng m p))) k j →
      Walkable m (.contents lev pleng p toff) i j

theorem allOk_append {m : Bytes} {a b : List Event} :
    AllOk m (a ++ b) ↔ AllOk m a ∧ AllOk m b := List.forall_mem_append

theorem allOk_cons {m : Bytes} {e : Event} {b : List Event} :
    AllOk m (e :: b) ↔ e.Ok m ∧ AllOk m b := List.forall_mem_cons

theorem allOk_nil {m : Bytes} : AllOk m [] := fun _ h => absurd h List.not_mem_nil

theorem allOk_readsOf {m : Bytes} {p : Int} {n : Nat} :
    AllOk m (readsOf p n) ↔ n = 0 ∨ (0 ≤ p ∧ p + n ≤ m.length) := by
  constructor
  · intro h
    by_cases hn : n = 0
    · exact .inl hn
    · have hread : ∀ i, i < n → 0 ≤ p + i ∧ p + i < m.length := fun i hi =>
        h (.read (p + i)) (List.mem_map.mpr ⟨i, List.mem_range.mpr hi, rfl⟩)
      have hfirst := hread 0 (Nat.pos_of_ne_zero hn)
      have hlast := hread (n - 1) (by omega)
      exact .inr ⟨by omega, by omega⟩
  · rintro h e he
    obtain ⟨i, hi, rfl⟩ := List.mem_map.mp he
    have hi' := List.mem_range.mp hi
    have hp : 0 ≤ p + i ∧ p + i < m.length := by omega
    exact hp

theorem allOk_head {m : Bytes} {p : Int} : AllOk m (scan_head m p).events ↔ HeadIn m p := by
  have htlen : tlen m p ≠ 0 := by unfold tlen; omega
  rw [scan_head_eq, allOk_readsOf]
  unfold HeadIn
  omega

theorem not_firstInt {m : Bytes} {p i : Int} (h : Constructed m p) : ¬FirstInt m p i := by
  rintro ⟨hint, -⟩
  rw [Constructed, hint] at h
  exact h (by decide)

theorem takeInt_none {m : Bytes} {p i : Int} (h : ¬FirstInt m p i) :
    takeInt m p (scan_head m p) i = (i, []) := by
  rw [takeInt, scan_head_eq]
  exact if_neg h

theorem takeInt_first {m : Bytes} {p i : Int} (h : FirstInt m p i) :
    takeInt m p (scan_head m p) i =
      (intValue m p, readsOf (p + tlen m p) (leng m p).toNat) := by
  rw [takeInt, scan_head_eq]
  refine (if_pos h).trans ?_
  rw [scan_int, foldl_shiftIn]
  rfl

theorem scan_mssg1_leaf {m : Bytes} {p : Int} (h : ¬Constructed m p) (fuel lev : Nat) (nel i : Int) :
    scan_mssg1 m (fuel + 1) lev nel p i =
      some ⟨(scan_head m p).events ++ .eno lev nel :: (takeInt m p (scan_head m p) i).2,
        (takeInt m p (scan_head m p) i).1⟩ := by
  rw [scan_mssg1]
  exact if_neg h

theorem scan_mssg1_node {m : Bytes} {p : Int} (h : Constructed m p) (fuel lev : Nat) (nel i : Int) :
    scan_mssg1 m (fuel + 1) lev nel p i =
      (scan_next m fuel (lev + 1) 1 (leng m p) (p + tlen m p) 0 i).map fun t =>
        ⟨(scan_head m p).events ++ .eno lev nel :: t.events, t.int1st⟩ := by
  have hint := takeInt_none (not_firstInt h (i := i))
  have htlen : (scan_head m p).tlen = tlen m p := by rw [scan_head_eq]
  have hleng : (scan_head m p).leng = leng m p := by rw [scan_head_eq]
  rw [scan_mssg1]
  refine (if_pos h).trans ?_
  rw [hint, htlen, hleng]
  simp only [List.append_assoc, List.cons_append, List.nil_append]

theorem scan_next_succ {m : Bytes} {pleng : Int} (h : pleng ≠ 0) (fuel lev : Nat)
    (cel p toff i : Int) :
    scan_next m (fuel + 1) lev cel pleng p toff i =
      (scan_mssg1 m fuel lev cel p i).bind fun t =>
        if addInt toff (ileng m p) < pleng then
          (scan_next m fuel lev (cel + 1) pleng (p + ileng m p) (addInt toff (ileng m p))
            t.int1st).map fun u =>
              ⟨(scan_head m p).events ++ [.eno lev cel, .eno (lev + 1) 0] ++ t.events ++ u.events,
                u.int1st⟩
        else some ⟨(scan_head m p).events ++ [.eno lev cel, .eno (lev + 1) 0] ++ t.events,
          t.int1st⟩ := by
  have hileng : addInt (scan_head m p).tlen (scan_head m p).leng = ileng m p := by
    rw [scan_head_eq]
    rfl
  rw [scan_next, if_neg h]
  dsimp only
  rw [hileng]

/-- The events of a leaf. -/
theorem allOk_takeInt {m : Bytes} {p i : Int} (hhead : HeadIn m p) :
    AllOk m (takeInt m p (scan_head m p) i).2 ↔
      (FirstInt m p i → leng m p ≤ 0 ∨ p + tlen m p + leng m p ≤ m.length) := by
  by_cases hint : FirstInt m p i
  · have hp := hhead.1
    rw [takeInt_first hint, allOk_readsOf]
    constructor
    · intro h _
      omega
    · intro h
      have := h hint
      omega
  · rw [takeInt_none hint]
    exact ⟨fun _ h => absurd h hint, fun _ => allOk_nil⟩

theorem takeInt_fst (m : Bytes) (p i : Int) :
    (takeInt m p (scan_head m p) i).1 = if FirstInt m p i then intValue m p else i := by
  by_cases hint : FirstInt m p i
  · rw [takeInt_first hint, if_pos hint]
  · rw [takeInt_none hint, if_neg hint]

/-! ## The walk and the grammar -/

theorem Walkable.headIn {m : Bytes} {lev : Nat} {p i j : Int}
    (h : Walkable m (.element lev p) i j) : HeadIn m p := by
  cases h with
  | leaf hhead => exact hhead
  | node hhead => exact hhead

/-- The events of an element in contents, before those of the element itself. -/
theorem allOk_contents {m : Bytes} {p : Int} {lev : Nat} {cel : Int} (hhead : HeadIn m p)
    (hlev : lev ≤ 14) :
    AllOk m ((scan_head m p).events ++ [.eno lev cel, .eno (lev + 1) 0]) := by
  have hlev0 : lev < 16 := by omega
  have hlev1 : lev + 1 < 16 := by omega
  exact allOk_append.mpr ⟨allOk_head.mpr hhead, allOk_cons.mpr ⟨hlev0, allOk_cons.mpr ⟨hlev1, allOk_nil⟩⟩⟩

/-- A walk that ends within the message follows the grammar. -/
theorem walkable_of_scan (m : Bytes) (fuel : Nat) :
    (∀ lev nel p i t, scan_mssg1 m fuel lev nel p i = some t → AllOk m t.events →
      Walkable m (.element lev p) i t.int1st) ∧
    ∀ lev cel pleng p toff i t, scan_next m fuel lev cel pleng p toff i = some t →
      AllOk m t.events → Walkable m (.contents lev pleng p toff) i t.int1st := by
  induction fuel with
  | zero =>
    constructor
    · intro lev nel p i t h
      rw [scan_mssg1] at h
      cases h
    · intro lev cel pleng p toff i t h
      rw [scan_next] at h
      cases h
  | succ fuel ih =>
    obtain ⟨ihElement, ihContents⟩ := ih
    constructor
    · intro lev nel p i t h hok
      by_cases hcons : Constructed m p
      · rw [scan_mssg1_node hcons] at h
        obtain ⟨u, hu, rfl⟩ := Option.map_eq_some_iff.mp h
        obtain ⟨hhead, hrest⟩ := allOk_append.mp hok
        have hwalk := ihContents _ _ _ _ _ _ u hu (allOk_cons.mp hrest).2
        exact .node (allOk_head.mp hhead) hcons hwalk
      · rw [scan_mssg1_leaf hcons] at h
        obtain rfl := Option.some.inj h
        obtain ⟨hhead, hrest⟩ := allOk_append.mp hok
        have hin := allOk_head.mp hhead
        have hint := (allOk_takeInt hin).mp (allOk_cons.mp hrest).2
        dsimp only
        rw [takeInt_fst]
        exact .leaf hin hcons hint
    · intro lev cel pleng p toff i t h hok
      by_cases hzero : pleng = 0
      · rw [scan_next, if_pos hzero] at h
        obtain rfl := Option.some.inj h
        rw [hzero]
        exact .nothing
      · rw [scan_next_succ hzero] at h
        obtain ⟨u, hu, h⟩ := Option.bind_eq_some_iff.mp h
        by_cases hmore : addInt toff (ileng m p) < pleng
        · rw [if_pos hmore] at h
          obtain ⟨v, hv, rfl⟩ := Option.map_eq_some_iff.mp h
          obtain ⟨hok, hokv⟩ := allOk_append.mp hok
          obtain ⟨hok, hoku⟩ := allOk_append.mp hok
          have hlev : lev + 1 < 16 := hok (.eno (lev + 1) 0) (by simp)
          have hfirst := ihElement _ _ _ _ u hu hoku
          have hrest := ihContents _ _ _ _ _ _ v hv hokv
          exact .more hzero (by omega) hfirst hmore hrest
        · rw [if_neg hmore] at h
          obtain rfl := Option.some.inj h
          obtain ⟨hok, hoku⟩ := allOk_append.mp hok
          have hlev : lev + 1 < 16 := hok (.eno (lev + 1) 0) (by simp)
          have hfirst := ihElement _ _ _ _ u hu hoku
          exact .last hzero (by omega) hfirst (Int.not_lt.mp hmore)

/-- The walk of an item from a number of calls on. -/
def Walks (m : Bytes) (item : Item) (i j : Int) (fuel : Nat) : Prop :=
  match item with
  | .element lev p => lev < 16 → ∀ nel, ∃ t, scan_mssg1 m fuel lev nel p i = some t ∧
      AllOk m t.events ∧ t.int1st = j
  | .contents lev pleng p toff => ∀ cel, ∃ t, scan_next m fuel lev cel pleng p toff i = some t ∧
      AllOk m t.events ∧ t.int1st = j

/-- A message of the grammar is walked within it, for every bound that is large enough. -/
theorem scan_of_walkable {m : Bytes} {item : Item} {i j : Int} (h : Walkable m item i j) :
    ∃ n, ∀ fuel, n ≤ fuel → Walks m item i j fuel := by
  induction h with
  | @leaf lev p i hhead hcons hint =>
    refine ⟨1, ?_⟩
    intro fuel hfuel hlev nel
    obtain ⟨fuel, rfl⟩ := Nat.exists_eq_add_of_le' hfuel
    refine ⟨_, scan_mssg1_leaf hcons fuel lev nel i, ?_, takeInt_fst m p i⟩
    exact allOk_append.mpr ⟨allOk_head.mpr hhead,
      allOk_cons.mpr ⟨hlev, (allOk_takeInt hhead).mpr hint⟩⟩
  | @node lev p i j hhead hcons _ ih =>
    obtain ⟨n, hn⟩ := ih
    refine ⟨n + 1, ?_⟩
    intro fuel hfuel hlev nel
    obtain ⟨fuel, rfl⟩ := Nat.exists_eq_add_of_le' (Nat.le_of_add_left_le hfuel)
    obtain ⟨t, ht, hok, hj⟩ := hn fuel (by omega) 1
    refine ⟨⟨(scan_head m p).events ++ .eno lev nel :: t.events, t.int1st⟩, ?_, ?_, hj⟩
    · rw [scan_mssg1_node hcons, ht, Option.map_some]
    · exact allOk_append.mpr ⟨allOk_head.mpr hhead, allOk_cons.mpr ⟨hlev, hok⟩⟩
  | @nothing lev p toff i =>
    refine ⟨1, ?_⟩
    intro fuel hfuel cel
    obtain ⟨fuel, rfl⟩ := Nat.exists_eq_add_of_le' hfuel
    refine ⟨⟨[], i⟩, ?_, allOk_nil, rfl⟩
    rw [scan_next, if_pos rfl]
  | @last lev pleng p toff i j hzero hlev hwalk hend ih =>
    obtain ⟨n, hn⟩ := ih
    refine ⟨n + 1, ?_⟩
    intro fuel hfuel cel
    obtain ⟨fuel, rfl⟩ := Nat.exists_eq_add_of_le' (Nat.le_of_add_left_le hfuel)
    obtain ⟨t, ht, hok, hj⟩ := hn fuel (by omega) (by omega) cel
    refine ⟨⟨(scan_head m p).events ++ [.eno lev cel, .eno (lev + 1) 0] ++ t.events, t.int1st⟩,
      ?_, ?_, hj⟩
    · rw [scan_next_succ hzero, ht, Option.bind_some, if_neg (Int.not_lt.mpr hend)]
    · exact allOk_append.mpr ⟨allOk_contents hwalk.headIn hlev, hok⟩
  | @more lev pleng p toff i k j hzero hlev hwalk hmore _ ih ih' =>
    obtain ⟨n, hn⟩ := ih
    obtain ⟨n', hn'⟩ := ih'
    refine ⟨max n n' + 1, ?_⟩
    intro fuel hfuel cel
    obtain ⟨fuel, rfl⟩ := Nat.exists_eq_add_of_le' (Nat.le_of_add_left_le hfuel)
    obtain ⟨t, ht, hok, rfl⟩ := hn fuel (by omega) (by omega) cel
    obtain ⟨u, hu, hok', hj⟩ := hn' fuel (by omega) (cel + 1)
    refine ⟨⟨(scan_head m p).events ++ [.eno lev cel, .eno (lev + 1) 0] ++ t.events ++ u.events,
      u.int1st⟩, ?_, ?_, hj⟩
    · rw [scan_next_succ hzero, ht, Option.bind_some, if_pos hmore, hu, Option.map_some]
    · exact allOk_append.mpr
        ⟨allOk_append.mpr ⟨allOk_contents hwalk.headIn hlev, hok⟩, hok'⟩

/-- The walk ends within the message exactly for the messages of the grammar. -/
theorem scan_mssgX_iff (m : Bytes) (int1st : Int) :
    (∃ fuel t, scan_mssgX fuel m int1st = some t ∧ AllOk m t.events) ↔
      ∃ j, Walkable m (.element 0 0) int1st j := by
  constructor
  · rintro ⟨fuel, t, h, hok⟩
    obtain ⟨u, hu, rfl⟩ := Option.map_eq_some_iff.mp h
    exact ⟨u.int1st, (walkable_of_scan m fuel).1 _ _ _ _ u hu (allOk_append.mp hok).2⟩
  · rintro ⟨j, h⟩
    obtain ⟨n, hn⟩ := scan_of_walkable h
    obtain ⟨t, ht, hok, -⟩ := hn n (Nat.le_refl n) (by decide) 1
    refine ⟨n, _, Option.map_eq_some_iff.mpr ⟨t, ht, rfl⟩, ?_⟩
    exact allOk_append.mpr ⟨allOk_head.mpr h.headIn, hok⟩

/-! ## Files -/

/-- What is asked of `read_mssg` on a file, and of the walk over what it returns: the stores are in
`tbuf` and in the block of the message. -/
structure Safe (polled : Bool) (input : Bytes) (int1st : Int) : Prop where
  header : (read_mssg polled input).tbuf.length ≤ 128
  block : (read_mssg polled input).body.Kept
  returned : ∀ n m, (read_mssg polled input).body.got = .mssg n m →
    0 ≤ n ∧ (m.length : Int) = (read_mssg polled input).tbuf.length + n ∧ mssglen m = m.length
  walked : ∀ n m, (read_mssg polled input).body.got = .mssg n m →
    ∃ fuel t, scan_mssgX fuel m int1st = some t ∧ AllOk m t.events

/-- The files for which it holds. All octets of the length are there, it does not begin with `0xFF`
and is not negative, and a complete message is one of the grammar. -/
def Sound (input : Bytes) (int1st : Int) : Prop :=
  match input with
  | [] => True
  | [_] => False
  | type :: l :: rest => l ≠ 0xFF ∧ noct l ≤ rest.length ∧
      let octets := rest.take (noct l)
      let data := rest.drop (noct l)
      0 ≤ announced l octets ∧ (Complete l octets data →
        ∃ j, Walkable (type :: l :: (octets ++ data.take (announced l octets).toNat))
          (.element 0 0) int1st j)

/-- Where nothing is read, nothing is stored. -/
theorem safe_null {polled : Bool} {input : Bytes} (int1st : Int)
    (h : read_mssg polled input = ⟨[], ⟨0, [], .null⟩⟩) : Safe polled input int1st := by
  refine ⟨by rw [h]; exact Nat.zero_le _, by rw [h]; exact within_nil, ?_, ?_⟩
  · intro n m hm
    rw [h] at hm
    cases hm
  · intro n m hm
    rw [h] at hm
    cases hm

theorem read_mssg_file (type l : Octet) (rest : Bytes) (h : noct l ≤ rest.length) :
    read_mssg true (type :: l :: rest) =
      ⟨type :: l :: rest.take (noct l), read_body (type :: l :: rest.take (noct l))
        (announced l (rest.take (noct l))) (rest.drop (noct l))⟩ := by
  obtain ⟨hleng, hstate⟩ := scan_leng_file l rest [type] h
  rw [read_mssg, hleng, hstate]
  rfl

/-- The file ends in the length: the length is -1. -/
theorem not_safe_short (type l : Octet) (rest : Bytes) (int1st : Int) (h : rest.length < noct l) :
    ¬Safe true (type :: l :: rest) int1st := by
  obtain ⟨stored, hscan, hlen⟩ := scan_leng_short l rest [type] h
  have hne : stored ≠ [] := by
    apply List.ne_nil_of_length_pos
    omega
  have hleng : (-1 : Word).toInt = -1 := by decide
  intro hs
  have hblock : (read_mssg true (type :: l :: rest)).body.Kept := hs.block
  rw [read_mssg, hscan] at hblock
  dsimp only at hblock
  rw [hleng, read_body_kept hne (by decide)] at hblock
  exact absurd hblock (by decide)

/-- A header that is there. -/
theorem safe_file (type l : Octet) (rest : Bytes) (int1st : Int) (h : noct l ≤ rest.length) :
    Safe true (type :: l :: rest) int1st ↔ Sound (type :: l :: rest) int1st := by
  have hread := read_mssg_file type l rest h
  obtain ⟨-, hhi⟩ := announced_range l (rest.take (noct l))
  have htbuf : (type :: l :: rest.take (noct l)).length = 2 + noct l := by
    rw [List.length_cons, List.length_cons, List.length_take, Nat.min_eq_left h]
    omega
  have hkept := read_body_kept (List.cons_ne_nil type (l :: rest.take (noct l))) hhi
    (rest.drop (noct l))
  constructor
  · intro hs
    have hheader := hs.header
    have hblock := hs.block
    rw [hread, htbuf] at hheader
    rw [hread] at hblock
    have hpos := hkept.mp hblock
    refine ⟨(noct_le_iff l).mp hheader, h, hpos, ?_⟩
    intro hall
    have hwalk := hs.walked _ _ (by rw [hread]; exact (read_body_mssg hpos _ _).mpr ⟨rfl, rfl, hall⟩)
    exact (scan_mssgX_iff _ _).mp hwalk
  · rintro ⟨hl, -, hpos, hwalk⟩
    have hgot : ∀ n m, (read_mssg true (type :: l :: rest)).body.got = .mssg n m →
        n = announced l (rest.take (noct l)) ∧
          m = type :: l :: (rest.take (noct l) ++ (rest.drop (noct l)).take
            (announced l (rest.take (noct l))).toNat) ∧
          Complete l (rest.take (noct l)) (rest.drop (noct l)) := by
      intro n m hm
      rw [hread] at hm
      exact (read_body_mssg hpos n m).mp hm
    refine ⟨?_, ?_, ?_, ?_⟩
    · rw [hread, htbuf]
      exact (noct_le_iff l).mpr hl
    · rw [hread]
      exact hkept.mpr hpos
    · intro n m hm
      obtain ⟨rfl, rfl, hcomplete⟩ := hgot n m hm
      obtain ⟨htlen, hleng⟩ := head_of_message type l (rest.take (noct l))
        ((rest.drop (noct l)).take (announced l (rest.take (noct l))).toNat)
        (List.length_take_of_le h)
      have hlen := hcomplete.2
      have htotal : ((type :: l :: (rest.take (noct l) ++ (rest.drop (noct l)).take
          (announced l (rest.take (noct l))).toNat)).length : Int) =
            (2 + noct l : Nat) + announced l (rest.take (noct l)) := by
        simp only [List.length_cons, List.length_append, List.length_take_of_le h,
          List.length_take]
        omega
      refine ⟨hpos, ?_, ?_⟩
      · rw [hread, htbuf]
        exact htotal
      · rw [mssglen, scan_head_eq, htlen, hleng]
        exact htotal.symm
    · intro n m hm
      obtain ⟨-, rfl, hcomplete⟩ := hgot n m hm
      exact (scan_mssgX_iff _ _).mpr (hwalk hcomplete)

/-- A file of one octet. -/
theorem not_safe_single (type : Octet) (int1st : Int) : ¬Safe true [type] int1st := by
  intro hs
  have hheader : (scan_leng getOctet ⟨[], [type]⟩).state.stored.length ≤ 128 := hs.header
  rw [scan_leng_eof, List.length_singleton] at hheader
  omega

/-- The reading and the walk are safe exactly for the files above. -/
theorem safe_iff (polled : Bool) (input : Bytes) (int1st : Int) :
    Safe polled input int1st ↔ (polled = true → Sound input int1st) := by
  cases polled with
  | false => exact ⟨fun _ h => absurd h Bool.false_ne_true, fun _ => safe_null int1st rfl⟩
  | true =>
    rw [forall_prop_of_true rfl]
    match input with
    | [] => exact ⟨fun _ => trivial, fun _ => safe_null int1st rfl⟩
    | [type] => exact ⟨fun hs => not_safe_single type int1st hs, False.elim⟩
    | type :: l :: rest =>
      by_cases h : noct l ≤ rest.length
      · exact safe_file type l rest int1st h
      · exact ⟨fun hs => absurd hs (not_safe_short type l rest int1st (Nat.lt_of_not_le h)),
          fun hs => absurd hs.2.1 h⟩

/-- Contents of one octet, and an element of length 0 with its header. -/
theorem not_walkable_cut (i j : Int) : ¬Walkable [0x30, 1, 4] (.element 0 0) i j := by
  intro h
  cases h with
  | leaf _ hcons => exact hcons (by decide)
  | node _ _ h =>
    have hhead : HeadIn [0x30, 1, 4] (0 + tlen [0x30, 1, 4] 0) := by
      cases h with
      | last _ _ h => exact h.headIn
      | more _ _ h => exact h.headIn
    exact absurd hhead.2 (by decide)

theorem not_walkable_again {item : Item} {i j : Int}
    (h : Walkable [0x30, 6, 4, 0x84, 0xFF, 0xFF, 0xFF, 0xFA] item i j) :
    item ≠ .contents 1 6 2 0 := by
  have hileng : ileng [0x30, 6, 4, 0x84, 0xFF, 0xFF, 0xFF, 0xFA] 2 = 0 := by decide
  induction h with
  | leaf => simp
  | node => simp
  | nothing => simp
  | last _ _ _ hend =>
    intro heq
    cases heq
    rw [hileng] at hend
    exact absurd hend (by decide)
  | more _ _ _ _ _ _ ih =>
    intro heq
    cases heq
    rw [hileng] at ih
    exact ih rfl

/-- A connection closed after one octet, a length that the file ends in, a negative length with octets
behind it, a negative size of the block, a header that ends after its message, and an element whose next
one is itself. -/
theorem files_not_safe :
    ¬Safe true [0x30] (-1) ∧ ¬Safe true [0x30, 0x84, 0] (-1) ∧
      ¬Safe true [0x30, 0x84, 0xFF, 0xFF, 0xFF, 0xFF, 0] (-1) ∧
      ¬Safe true [0x30, 0x84, 0x80, 0, 0, 0] (-1) ∧ ¬Safe true [0x30, 1, 4] (-1) ∧
      ¬Safe true [0x30, 6, 4, 0x84, 0xFF, 0xFF, 0xFF, 0xFA] (-1) := by
  have hnegative : ∀ rest : Bytes, 4 ≤ rest.length → announced 0x84 (rest.take 4) < 0 →
      ¬Safe true (0x30 :: 0x84 :: rest) (-1) := by
    intro rest hlen hneg hs
    have hpos := ((safe_file 0x30 0x84 rest (-1) hlen).mp hs).2.2.1
    exact absurd hneg (Int.not_lt.mpr hpos)
  refine ⟨not_safe_single 0x30 (-1), not_safe_short 0x30 0x84 [0] (-1) (by decide),
    hnegative [0xFF, 0xFF, 0xFF, 0xFF, 0] (by decide) (by decide),
    hnegative [0x80, 0, 0, 0] (by decide) (by decide), ?_, ?_⟩
  · intro hs
    have hsound := ((safe_file 0x30 1 [4] (-1) (by decide)).mp hs).2.2.2
    obtain ⟨j, hj⟩ := hsound (by decide)
    exact not_walkable_cut _ _ hj
  · intro hs
    have hsound := ((safe_file 0x30 6 [4, 0x84, 0xFF, 0xFF, 0xFF, 0xFA] (-1) (by decide)).mp hs).2.2.2
    obtain ⟨j, hj⟩ := hsound (by decide)
    cases hj with
    | leaf _ hcons => exact hcons (by decide)
    | node _ _ h => exact not_walkable_again h rfl

end delegate.ldap
