-- LDAP messages as read_mssg of ldap.cpp reads them: a type octet, length
-- octets, and as many octets as the length says. The length is an int.
import Delegate.DnsMessage
import Delegate.Stores

open stores
open delegate.dns (Octet Bytes)

namespace delegate.ldap

/-! ## The pure model -/

/-- An `int` of C. -/
abbrev Word := BitVec 32

/-- The value of an octet as an `int`. -/
def ofOctet (o : Octet) : Word := o.toBitVec.setWidth 32

/-- What scan_leng gives: the number of octets, the length, and the state of the input. -/
structure Scanned (σ : Type) where
  bytes : Nat
  leng : Word
  state : σ

/-- The loop over the length octets, with `n` more of them. -/
def lengLoop {σ : Type} (next : σ → Word × σ) : Nat → Nat → Word → σ → Scanned σ
  | 0, bytes, leng, s => ⟨bytes, leng, s⟩
  | n + 1, bytes, leng, s =>
    let r := next s
    lengLoop next n (bytes + 1) (leng <<< 8 ||| r.1) r.2

/-- `scan_leng` over an input: the file, or the octets in memory. -/
def scan_leng {σ : Type} (next : σ → Word × σ) (s : σ) : Scanned σ :=
  let r := next s
  if r.1 &&& 0x80 ≠ 0 then lengLoop next (r.1 &&& 0x7F).toNat 1 0 r.2
  else ⟨1, r.1 &&& 0x7F, r.2⟩

/-- `EOF` is -1. -/
def getc : Bytes → Word × Bytes
  | [] => (-1, [])
  | o :: input => (ofOctet o, input)

/-- A file, and the octets stored from it. -/
structure Input where
  input : Bytes
  stored : Bytes

/-- `ch = getc(in); octets[bytes++] = ch`. -/
def getOctet (s : Input) : Word × Input :=
  let r := getc s.input
  (r.1, ⟨r.2, s.stored ++ [UInt8.ofBitVec (r.1.setWidth 8)]⟩)

/-- The octet at `p`. What lies around the message is taken as 0. -/
def octetAt (m : Bytes) (p : Int) : Octet := if 0 ≤ p then m.getD p.toNat 0 else 0

/-- What the walk over a message does to memory: reads, and stores to `m_eno`. -/
inductive Event
  | read (p : Int)
  | eno (i : Nat) (v : Int)
  deriving DecidableEq

/-- A place in a message, and the events so far. -/
structure Cursor where
  p : Int
  events : List Event

/-- `ch = octets[bytes++]`. -/
def readOctet (m : Bytes) (s : Cursor) : Word × Cursor :=
  (ofOctet (octetAt m s.p), ⟨s.p + 1, s.events ++ [.read s.p]⟩)

/-- The type, the number of octets and the length of an element, and the reads for them. -/
structure Head where
  type : Octet
  tlen : Nat
  leng : Int
  events : List Event

/-- `scan_type` and `scan_leng` at `p`. -/
def scan_head (m : Bytes) (p : Int) : Head :=
  let r := scan_leng (readOctet m) ⟨p + 1, [.read p]⟩
  ⟨octetAt m p, 1 + r.bytes, r.leng.toInt, r.state.events⟩

def mssglen (m : Bytes) : Int := (scan_head m 0).tlen + (scan_head m 0).leng

def MAXMSGSZ : Int := 5 * 1024 * 1024

/-- The room that `malloc` gives. A negative size is a `size_t` for which there is no memory. -/
def malloc (size : Int) : Nat := size.toNat

/-- The value of `read_mssg`, if there was memory for the header to be copied to. -/
inductive Got
  | null
  | crash
  | mssg (leng : Int) (octets : Bytes)

/-- The room at `mssg`, the stores to it in their order, and the value. -/
structure Body where
  room : Nat
  stored : List (Int × Octet)
  got : Got

/-- The octets stored in `tbuf`, and what comes after them. -/
structure Reading where
  tbuf : Bytes
  body : Body

/-- From the test of the length on. The length is an `int` for `malloc`, a `size_t` for `fread`, and
the value of `fread` is taken as an `int`. -/
def read_body (tbuf : Bytes) (leng : Int) (input : Bytes) : Body :=
  if MAXMSGSZ < leng then ⟨0, [], .null⟩
  else
    let room := malloc (tbuf.length + leng)
    -- `bcopy` to NULL
    if tbuf.length + leng < 0 then ⟨room, run 0 tbuf, .crash⟩
    else
      let data := input.take (leng % 2 ^ 64).toNat
      ⟨room, run 0 tbuf ++ run tbuf.length data,
        if (data.length : Int).bmod (2 ^ 32) ≠ leng then .null else .mssg leng (tbuf ++ data)⟩

def read_mssg (polled : Bool) (input : Bytes) : Reading :=
  match polled, input with
  | false, _ => ⟨[], ⟨0, [], .null⟩⟩
  | true, [] => ⟨[], ⟨0, [], .null⟩⟩
  | true, type :: input =>
    let r := scan_leng getOctet ⟨input, [type]⟩
    ⟨r.state.stored, read_body r.state.stored r.leng.toInt r.state.input⟩

/-! ## Lengths -/

/-- The number of octets after the first one of a length. -/
def noct (l : Octet) : Nat := if l.toNat < 128 then 0 else l.toNat - 128

/-- The number that octets make, the most significant first. -/
def value (l : Bytes) : Nat := l.foldl (fun v o => v * 256 + o.toNat) 0

/-- The length that octets announce. -/
def announced (l : Octet) (octets : Bytes) : Int :=
  if l.toNat < 128 then l.toNat else (BitVec.ofNat 32 (value octets)).toInt

theorem shift_or (v : Nat) (o : Octet) :
    BitVec.ofNat 32 v <<< 8 ||| ofOctet o = BitVec.ofNat 32 (v * 256 + o.toNat) := by
  have ho : o.toNat < 2 ^ 8 := o.toNat_lt
  have hshift : (v % 2 ^ 32) <<< 8 % 2 ^ 32 = 2 ^ 8 * (v % 2 ^ 24) := by
    rw [Nat.shiftLeft_eq]
    omega
  have hoct : o.toBitVec.toNat % 2 ^ 32 = o.toNat := Nat.mod_eq_of_lt (by omega)
  apply BitVec.eq_of_toNat_eq
  rw [ofOctet, BitVec.toNat_or, BitVec.toNat_shiftLeft, BitVec.toNat_setWidth, BitVec.toNat_ofNat,
    BitVec.toNat_ofNat, hshift, hoct, ← Nat.two_pow_add_eq_or_of_lt ho]
  omega

/-- One more octet of a length. -/
def shiftIn (leng : Word) (o : Octet) : Word := leng <<< 8 ||| ofOctet o

theorem foldl_shiftIn (l : Bytes) : l.foldl shiftIn 0 = BitVec.ofNat 32 (value l) := by
  have h : ∀ v, l.foldl shiftIn (BitVec.ofNat 32 v) =
      BitVec.ofNat 32 (l.foldl (fun v o => v * 256 + o.toNat) v) := by
    induction l with
    | nil => exact fun _ => rfl
    | cons o l ih =>
      intro v
      rw [List.foldl_cons, List.foldl_cons, shiftIn, shift_or, ih]
  exact h 0

theorem long_form (o : Octet) : ofOctet o &&& 0x80 ≠ 0 ↔ 128 ≤ o.toNat := by
  have h : ∀ b : BitVec 8, b.setWidth 32 &&& 0x80#32 ≠ 0 ↔ 128 ≤ b.toNat := by decide
  exact h o.toBitVec

theorem low_bits (o : Octet) : (ofOctet o &&& 0x7F).toNat = o.toNat % 128 := by
  have h : ∀ b : BitVec 8, (b.setWidth 32 &&& 0x7F#32).toNat = b.toNat % 128 := by decide
  exact h o.toBitVec

theorem low_bits_long {o : Octet} (h : 128 ≤ o.toNat) :
    (ofOctet o &&& 0x7F).toNat = noct o := by
  have ho : o.toNat < 256 := o.toNat_lt
  rw [low_bits, noct, if_neg (Nat.not_lt.mpr h)]
  omega

theorem low_bits_short {o : Octet} (h : ¬128 ≤ o.toNat) :
    (ofOctet o &&& 0x7F).toInt = o.toNat := by
  have hlow := low_bits o
  rw [BitVec.toInt_eq_toNat_cond, hlow]
  split <;> omega

theorem stored_octet (o : Octet) : UInt8.ofBitVec ((ofOctet o).setWidth 8) = o := by
  have h : ∀ b : BitVec 8, (b.setWidth 32).setWidth 8 = b := by decide
  exact congrArg UInt8.ofBitVec (h o.toBitVec)

/-! ## The header in a file -/

theorem getOctet_cons (o : Octet) (input stored : Bytes) :
    getOctet ⟨o :: input, stored⟩ = (ofOctet o, ⟨input, stored ++ [o]⟩) := by
  rw [getOctet, getc]
  dsimp only
  rw [stored_octet]

theorem lengLoop_file (n bytes : Nat) (leng : Word) (input stored : Bytes)
    (h : n ≤ input.length) :
    lengLoop getOctet n bytes leng ⟨input, stored⟩ =
      ⟨bytes + n, (input.take n).foldl shiftIn leng, ⟨input.drop n, stored ++ input.take n⟩⟩ := by
  induction n generalizing bytes leng input stored with
  | zero => simp [lengLoop]
  | succ n ih =>
    cases input with
    | nil => exact absurd h (Nat.not_succ_le_zero n)
    | cons o input =>
      rw [lengLoop, getOctet_cons]
      dsimp only
      rw [ih _ _ _ _ (Nat.le_of_succ_le_succ h), List.take_succ_cons, List.drop_succ_cons,
        List.foldl_cons, List.append_assoc, List.singleton_append, Nat.add_assoc,
        Nat.add_comm 1 n]
      rfl

/-- The file ends before the length: every octet after it is taken as -1. -/
theorem lengLoop_short (n bytes : Nat) (leng : Word) (input stored : Bytes)
    (h : input.length < n) :
    ∃ stored', lengLoop getOctet n bytes leng ⟨input, stored⟩ = ⟨bytes + n, -1, ⟨[], stored'⟩⟩ ∧
      stored'.length = stored.length + n := by
  induction n generalizing bytes leng input stored with
  | zero => exact absurd h (Nat.not_lt_zero _)
  | succ n ih =>
    cases input with
    | nil =>
      have hones : leng <<< 8 ||| (-1 : Word) = -1 := BitVec.or_allOnes
      rw [lengLoop, getOctet, getc]
      dsimp only
      rw [hones]
      cases n with
      | zero =>
        exact ⟨_, rfl, by rw [List.length_append]; rfl⟩
      | succ n =>
        obtain ⟨stored', heq, hlen⟩ := ih (bytes + 1) (-1) []
          (stored ++ [UInt8.ofBitVec ((-1 : Word).setWidth 8)]) (Nat.zero_lt_succ n)
        refine ⟨stored', ?_, ?_⟩
        · rw [heq]
          congr 1
          omega
        · rw [hlen, List.length_append, List.length_singleton]
          omega
    | cons o input =>
      rw [lengLoop, getOctet_cons]
      obtain ⟨stored', heq, hlen⟩ := ih (bytes + 1) (leng <<< 8 ||| ofOctet o) input
        (stored ++ [o]) (Nat.lt_of_succ_lt_succ h)
      refine ⟨stored', ?_, ?_⟩
      · dsimp only
        rw [heq]
        congr 1
        omega
      · rw [hlen, List.length_append, List.length_singleton]
        omega

/-- A length that is there. -/
theorem scan_leng_file (l : Octet) (input stored : Bytes) (h : noct l ≤ input.length) :
    (scan_leng getOctet ⟨l :: input, stored⟩).leng.toInt = announced l (input.take (noct l)) ∧
      (scan_leng getOctet ⟨l :: input, stored⟩).state =
        ⟨input.drop (noct l), stored ++ [l] ++ input.take (noct l)⟩ := by
  unfold scan_leng announced
  rw [getOctet_cons]
  dsimp only
  by_cases hl : 128 ≤ l.toNat
  · rw [if_pos ((long_form l).mpr hl), if_neg (Nat.not_lt.mpr hl), low_bits_long hl,
      lengLoop_file _ _ _ _ _ h, foldl_shiftIn]
    exact ⟨rfl, rfl⟩
  · have hno : noct l = 0 := if_pos (Nat.lt_of_not_le hl)
    rw [if_neg (mt (long_form l).mp hl), if_pos (Nat.lt_of_not_le hl), hno, low_bits_short hl,
      List.take_zero, List.drop_zero, List.append_nil]
    exact ⟨rfl, rfl⟩

/-- A length that the file ends in. -/
theorem scan_leng_short (l : Octet) (input stored : Bytes) (h : input.length < noct l) :
    ∃ stored', scan_leng getOctet ⟨l :: input, stored⟩ = ⟨1 + noct l, -1, ⟨[], stored'⟩⟩ ∧
      stored'.length = stored.length + 1 + noct l := by
  have hl : 128 ≤ l.toNat := by
    by_contra hl
    rw [noct, if_pos (Nat.lt_of_not_le hl)] at h
    exact absurd h (Nat.not_lt_zero _)
  unfold scan_leng
  rw [getOctet_cons]
  dsimp only
  rw [if_pos ((long_form l).mpr hl), low_bits_long hl]
  obtain ⟨stored', heq, hlen⟩ := lengLoop_short (noct l) 1 0 input (stored ++ [l]) h
  refine ⟨stored', heq, ?_⟩
  rw [hlen, List.length_append, List.length_singleton]

/-- A file that ends before a length. -/
theorem scan_leng_eof (stored : Bytes) :
    (scan_leng getOctet ⟨[], stored⟩).state.stored.length = stored.length + 128 := by
  obtain ⟨stored', heq, hlen⟩ := lengLoop_short 127 1 0 []
    (stored ++ [UInt8.ofBitVec ((-1 : Word).setWidth 8)]) (by decide)
  have hlong : (-1 : Word) &&& 0x80 ≠ 0 := by decide
  have hlow : ((-1 : Word) &&& 0x7F).toNat = 127 := by decide
  rw [scan_leng, getOctet, getc]
  dsimp only
  rw [if_pos hlong, hlow, heq]
  dsimp only
  rw [hlen, List.length_append, List.length_singleton]

/-! ## The header in memory -/

/-- The octets from `p` on. -/
def field (m : Bytes) (p : Int) (n : Nat) : Bytes := (List.range n).map fun i : Nat => octetAt m (p + i)

/-- Reads of `n` octets from `p` on. -/
def readsOf (p : Int) (n : Nat) : List Event := (List.range n).map fun i : Nat => .read (p + i)

theorem map_range_shift {α : Type} (f : Int → α) (p : Int) (n : Nat) :
    ((List.range (n + 1)).map fun i : Nat => f (p + i)) =
      f p :: (List.range n).map fun i : Nat => f (p + 1 + i) := by
  rw [List.range_succ_eq_map, List.map_cons, List.map_map]
  congr 1
  · rw [Nat.cast_zero, add_zero]
  · apply List.map_congr_left
    intro i _
    rw [Function.comp_apply]
    congr 1
    push_cast
    omega

theorem lengLoop_mem (m : Bytes) (n bytes : Nat) (leng : Word) (p : Int) (events : List Event) :
    lengLoop (readOctet m) n bytes leng ⟨p, events⟩ =
      ⟨bytes + n, (field m p n).foldl shiftIn leng, ⟨p + n, events ++ readsOf p n⟩⟩ := by
  induction n generalizing bytes leng p events with
  | zero => simp [lengLoop, field, readsOf]
  | succ n ih =>
    have hp : p + 1 + n = p + ((n + 1 : Nat) : Int) := by push_cast; omega
    have hfield := map_range_shift (octetAt m) p n
    have hreads := map_range_shift Event.read p n
    rw [lengLoop, readOctet]
    dsimp only
    rw [ih, field, field, readsOf, readsOf, hfield, hreads, List.foldl_cons, List.append_assoc,
      List.singleton_append, hp, Nat.add_assoc, Nat.add_comm 1 n]
    rfl

/-- The number of octets before the contents of an element. -/
def tlen (m : Bytes) (p : Int) : Nat := 2 + noct (octetAt m (p + 1))

/-- The length that an element announces. -/
def leng (m : Bytes) (p : Int) : Int :=
  announced (octetAt m (p + 1)) (field m (p + 2) (noct (octetAt m (p + 1))))

theorem scan_head_eq (m : Bytes) (p : Int) :
    scan_head m p = ⟨octetAt m p, tlen m p, leng m p, readsOf p (tlen m p)⟩ := by
  have hreads : ∀ n, readsOf p (2 + n) = .read p :: .read (p + 1) :: readsOf (p + 2) n := by
    intro n
    have h1 := map_range_shift Event.read p (n + 1)
    have h2 := map_range_shift Event.read (p + 1) n
    have hp : p + 1 + 1 = p + 2 := by omega
    rw [Nat.add_comm 2 n, readsOf, h1, h2, hp]
    rfl
  unfold scan_head scan_leng tlen leng announced
  rw [readOctet]
  dsimp only
  rw [hreads]
  by_cases hl : 128 ≤ (octetAt m (p + 1)).toNat
  · have hp : p + 1 + 1 = p + 2 := by omega
    rw [if_pos ((long_form _).mpr hl), if_neg (Nat.not_lt.mpr hl), low_bits_long hl, lengLoop_mem,
      foldl_shiftIn, hp, ← Nat.add_assoc]
    rfl
  · have hno : noct (octetAt m (p + 1)) = 0 := if_pos (Nat.lt_of_not_le hl)
    rw [if_neg (mt (long_form _).mp hl), if_pos (Nat.lt_of_not_le hl), hno, low_bits_short hl]
    rfl

theorem octetAt_nat (m : Bytes) (i : Nat) : octetAt m i = m.getD i 0 := by
  rw [octetAt, if_pos (Int.natCast_nonneg i), Int.toNat_natCast]

/-- The header of a message in memory is the one in the file. -/
theorem head_of_message (type l : Octet) (octets data : Bytes) (h : octets.length = noct l) :
    tlen (type :: l :: (octets ++ data)) 0 = 2 + noct l ∧
      leng (type :: l :: (octets ++ data)) 0 = announced l octets := by
  have hl : octetAt (type :: l :: (octets ++ data)) (0 + 1) = l := octetAt_nat _ 1
  have hfield : field (type :: l :: (octets ++ data)) (0 + 2) (noct l) = octets := by
    apply List.ext_getElem
    · rw [field, List.length_map, List.length_range, h]
    · intro i hi hi'
      have hp : (0 + 2 + (i : Int)) = ((i + 2 : Nat) : Int) := by push_cast; omega
      simp only [field, List.getElem_map, List.getElem_range]
      rw [hp, octetAt_nat]
      simp [List.getElem?_append_left hi', hi']
  unfold tlen leng
  rw [hl, hfield]
  exact ⟨rfl, rfl⟩

/-! ## Messages -/

/-- A file that is as long as its length says. -/
def Complete (l : Octet) (octets data : Bytes) : Prop :=
  announced l octets ≤ MAXMSGSZ ∧ announced l octets ≤ data.length

instance instDecidableComplete (l : Octet) (octets data : Bytes) :
    Decidable (Complete l octets data) := inferInstanceAs (Decidable (_ ∧ _))

theorem announced_range (l : Octet) (octets : Bytes) :
    -2 ^ 31 ≤ announced l octets ∧ announced l octets < 2 ^ 31 := by
  unfold announced
  split
  · omega
  · have hlt := BitVec.toInt_lt (x := BitVec.ofNat 32 (value octets))
    have hle := BitVec.le_toInt (x := BitVec.ofNat 32 (value octets))
    omega

/-- There is room for a type and a length in 128 octets, except for the longest one. -/
theorem noct_le_iff (l : Octet) : 2 + noct l ≤ 128 ↔ l ≠ 0xFF := by
  have hl : l.toNat < 256 := l.toNat_lt
  have hff : l = 0xFF ↔ l.toNat = 255 := UInt8.toNat_inj.symm
  rw [Ne, hff]
  unfold noct
  split <;> omega

/-- The stores are in the room that there is. -/
def Body.Kept (b : Body) : Prop := Within 0 (b.room - 1) b.stored

/-- The header and the rest are stored where there is room for them if the length is not negative. -/
theorem read_body_kept {tbuf : Bytes} (htbuf : tbuf ≠ []) {leng : Int} (hlt : leng < 2 ^ 31)
    (input : Bytes) : (read_body tbuf leng input).Kept ↔ 0 ≤ leng := by
  have hmax : 0 ≤ MAXMSGSZ := by decide
  have hpos := List.length_pos_of_ne_nil htbuf
  unfold read_body Body.Kept malloc
  by_cases hlarge : MAXMSGSZ < leng
  · rw [if_pos hlarge]
    exact ⟨fun _ => by omega, fun _ => within_nil⟩
  rw [if_neg hlarge]
  dsimp only
  by_cases hcrash : tbuf.length + leng < 0
  · rw [if_pos hcrash, within_run_iff htbuf]
    dsimp only
    omega
  · rw [if_neg hcrash, within_append, within_run_iff htbuf]
    dsimp only
    constructor
    · intro h
      omega
    · intro h
      refine ⟨by omega, within_run (by omega) ?_⟩
      have hlen := List.length_take_le (leng % 2 ^ 64).toNat input
      have hmod : leng % 2 ^ 64 = leng := Int.emod_eq_of_lt h (hlt.trans (by decide))
      omega

/-- The value for a header that is there, with a length that is not negative. -/
theorem read_body_mssg {l : Octet} {tbuf octets data : Bytes} (hpos : 0 ≤ announced l octets)
    (n : Int) (m : Bytes) :
    (read_body tbuf (announced l octets) data).got = .mssg n m ↔
      n = announced l octets ∧ m = tbuf ++ data.take (announced l octets).toNat ∧
        Complete l octets data := by
  obtain ⟨-, hhi⟩ := announced_range l octets
  have hmod : announced l octets % 2 ^ 64 = announced l octets :=
    Int.emod_eq_of_lt hpos (by omega)
  unfold read_body Complete
  by_cases hlarge : MAXMSGSZ < announced l octets
  · rw [if_pos hlarge]
    constructor
    · intro h
      cases h
    · rintro ⟨-, -, hle, -⟩
      exact absurd hlarge (Int.not_lt.mpr hle)
  rw [if_neg hlarge]
  dsimp only
  rw [if_neg (by omega), hmod]
  have hcount : ((data.take (announced l octets).toNat).length : Int).bmod (2 ^ 32) =
      announced l octets ↔ announced l octets ≤ data.length := by
    rw [List.length_take, Int.bmod_def]
    split <;> omega
  by_cases hread : announced l octets ≤ data.length
  · rw [if_neg (not_not_intro (hcount.mpr hread)), Got.mssg.injEq]
    constructor
    · rintro ⟨rfl, rfl⟩
      exact ⟨rfl, rfl, Int.not_lt.mp hlarge, hread⟩
    · rintro ⟨rfl, rfl, -⟩
      exact ⟨rfl, rfl⟩
  · rw [if_pos (mt hcount.mp hread)]
    constructor
    · intro h
      cases h
    · rintro ⟨-, -, -, h⟩
      exact absurd h hread

end delegate.ldap
