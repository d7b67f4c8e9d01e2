-- The counter of a page (src/bcounter.cpp): the totals of its accesses, the
-- last ten clients with the last seen one first, and a map of the networks of
-- all clients.
import Delegate.CacheFormat
import Delegate.Recency

open ctext recency

namespace delegate.bcounter

/-! ## The pure model -/

def CNT_READONLY : Nat := 0x00000001
def CNT_ACCESS : Nat := 0x00000010
def CNT_SSIPAGE : Nat := 0x00000020
def CNT_SSIINCLUDE : Nat := 0x00000040
def CNT_REFERER : Nat := 0x00000080
def CNT_TOTALHITS : Nat := 0x00000100
def CNT_ERROR : Nat := 0x00000200
def CNT_DESTINATION : Nat := 0x00002000

def CNT_ALL : Nat :=
  CNT_TOTALHITS ||| CNT_ACCESS ||| CNT_SSIPAGE ||| CNT_SSIINCLUDE ||| CNT_REFERER ||| CNT_ERROR |||
    CNT_DESTINATION

/-- `Counter`, as far as it is counted here. The text is that before the zero, and the bytes of the
address and of the map are 16 and 128. -/
structure Counter where
  c_count : Text
  c_client : List UInt8
  c_Ttime : Int
  c_Utime : Int
  c_Xtime : Int
  c_ctime : Int
  c_clientV : List (BitVec 32)
  c_ccountV : List UInt8
  c_nets : Nat
  c_cmap : List UInt8
  deriving DecidableEq, Repr

/-- `bzero(cntp,sizeof(Counter))` -/
def Counter.zero : Counter where
  c_count := []
  c_client := List.replicate 16 0
  c_Ttime := 0
  c_Utime := 0
  c_Xtime := 0
  c_ctime := 0
  c_clientV := List.replicate 10 0
  c_ccountV := List.replicate 10 0
  c_nets := 0
  c_cmap := List.replicate 128 0

/-- The bits of a byte that are set. -/
def bits (b8 : UInt8) : Nat := (List.range 8).countP fun bx => b8.toNat.testBit bx

/-- `getMap(cntp,VStrNULL)` -/
def getMap (c_cmap : List UInt8) : Nat := (c_cmap.map bits).sum

/-- The position of a client in the map: the first ten bits of its number. -/
def mapPos (i4 : BitVec 32) : Nat := (i4 >>> 22).toNat &&& 0x3FF

def putMap (cntp : Counter) (i4 : BitVec 32) : Counter :=
  let i4n := mapPos i4
  let bi := i4n / 8
  let b8 := cntp.c_cmap.getD bi 0
  if b8.toNat.testBit (i4n % 8) then cntp
  else
    let c_cmap := cntp.c_cmap.set bi (UInt8.ofNat (b8.toNat ||| 2 ^ (i4n % 8)))
    { cntp with c_cmap, c_nets := getMap c_cmap % 2 ^ 16 }

/-- The loop that moves the entries before `cj` one place on. -/
def shift {α : Type} (v : List α) (zero : α) : Nat → List α
  | 0 => v
  | cj + 1 => shift (v.set (cj + 1) (v.getD cj zero)) zero cj

def pageOut (CNT_LRU : Bool) (cntp : Counter) (ci : Nat) : Counter :=
  if CNT_LRU ∧ ci ≠ 0 then
    { cntp with
      c_clientV := (shift cntp.c_clientV 0 ci).set 0 (cntp.c_clientV.getD ci 0)
      c_ccountV := (shift cntp.c_ccountV 0 ci).set 0 (cntp.c_ccountV.getD ci 0) }
  else cntp

def CRC32POLY : BitVec 32 := 0x04C11DB7

/-- The loop over the bits of a byte. -/
def crcBits : Nat → BitVec 32 → UInt8 → BitVec 32
  | 0, crc, _ => crc
  | n + 1, crc, oct =>
    let ovf := crc.msb ^^ oct.toNat.testBit 7
    crcBits n (if ovf then crc <<< 1 ^^^ CRC32POLY else crc <<< 1) (oct <<< 1)

def strCRC32add (crc : BitVec 32) (str : List UInt8) : BitVec 32 := str.foldl (crcBits 8) crc

/-- The bytes of a length, up to the last one that is not zero. -/
def lengthBytes : Nat → Nat → List UInt8
  | 0, _ => []
  | li + 1, len =>
    UInt8.ofNat len :: if len / 256 = 0 then [] else lengthBytes li (len / 256)

def strCRC32end (crc : BitVec 32) (len : Nat) : BitVec 32 :=
  strCRC32add crc (lengthBytes 4 len) ^^^ 0xFFFFFFFF

def strCRC32 (str : List UInt8) (len : Nat) : BitVec 32 := strCRC32end (strCRC32add 0 (str.take len)) len

/-- The number of a client: its IPv4 address as an `int`, or a checksum of its IPv6 address. -/
def clientId (iaddr : List UInt8) : BitVec 32 :=
  if (iaddr.take 12).any (· ≠ 0) then strCRC32 iaddr 16
  else BitVec.ofNat 32 (Nat.ofDigits 256 ((iaddr.drop 12).map UInt8.toNat))

/-- The search for a client, which ends at an entry of 0. -/
def findClient (i4 : BitVec 32) : List (BitVec 32) → Option Nat
  | [] => none
  | v :: vs => if v = 0 then none else if i4 = v then some 0 else (findClient i4 vs).map (· + 1)

/-- `sscanf(count,"%d %d %d",..)` into numbers that are 0 before. -/
def scanCount (s : Text) : Int × Int × Int :=
  match strtol s with
  | none => (0, 0, 0)
  | some (a, s) =>
    match strtol s with
    | none => (toInt32 a, 0, 0)
    | some (u, s) => (toInt32 a, toInt32 u, ((strtol s).map fun v => toInt32 v.1).getD 0)

/-- `sprintf(cntp->c_count,"%d %d %d\n",..)` into 36 bytes. -/
def putCount (acnt ucnt vcnt : Int) : Text :=
  (cache.decInt acnt ++ ' ' :: (cache.decInt ucnt ++ ' ' :: (cache.decInt vcnt ++ ['\n']))).take 35

/-- The settings, and what a request is. -/
structure Env where
  COUNTER : Nat
  CNT_LRU : Bool

structure Call where
  flags : Nat
  now : Int
  serno : Int
  iaddr : List UInt8
  deriving DecidableEq, Repr

/-- The counter, and the serial number of the last request that was counted. -/
structure St where
  cnt : Counter
  LastRequestSerno : Int

/-- The flags whose counters do not look at the serial number. -/
def unserialized (flags : Nat) : Bool :=
  [CNT_REFERER, CNT_ERROR, CNT_TOTALHITS, CNT_TOTALHITS ||| CNT_REFERER, CNT_DESTINATION].contains
    (flags &&& CNT_ALL)

/-- The address of the client, with the number of clients that differ from the one before. -/
def countUser (cntp : Counter) (k : Call) (ucnt : Int) : Counter × Int :=
  if k.iaddr ≠ cntp.c_client then
    ({ cntp with c_Utime := k.now, c_client := k.iaddr }, toInt32 (ucnt + 1))
  else (cntp, ucnt)

/-- The array of clients, with the number of clients that were not in it. -/
def countClient (e : Env) (cntp : Counter) (k : Call) (vcnt : Int) : Counter × Int :=
  let i4 := clientId k.iaddr
  match findClient i4 cntp.c_clientV with
  | some ci =>
    let c_ccountV := cntp.c_ccountV.set ci (cntp.c_ccountV.getD ci 0 + 1)
    (pageOut e.CNT_LRU { cntp with c_ccountV } ci, vcnt)
  | none =>
    let cntp := { cntp with
      c_Xtime := k.now
      c_clientV := (shift cntp.c_clientV 0 9).set 0 i4
      c_ccountV := (shift cntp.c_ccountV 0 9).set 0 0 }
    (putMap cntp i4, toInt32 (vcnt + 1))

/-- The result, and the state afterwards. -/
def putCounter (e : Env) (s : St) (k : Call) : Int × St :=
  let cntp := s.cnt
  let (acnt, ucnt, vcnt) := scanCount cntp.c_count
  if e.COUNTER &&& CNT_READONLY ≠ 0 ∨ CNT_ALL &&& k.flags &&& e.COUNTER = 0 then (acnt, s)
  else if !unserialized k.flags && s.LastRequestSerno == k.serno then (acnt, s)
  else
    let last := if unserialized k.flags then s.LastRequestSerno else k.serno
    let acnt := toInt32 (acnt + 1)
    let (cntp, ucnt) := countUser cntp k ucnt
    let (cntp, vcnt) := countClient e cntp k vcnt
    let cntp := { cntp with
      c_count := putCount acnt ucnt vcnt
      c_ctime := if cntp.c_ctime = 0 then k.now else cntp.c_ctime
      c_Ttime := k.now }
    (acnt, ⟨cntp, last⟩)

/-- Calls one after another. -/
def putCounters (e : Env) (s : St) (calls : List Call) : St :=
  calls.foldl (fun s k => (putCounter e s k).2) s

/-! ## What a counter is for -/

/-- A position of the map is set. -/
def mapBit (c_cmap : List UInt8) (n : Nat) : Bool := (c_cmap.getD (n / 8) 0).toNat.testBit (n % 8)

/-- The changes of the address in a history, which is given from its end. The first one counts. -/
def changes : List (List UInt8) → Nat
  | [] => 0
  | [_] => 1
  | a :: b :: h => changes (b :: h) + if a = b then 0 else 1

/-- The uses of a value that is not among the ten last ones. -/
def misses : List (BitVec 32) → Nat
  | [] => 0
  | x :: h => misses h + if x ∈ (recent h).take 10 then 0 else 1

/-- The clients of a history. -/
def ids (hist : List Call) : List (BitVec 32) := hist.map fun k => clientId k.iaddr

/-- Entries of 0 in the places behind the clients. -/
def padded (l : List (BitVec 32)) : List (BitVec 32) := l ++ List.replicate (10 - l.length) 0

/-- What a counter says after calls, which are given from the last on. -/
structure Counts (hist : List Call) (cntp : Counter) : Prop where
  clients : cntp.c_clientV = padded ((recent (ids hist)).take 10)
  count : scanCount cntp.c_count =
    ((hist.length : Int), (changes (hist.map Call.iaddr) : Int), (misses (ids hist) : Int))
  nets : cntp.c_nets = (List.range 1024).countP (mapBit cntp.c_cmap)
  map : ∀ n < 1024, mapBit cntp.c_cmap n = true ↔ ∃ i4 ∈ ids hist, mapPos i4 = n

/-! ## The array of clients -/

theorem shift_set {α : Type} (v : List α) (zero x : α) {ci : Nat} (h : ci < v.length) :
    (shift v zero ci).set 0 x = x :: (v.take ci ++ v.drop (ci + 1)) := by
  induction ci generalizing v with
  | zero =>
    cases v with
    | nil => exact absurd h (Nat.not_lt_zero _)
    | cons y v => rfl
  | succ ci ih =>
    have hlt : ci < v.length := Nat.lt_of_succ_lt h
    have hget : v.getD ci zero = v[ci] := List.getD_eq_getElem _ _ hlt
    rw [shift, ih _ (by rw [List.length_set]; exact hlt), hget, List.take_set_of_le (Nat.le_succ ci),
      List.drop_set, if_neg (Nat.lt_irrefl _), Nat.sub_self, List.take_succ_eq_append_getElem hlt,
      List.drop_eq_getElem_cons h, List.set_cons_zero, List.append_assoc]
    rfl

/-- The search finds the first entry of a client, if it has one before the entries of 0. -/
theorem findClient_cases (x : BitVec 32) {l : List (BitVec 32)} (h0 : 0 ∉ l) (m : Nat) :
    (∃ a b, l = a ++ x :: b ∧ x ∉ a ∧ findClient x (l ++ List.replicate m 0) = some a.length) ∨
      (x ∉ l ∧ findClient x (l ++ List.replicate m 0) = none) := by
  induction l with
  | nil =>
    apply Or.inr
    cases m <;> simp [findClient, List.replicate_succ]
  | cons v l ih =>
    rw [List.mem_cons, not_or] at h0
    rw [List.cons_append, findClient, if_neg (Ne.symm h0.1)]
    by_cases hv : x = v
    · subst hv
      rw [if_pos rfl]
      exact .inl ⟨[], l, rfl, List.not_mem_nil, rfl⟩
    · rw [if_neg hv]
      rcases ih h0.2 with ⟨a, b, rfl, ha, hfind⟩ | ⟨hl, hfind⟩
      · refine .inl ⟨v :: a, b, rfl, ?_, by rw [hfind]; rfl⟩
        rw [List.mem_cons, not_or]
        exact ⟨hv, ha⟩
      · refine .inr ⟨?_, by rw [hfind]; rfl⟩
        rw [List.mem_cons, not_or]
        exact ⟨hv, hl⟩

theorem length_padded {l : List (BitVec 32)} (h : l.length ≤ 10) : (padded l).length = 10 := by
  rw [padded, List.length_append, List.length_replicate]
  omega

/-- The entry of a client is moved to the front. -/
theorem moved_front {l a b : List (BitVec 32)} {x : BitVec 32} (hl : l = a ++ x :: b)
    (hlen : l.length ≤ 10) :
    (shift (padded l) 0 a.length).set 0 ((padded l).getD a.length 0) = padded (x :: (a ++ b)) := by
  have hlt : a.length < (padded l).length := by
    rw [length_padded hlen]
    rw [hl, List.length_append, List.length_cons] at hlen
    omega
  have hpad : padded l = a ++ x :: (b ++ List.replicate (10 - l.length) 0) := by
    rw [padded, hl, List.append_assoc, List.cons_append]
  have hget : (padded l).getD a.length 0 = x := by
    rw [List.getD_eq_getElem _ _ hlt]
    simp [hpad]
  have hnew : (x :: (a ++ b)).length = l.length := by
    rw [hl]
    simp
    omega
  have hdrop : (a ++ x :: (b ++ List.replicate (10 - l.length) 0)).drop (a.length + 1) =
      b ++ List.replicate (10 - l.length) 0 := by
    rw [← List.drop_drop, List.drop_left]
    rfl
  rw [shift_set _ _ _ hlt, hget, hpad, List.take_left, hdrop, padded, hnew, List.cons_append,
    List.append_assoc]

/-- A new client takes the first place, and the last entry is lost. -/
theorem added_front {l : List (BitVec 32)} (x : BitVec 32) (hlen : l.length ≤ 10) :
    (shift (padded l) 0 9).set 0 x = padded (x :: l.take 9) := by
  have hten := length_padded hlen
  rw [shift_set _ _ _ (by omega), List.drop_of_length_le (by omega), List.append_nil]
  unfold padded
  rw [List.cons_append, List.take_append, List.take_replicate, List.length_cons, List.length_take]
  congr 2
  congr 1
  omega

/-! ## The text of the totals -/

theorem decInt_nat (n : Nat) : cache.decInt n = dec n := by
  rw [cache.decInt, if_neg (by omega), Int.natAbs_natCast]

theorem scanCount_put {a u v : Nat} (ha : a < 2 ^ 31) (hu : u < 2 ^ 31) (hv : v < 2 ^ 31) :
    scanCount (putCount a u v) = ((a : Int), (u : Int), (v : Int)) := by
  have hlen : ∀ n < 2 ^ 31, (dec n).length ≤ 10 := by
    intro n hn
    exact (Nat.length_toDigits_le_iff (by decide) (by decide)).mpr (by omega)
  have htext : putCount a u v = dec a ++ ' ' :: (dec u ++ ' ' :: (dec v ++ ['\n'])) := by
    rw [putCount, decInt_nat, decInt_nat, decInt_nat]
    apply List.take_of_length_le
    have := hlen a ha
    have := hlen u hu
    have := hlen v hv
    simp only [List.length_append, List.length_cons, List.length_nil]
    omega
  have hblank : ∀ s, strtol (' ' :: s) = strtol s := by
    intro s
    rfl
  rw [htext, scanCount, strtol_dec_append a _ (by simp)]
  dsimp only
  rw [hblank, strtol_dec_append u _ (by simp)]
  dsimp only
  rw [hblank, strtol_dec_append v _ (by simp)]
  simp only [Option.map_some, Option.getD_some, toInt32_of_small ha, toInt32_of_small hu,
    toInt32_of_small hv]

/-! ## The map -/

theorem bits_le (b8 : UInt8) : bits b8 ≤ 8 := by
  have hle := List.countP_le_length (p := fun bx => b8.toNat.testBit bx) (l := List.range 8)
  rwa [List.length_range] at hle

theorem getMap_le (c_cmap : List UInt8) : getMap c_cmap ≤ 8 * c_cmap.length := by
  induction c_cmap with
  | nil => exact Nat.le_refl 0
  | cons b l ih =>
    have hb := bits_le b
    unfold getMap at ih ⊢
    rw [List.map_cons, List.sum_cons, List.length_cons]
    omega

/-- The count of the bits is that of the positions that are set. -/
theorem getMap_eq (c_cmap : List UInt8) :
    getMap c_cmap = (List.range (8 * c_cmap.length)).countP (mapBit c_cmap) := by
  induction c_cmap with
  | nil => rfl
  | cons b l ih =>
    have hfirst : (List.range 8).countP (mapBit (b :: l)) = bits b := by
      apply List.countP_congr
      intro n hn
      have hlt : n < 8 := List.mem_range.mp hn
      simp [mapBit, Nat.div_eq_of_lt hlt, Nat.mod_eq_of_lt hlt]
    have hrest : ((List.range (8 * l.length)).map (8 + ·)).countP (mapBit (b :: l)) = getMap l := by
      rw [ih, List.countP_map]
      apply List.countP_congr
      intro n _
      have hdiv : (8 + n) / 8 = n / 8 + 1 := by omega
      have hmod : (8 + n) % 8 = n % 8 := by omega
      simp [mapBit, hdiv, hmod]
    rw [List.length_cons, Nat.mul_succ, Nat.add_comm, List.range_add, List.countP_append, hfirst,
      hrest, getMap, List.map_cons, List.sum_cons]
    rfl

theorem mapPos_lt (i4 : BitVec 32) : mapPos i4 < 1024 := by
  have hle : mapPos i4 ≤ 0x3FF := Nat.and_le_right
  omega

/-- What is kept of the map: its length, and the count of its positions. -/
structure MapOk (cntp : Counter) : Prop where
  length : cntp.c_cmap.length = 128
  nets : cntp.c_nets = getMap cntp.c_cmap

theorem putMap_spec {cntp : Counter} (h : MapOk cntp) (i4 : BitVec 32) :
    MapOk (putMap cntp i4) ∧ ∀ n < 1024, mapBit (putMap cntp i4).c_cmap n = true ↔
      n = mapPos i4 ∨ mapBit cntp.c_cmap n = true := by
  have hpos := mapPos_lt i4
  have hlen := h.length
  unfold putMap
  dsimp only
  split
  · rename_i hset
    refine ⟨h, ?_⟩
    intro n _
    constructor
    · exact .inr
    · rintro (rfl | hbit)
      · exact hset
      · exact hbit
  · have hle := getMap_le (cntp.c_cmap.set (mapPos i4 / 8)
      (UInt8.ofNat ((cntp.c_cmap.getD (mapPos i4 / 8) 0).toNat ||| 2 ^ (mapPos i4 % 8))))
    rw [List.length_set, hlen] at hle
    refine ⟨⟨by rw [List.length_set]; exact hlen, Nat.mod_eq_of_lt (by omega)⟩, ?_⟩
    intro n hn
    have hbyte : ∀ (b : UInt8) (j : Nat), j < 8 →
        (UInt8.ofNat (b.toNat ||| 2 ^ j)).toNat = b.toNat ||| 2 ^ j := by
      intro b j hj
      rw [UInt8.toNat_ofNat']
      apply Nat.mod_eq_of_lt
      exact Nat.or_lt_two_pow (n := 8) b.toNat_lt (Nat.pow_lt_pow_right (by decide) hj)
    have hin : mapPos i4 / 8 < cntp.c_cmap.length := by omega
    have hmod : mapPos i4 % 8 < 8 := by omega
    unfold mapBit
    by_cases hdiv : mapPos i4 / 8 = n / 8
    · rw [← hdiv, List.getD_eq_getElem _ _ (by rw [List.length_set]; exact hin),
        List.getElem_set_self, hbyte _ _ hmod, Nat.testBit_or, Nat.testBit_two_pow, Bool.or_eq_true,
        decide_eq_true_iff, or_comm]
      have hsame : mapPos i4 % 8 = n % 8 ↔ n = mapPos i4 := by omega
      rw [hsame]
    · have hne : n ≠ mapPos i4 := fun heq => hdiv (by rw [heq])
      rw [List.getD_eq_getElem?_getD, List.getElem?_set_ne hdiv, ← List.getD_eq_getElem?_getD]
      simp [hne]

/-! ## One call -/

/-- The positions of the map are those of the clients. -/
def MapOf (h : List (BitVec 32)) (c_cmap : List UInt8) : Prop :=
  ∀ n < 1024, mapBit c_cmap n = true ↔ ∃ i4 ∈ h, mapPos i4 = n

/-- What one client does to the array and the map. -/
theorem countClient_spec {e : Env} (he : e.CNT_LRU = true) (cntp : Counter) {h : List (BitVec 32)}
    (h0 : 0 ∉ h) (hclients : cntp.c_clientV = padded ((recent h).take 10)) (hok : MapOk cntp)
    (hmap : MapOf h cntp.c_cmap) (k : Call) (vcnt : Int) :
    (countClient e cntp k vcnt).1.c_clientV =
        padded ((recent (clientId k.iaddr :: h)).take 10) ∧
      (countClient e cntp k vcnt).2 =
        (if clientId k.iaddr ∈ (recent h).take 10 then vcnt else toInt32 (vcnt + 1)) ∧
      MapOk (countClient e cntp k vcnt).1 ∧
      MapOf (clientId k.iaddr :: h) (countClient e cntp k vcnt).1.c_cmap ∧
      (countClient e cntp k vcnt).1.c_client = cntp.c_client := by
  have hlen : ((recent h).take 10).length ≤ 10 := List.length_take_le _ _
  have h0' : 0 ∉ (recent h).take 10 := fun hmem => h0 (mem_recent.mp (List.mem_of_mem_take hmem))
  have hnext := take_recent_cons (clientId k.iaddr) h 9
  generalize hx : clientId k.iaddr = x at hnext ⊢
  generalize hL : (recent h).take 10 = l at hlen h0' hnext hclients ⊢
  rcases findClient_cases x h0' (10 - l.length) with ⟨a, b, hab, ha, hfind⟩ | ⟨hmiss, hfind⟩
  · have hmem : x ∈ l := by simp [hab]
    have herase : (l.erase x).take 9 = a ++ b := by
      rw [erase_eq_of_search hab ha]
      apply List.take_of_length_le
      rw [hab, List.length_append, List.length_cons] at hlen
      rw [List.length_append]
      omega
    have hseen : x ∈ h := mem_recent.mp (List.mem_of_mem_take (hL ▸ hmem))
    have hmap' : MapOf (x :: h) cntp.c_cmap := by
      intro n hn
      rw [hmap n hn]
      constructor
      · rintro ⟨i4, hi, hpos⟩
        exact ⟨i4, List.mem_cons_of_mem _ hi, hpos⟩
      · rintro ⟨i4, hi, hpos⟩
        rcases List.mem_cons.mp hi with rfl | hi
        · exact ⟨i4, hseen, hpos⟩
        · exact ⟨i4, hi, hpos⟩
    have hpage : ∀ c : Counter, c.c_clientV = padded l →
        (pageOut e.CNT_LRU c a.length).c_clientV = padded (x :: (a ++ b)) ∧
        (pageOut e.CNT_LRU c a.length).c_nets = c.c_nets ∧
        (pageOut e.CNT_LRU c a.length).c_cmap = c.c_cmap ∧
        (pageOut e.CNT_LRU c a.length).c_client = c.c_client := by
      intro c hc
      unfold pageOut
      by_cases hzero : a.length = 0
      · have hnil := List.length_eq_zero_iff.mp hzero
        rw [if_neg fun hand => hand.2 hzero]
        refine ⟨?_, rfl, rfl, rfl⟩
        rw [hc, hab, hnil]
        rfl
      · rw [if_pos ⟨he, hzero⟩]
        refine ⟨?_, rfl, rfl, rfl⟩
        dsimp only
        rw [hc]
        exact moved_front hab hlen
    have hsearch : findClient x cntp.c_clientV = some a.length := by
      rw [hclients, padded]
      exact hfind
    unfold countClient
    simp only [hx, hsearch]
    obtain ⟨hv, hnets, hcmap, hclient⟩ := hpage
      { cntp with c_ccountV := cntp.c_ccountV.set a.length (cntp.c_ccountV.getD a.length 0 + 1) }
      hclients
    refine ⟨?_, (if_pos hmem).symm, ⟨?_, ?_⟩, ?_, hclient⟩
    · rw [hv, hnext, herase]
    · rw [hcmap]
      exact hok.length
    · rw [hnets, hcmap]
      exact hok.nets
    · rw [hcmap]
      exact hmap'
  · have hsearch : findClient x cntp.c_clientV = none := by
      rw [hclients, padded]
      exact hfind
    unfold countClient
    simp only [hx, hsearch]
    obtain ⟨hok', hbits⟩ := @putMap_spec { cntp with
      c_Xtime := k.now
      c_clientV := (shift cntp.c_clientV 0 9).set 0 x
      c_ccountV := (shift cntp.c_ccountV 0 9).set 0 0 } ⟨hok.length, hok.nets⟩ x
    have hother : ∀ c : Counter, (putMap c x).c_clientV = c.c_clientV ∧
        (putMap c x).c_client = c.c_client := by
      intro c
      unfold putMap
      dsimp only
      split <;> exact ⟨rfl, rfl⟩
    refine ⟨?_, (if_neg hmiss).symm, hok', ?_, (hother _).2⟩
    · rw [(hother _).1]
      dsimp only
      rw [hnext, List.erase_of_not_mem hmiss, hclients]
      exact added_front x hlen
    · intro n hn
      have hold := hmap n hn
      rw [hbits n hn, hold, List.exists_mem_cons_iff]
      exact or_congr_left eq_comm

/-- A call that is counted, after other calls. -/
structure Counted (e : Env) (hist : List Call) (k : Call) : Prop where
  writable : e.COUNTER &&& CNT_READONLY = 0
  enabled : CNT_ALL &&& k.flags &&& e.COUNTER ≠ 0
  serial : k.serno ≠ -1 ∧ ∀ j ∈ hist, k.serno ≠ j.serno
  client : clientId k.iaddr ≠ 0
  few : hist.length + 1 < 2 ^ 31

/-- What holds after calls, which are given from the last on. -/
structure Inv (hist : List Call) (s : St) : Prop where
  clients : s.cnt.c_clientV = padded ((recent (ids hist)).take 10)
  count : scanCount s.cnt.c_count =
    ((hist.length : Int), (changes (hist.map Call.iaddr) : Int), (misses (ids hist) : Int))
  client : s.cnt.c_client = ((hist.map Call.iaddr).head?).getD (List.replicate 16 0)
  mapOk : MapOk s.cnt
  map : MapOf (ids hist) s.cnt.c_cmap
  last : s.LastRequestSerno = -1 ∨ ∃ j ∈ hist, s.LastRequestSerno = j.serno
  nonzero : 0 ∉ ids hist

theorem changes_le (h : List (List UInt8)) : changes h ≤ h.length := by
  induction h with
  | nil => exact Nat.le_refl 0
  | cons a h ih =>
    cases h with
    | nil => exact Nat.le_refl 1
    | cons b h =>
      rw [changes, List.length_cons]
      split <;> omega

theorem misses_le (h : List (BitVec 32)) : misses h ≤ h.length := by
  induction h with
  | nil => exact Nat.le_refl 0
  | cons x h ih =>
    rw [misses, List.length_cons]
    split <;> omega

/-- The address of the first call is not that of a zeroed counter. -/
theorem changes_cons {h : List (List UInt8)} {a : List UInt8} (ha : clientId a ≠ 0) :
    changes (a :: h) =
      changes h + if a ≠ (h.head?).getD (List.replicate 16 0) then 1 else 0 := by
  cases h with
  | nil =>
    have hne : a ≠ List.replicate 16 0 := by
      rintro rfl
      exact ha (by decide)
    have hhead : (([] : List (List UInt8)).head?).getD (List.replicate 16 0) =
        List.replicate 16 0 := rfl
    rw [hhead, if_pos hne]
    rfl
  | cons b h =>
    have hhead : ((b :: h).head?).getD (List.replicate 16 0) = b := rfl
    rw [changes, hhead]
    by_cases hab : a = b <;> simp [hab]

theorem inv_step {e : Env} (he : e.CNT_LRU = true) {hist : List Call} {s : St} (hs : Inv hist s)
    {k : Call} (hk : Counted e hist k) : Inv (k :: hist) (putCounter e s k).2 := by
  have hon : ¬(e.COUNTER &&& CNT_READONLY ≠ 0 ∨ CNT_ALL &&& k.flags &&& e.COUNTER = 0) := by
    rintro (h | h)
    · exact h hk.writable
    · exact hk.enabled h
  have hserial : ¬(!unserialized k.flags && s.LastRequestSerno == k.serno) = true := by
    rw [Bool.and_eq_true, beq_iff_eq]
    rintro ⟨-, hlast⟩
    rcases hs.last with h | ⟨j, hj, h⟩
    · exact hk.serial.1 (hlast.symm.trans h)
    · exact hk.serial.2 j hj (hlast.symm.trans h)
  have hfew := hk.few
  have hchg := changes_le (hist.map Call.iaddr)
  have hmis := misses_le (ids hist)
  have hlen : (ids hist).length = hist.length := List.length_map _
  rw [List.length_map] at hchg
  rw [hlen] at hmis
  have huser : countUser s.cnt k (changes (hist.map Call.iaddr)) =
      ({ s.cnt with
          c_Utime := if k.iaddr ≠ s.cnt.c_client then k.now else s.cnt.c_Utime
          c_client := k.iaddr },
        (changes (k.iaddr :: hist.map Call.iaddr) : Int)) := by
    rw [changes_cons hk.client, ← hs.client]
    unfold countUser
    split
    · rename_i hne
      have hsmall : ((changes (hist.map Call.iaddr) : Int) + 1) =
          ((changes (hist.map Call.iaddr) + 1 : Nat) : Int) := by push_cast; rfl
      rw [hsmall, toInt32_of_small (by omega)]
    · rename_i heq
      rw [not_not] at heq
      simp [heq]
  obtain ⟨hclients, hmiss, hok, hmap, hclient⟩ := countClient_spec he
    { s.cnt with
      c_Utime := if k.iaddr ≠ s.cnt.c_client then k.now else s.cnt.c_Utime
      c_client := k.iaddr } hs.nonzero hs.clients ⟨hs.mapOk.length, hs.mapOk.nets⟩ hs.map k
    (misses (ids hist))
  have hcount : ((if clientId k.iaddr ∈ (recent (ids hist)).take 10 then (misses (ids hist) : Int)
      else toInt32 ((misses (ids hist) : Int) + 1))) = (misses (ids (k :: hist)) : Int) := by
    have hids : ids (k :: hist) = clientId k.iaddr :: ids hist := rfl
    rw [hids, misses]
    split
    · rfl
    · have hsmall : ((misses (ids hist) : Int) + 1) = ((misses (ids hist) + 1 : Nat) : Int) := by
        push_cast
        rfl
      rw [hsmall, toInt32_of_small (by omega)]
  have hcalls : toInt32 ((hist.length : Int) + 1) = ((k :: hist).length : Int) := by
    have hsmall : ((hist.length : Int) + 1) = ((hist.length + 1 : Nat) : Int) := by
      push_cast
      rfl
    rw [hsmall, toInt32_of_small (by omega)]
    rfl
  unfold putCounter
  simp only [hs.count, if_neg hon, if_neg hserial, huser, hmiss, hcount, hcalls]
  exact {
    clients := hclients
    count := by
      have hchg' := changes_le (k.iaddr :: hist.map Call.iaddr)
      have hmis' := misses_le (ids (k :: hist))
      have hlen' : (ids (k :: hist)).length = hist.length + 1 := by simp [ids]
      rw [List.length_cons, List.length_map] at hchg'
      rw [hlen'] at hmis'
      exact scanCount_put (by rw [List.length_cons]; omega) (by omega) (by omega)
    client := hclient
    mapOk := ⟨hok.length, hok.nets⟩
    map := hmap
    last := by
      dsimp only
      split
      · rcases hs.last with h | ⟨j, hj, h⟩
        · exact .inl h
        · exact .inr ⟨j, List.mem_cons_of_mem _ hj, h⟩
      · exact .inr ⟨k, List.mem_cons_self, rfl⟩
    nonzero := by
      intro h0
      rcases List.mem_cons.mp h0 with h0 | h0
      · exact hk.client h0.symm
      · exact hs.nonzero h0 }

/-! ## All calls -/

theorem inv_zero : Inv [] ⟨Counter.zero, -1⟩ where
  clients := rfl
  count := by decide
  client := rfl
  mapOk := by
    have hnone : bits 0 = 0 := by decide
    refine ⟨rfl, ?_⟩
    show 0 = ((List.replicate 128 (0 : UInt8)).map bits).sum
    rw [List.map_replicate, hnone, List.sum_replicate, smul_zero]
  map := by
    intro n hn
    have hzero : mapBit Counter.zero.c_cmap n = false := by
      have hget : Counter.zero.c_cmap.getD (n / 8) 0 = 0 := by
        rw [List.getD_eq_getElem _ _ (by show n / 8 < 128; omega)]
        exact List.getElem_replicate _
      rw [mapBit, hget]
      exact Nat.zero_testBit _
    simp [hzero, ids]
  last := .inl rfl
  nonzero := List.not_mem_nil

/-- Calls that are all counted. -/
structure AllCounted (e : Env) (calls : List Call) : Prop where
  lru : e.CNT_LRU = true
  writable : e.COUNTER &&& CNT_READONLY = 0
  enabled : ∀ k ∈ calls, CNT_ALL &&& k.flags &&& e.COUNTER ≠ 0
  serials : (-1 :: calls.map Call.serno).Nodup
  clients : ∀ k ∈ calls, clientId k.iaddr ≠ 0
  few : calls.length < 2 ^ 31

theorem inv_calls {e : Env} (he : e.CNT_LRU = true) {calls hist : List Call} {s : St}
    (hs : Inv hist s) (hk : ∀ a k b, calls = a ++ k :: b → Counted e (a.reverse ++ hist) k) :
    Inv (calls.reverse ++ hist) (putCounters e s calls) := by
  induction calls generalizing hist s with
  | nil => exact hs
  | cons k calls ih =>
    have hstep := inv_step he hs (hk [] k calls rfl)
    have hrest := ih hstep (by
      intro a j b hab
      have hj := hk (k :: a) j b (by rw [hab]; rfl)
      rwa [List.reverse_cons, List.append_assoc] at hj)
    rw [List.reverse_cons, List.append_assoc]
    exact hrest

/-- After any calls that are counted, a counter that was zero says how many they were, how often
the address changed, which clients came last and how many were not among the last ten, and which
networks were seen. -/
theorem putCounters_counts {e : Env} {calls : List Call} (h : AllCounted e calls) :
    Counts calls.reverse (putCounters e ⟨Counter.zero, -1⟩ calls).cnt := by
  have hinv : Inv (calls.reverse ++ []) (putCounters e ⟨Counter.zero, -1⟩ calls) := by
    apply inv_calls h.lru inv_zero
    rintro a k b rfl
    have hserials := h.serials
    have hfew := h.few
    rw [List.map_append, List.map_cons, List.nodup_cons, List.nodup_append] at hserials
    obtain ⟨hnone, -, -, hdisj⟩ := hserials
    rw [List.length_append, List.length_cons] at hfew
    exact {
      writable := h.writable
      enabled := h.enabled k (by simp)
      serial := by
        constructor
        · intro hk
          apply hnone
          rw [← hk]
          simp
        · intro j hj heq
          rw [List.append_nil, List.mem_reverse] at hj
          exact hdisj j.serno (List.mem_map_of_mem hj) k.serno List.mem_cons_self heq.symm
      client := h.clients k (by simp)
      few := by
        rw [List.append_nil, List.length_reverse]
        omega }
  rw [List.append_nil] at hinv
  exact {
    clients := hinv.clients
    count := hinv.count
    nets := by
      rw [hinv.mapOk.nets, getMap_eq, hinv.mapOk.length]
    map := hinv.map }

/-- An access from 127.0.0.1. -/
def localAccess (serno : Int) : Call where
  flags := CNT_ACCESS
  now := 1000
  serno
  iaddr := [0, 0, 0, 0, 0, 0, 0, 0, 0, 0, 0, 0, 127, 0, 0, 1]

/-- Two accesses from one client. -/
theorem local_accesses_counts : Counts [localAccess 2, localAccess 1]
    (putCounters ⟨CNT_ALL, true⟩ ⟨Counter.zero, -1⟩ [localAccess 1, localAccess 2]).cnt := by
  have hclient : clientId [0, 0, 0, 0, 0, 0, 0, 0, 0, 0, 0, 0, 127, 0, 0, 1] ≠ 0 := by decide
  have hall : AllCounted ⟨CNT_ALL, true⟩ [localAccess 1, localAccess 2] := {
    lru := rfl
    writable := by decide
    enabled := by simp [localAccess, CNT_ACCESS, CNT_ALL, CNT_TOTALHITS, CNT_SSIPAGE,
      CNT_SSIINCLUDE, CNT_REFERER, CNT_ERROR, CNT_DESTINATION]
    serials := by simp [localAccess]
    clients := by simpa [localAccess] using hclient
    few := by simp }
  exact putCounters_counts hall

end delegate.bcounter
