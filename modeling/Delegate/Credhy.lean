-- The key agreement of credhy.cpp. Each side sends a power of 2 as its CRC, its
-- length and its octets without the leading zero words, and takes the power of
-- what it gets. Both have the same key at the end.
import Delegate.PowMod
import Mathlib

open words

namespace delegate.credhy

/-! ## Numbers as octets -/

abbrev Byte := BitVec 8

def octets (i1 : Word) : List Byte := (List.range 4).map fun j => (i1 >>> (8 * (3 - j))).setWidth 8

/-- The loop of `dump32b`; `on1` is set from the first word that is not 0. -/
def dumpLoop (on1 : Bool) : IntArray → List Byte
  | [] => []
  | n :: ns =>
      let on1 := on1 || n != 0
      (if on1 then octets n else []) ++ dumpLoop on1 ns

/-- `dump32b`; the octets after `siz` are left out. -/
def dump32b (N : IntArray) (siz : Nat) : List Byte := (dumpLoop false N).take siz

/-- The inner loop of `scan32b`, over at most four octets from the end. -/
def scanWord (j : Nat) : List Byte → Word
  | [] => 0
  | b :: bs => (b.setWidth 32 <<< (8 * j)) ||| scanWord (j + 1) bs

/-- The loop of `scan32b`, from the last word to the first; the octets are from the end. -/
def scanLoop : Nat → List Byte → IntArray
  | 0, _ => []
  | n + 1, s => scanLoop n (s.drop 4) ++ [scanWord 0 (s.take 4)]

/-- `scan32b`. -/
def scan32b (str : List Byte) (siz : Nat) : IntArray := scanLoop IWIDTH (str.take siz).reverse

theorem length_octets (n : Word) : (octets n).length = 4 := by
  simp [octets]

theorem value_octets (n : Word) : value (octets n) = n.toNat := by
  have hn := n.isLt
  have hoct : octets n =
      [(n >>> 24).setWidth 8, (n >>> 16).setWidth 8, (n >>> 8).setWidth 8, n.setWidth 8] := by
    simp [octets, List.range_succ]
  rw [hoct]
  simp only [value_cons, value_nil, List.length_cons, List.length_nil, BitVec.toNat_setWidth,
    BitVec.toNat_ushiftRight, Nat.shiftRight_eq_div_pow]
  omega

theorem dumpLoop_true (N : IntArray) :
    value (dumpLoop true N) = value N ∧ (dumpLoop true N).length = 4 * N.length := by
  induction N with
  | nil => exact ⟨rfl, rfl⟩
  | cons n N ih =>
    unfold dumpLoop
    simp only [Bool.true_or, if_true]
    rw [value_append, value_cons, value_octets, List.length_append, length_octets, ih.1, ih.2,
      List.length_cons]
    refine ⟨?_, by omega⟩
    congr 3
    omega

/-- The leading zero words are dropped. -/
theorem dumpLoop_false (N : IntArray) :
    dumpLoop false N = dumpLoop true (N.dropWhile (· == 0)) := by
  induction N with
  | nil => rfl
  | cons n N ih =>
    by_cases hn : n = 0
    · have hskip : dumpLoop false (n :: N) = dumpLoop false N := by simp [dumpLoop, hn]
      rw [List.dropWhile_cons_of_pos (by simpa using hn), ← ih, hskip]
    · rw [List.dropWhile_cons_of_neg (by simpa using hn)]
      have hbne : (n != 0) = true := by simpa using hn
      unfold dumpLoop
      simp only [hbne, Bool.or_true]

theorem value_dumpLoop (N : IntArray) : value (dumpLoop false N) = value N := by
  rw [dumpLoop_false, (dumpLoop_true _).1, value_dropWhile_zero]

/-- A small number has few octets. -/
theorem length_dumpLoop {N : IntArray} {k : Nat} (h : value N < 2 ^ (32 * k)) :
    (dumpLoop false N).length ≤ 4 * k := by
  rw [dumpLoop_false, (dumpLoop_true _).2]
  rw [← value_dropWhile_zero] at h
  cases hdrop : N.dropWhile (· == 0) with
  | nil => simp
  | cons n M =>
    rw [hdrop, value_cons] at h
    have hn : n ≠ 0 := by
      have hhead := List.head?_dropWhile_not (· == (0 : Word)) N
      rw [hdrop] at hhead
      simpa using hhead
    have hpos : 0 < n.toNat := Nat.pos_of_ne_zero fun hzero => hn (BitVec.eq_of_toNat_eq hzero)
    have hle := Nat.le_mul_of_pos_left (2 ^ (32 * M.length)) hpos
    have hlt : 2 ^ (32 * M.length) < 2 ^ (32 * k) := by omega
    have hexp := (Nat.pow_lt_pow_iff_right (by decide : 1 < 2)).mp hlt
    rw [List.length_cons]
    omega

theorem toNat_scanWord (j : Nat) (s : List Byte) (h : j + s.length ≤ 4) :
    (scanWord j s).toNat = value s.reverse * 2 ^ (8 * j) := by
  induction s generalizing j with
  | nil => simp [scanWord]
  | cons b s ih =>
    have hb := b.isLt
    have hext : (b.setWidth 32 : Word).toNat = b.toNat := by
      rw [BitVec.toNat_setWidth]
      exact Nat.mod_eq_of_lt (by omega)
    rw [List.length_cons] at h
    unfold scanWord
    rw [List.reverse_cons, value_concat, BitVec.toNat_or, BitVec.toNat_shiftLeft, hext,
      ih (j + 1) (by omega), Nat.shiftLeft_eq]
    have hj : 2 ^ (8 * (j + 1)) = 2 ^ 8 * 2 ^ (8 * j) := by
      rw [← pow_add]
      congr 1
      omega
    have hlow : b.toNat * 2 ^ (8 * j) < 2 ^ (8 * (j + 1)) := by
      rw [hj]
      exact Nat.mul_lt_mul_of_pos_right hb (Nat.two_pow_pos _)
    have hword : 2 ^ (8 * (j + 1)) ≤ 2 ^ 32 := Nat.pow_le_pow_right (by decide) (by omega)
    rw [Nat.mod_eq_of_lt (by omega), ← Nat.shiftLeft_eq (value s.reverse), Nat.or_comm,
      ← Nat.shiftLeft_add_eq_or_of_lt hlow, Nat.shiftLeft_eq, hj]
    ring

theorem scanLoop_spec (n : Nat) (s : List Byte) (h : s.length ≤ 4 * n) :
    value (scanLoop n s) = value s.reverse ∧ (scanLoop n s).length = n := by
  induction n generalizing s with
  | zero =>
    have hs := List.length_eq_zero_iff.mp (Nat.le_zero.mp h)
    subst hs
    exact ⟨rfl, rfl⟩
  | succ n ih =>
    obtain ⟨hval, hlen⟩ := ih (s.drop 4) (by rw [List.length_drop]; omega)
    unfold scanLoop
    rw [value_concat, hval, toNat_scanWord 0 _ (by rw [List.length_take]; omega), Nat.mul_zero,
      pow_zero, Nat.mul_one]
    refine ⟨?_, by rw [List.length_append, hlen, List.length_singleton]⟩
    have hsplit : s.reverse = (s.drop 4).reverse ++ (s.take 4).reverse := by
      rw [← List.reverse_append, List.take_append_drop]
    rw [hsplit, value_append]
    -- Less than four octets are left only if nothing is before them.
    by_cases hfour : 4 ≤ s.length
    · congr 2
      rw [List.length_reverse, List.length_take, Nat.min_eq_left hfour]
    · rw [List.drop_eq_nil_of_le (by omega)]
      simp

/-- `scan32b` inverts `dump32b`, whatever the number of leading zero words. -/
theorem scan32b_dump32b {N : IntArray} (hlen : N.length = IWIDTH) {siz : Nat}
    (hsiz : (dumpLoop false N).length ≤ siz) (rest : List Byte) :
    scan32b (dump32b N siz ++ rest) (dump32b N siz).length = N := by
  unfold scan32b dump32b
  rw [List.take_left, List.take_of_length_le hsiz]
  have hfour : (dumpLoop false N).reverse.length ≤ 4 * IWIDTH := by
    rw [List.length_reverse]
    apply length_dumpLoop
    rw [← hlen]
    exact value_lt N
  obtain ⟨hval, hscan⟩ := scanLoop_spec IWIDTH _ hfour
  rw [List.reverse_reverse, value_dumpLoop] at hval
  exact eq_of_value_eq (hscan.trans hlen.symm) hval

/-! ## The checksum -/

/-- The bits of an octet in `strCRC8`, where `char` is signed. -/
def crcBits : Nat → Word → Byte → Word
  | 0, crc, _ => crc
  | n + 1, crc, oct =>
      let ovf := (crc ^^^ oct.signExtend 32) &&& 1
      let crc := crc.sshiftRight 1
      let oct := oct.sshiftRight 1
      crcBits n (if ovf ≠ 0 then crc ^^^ 0x8C else crc) oct

/-- `strCRC8`. -/
def strCRC8 (crc : Word) (str : List Byte) : Word := str.foldl (fun crc oct => crcBits 8 crc oct) crc

theorem crcBits_lt (n : Nat) (crc : Word) (oct : Byte) (h : crc.toNat < 2 ^ 8) :
    (crcBits n crc oct).toNat < 2 ^ 8 := by
  induction n generalizing crc oct with
  | zero => exact h
  | succ n ih =>
    unfold crcBits
    dsimp only
    have hshift : (crc.sshiftRight 1).toNat = crc.toNat / 2 := by
      rw [BitVec.sshiftRight_eq_of_msb_false, BitVec.toNat_ushiftRight, Nat.shiftRight_eq_div_pow,
        pow_one]
      rw [BitVec.msb_eq_decide]
      simpa using h.trans (by decide : 2 ^ 8 < 2 ^ 31)
    apply ih
    split
    · rw [BitVec.toNat_xor, hshift]
      exact Nat.xor_lt_two_pow (by omega) (by decide)
    · omega

/-- The checksum is an octet. -/
theorem strCRC8_lt (crc : Word) (str : List Byte) (h : crc.toNat < 2 ^ 8) :
    (strCRC8 crc str).toNat < 2 ^ 8 := by
  unfold strCRC8
  induction str generalizing crc with
  | nil => exact h
  | cons oct str ih => exact ih _ (crcBits_lt 8 crc oct h)

/-! ## The agreement -/

def P0 : IntArray :=
  [0x80000000, 0x00000000, 0x00000000, 0x00000000,
    0x00000000, 0x00000000, 0x00000000, 0x00000547]

def P1 : IntArray :=
  [0xFFFFFFFF, 0xFFFFFFFF, 0xC90FDAA2, 0x2168C234,
    0xC4C6628B, 0x80DC1CD1, 0x29024E08, 0x8A67CC74,
    0x020BBEA6, 0x3B139B22, 0x514A0879, 0x8E3404DD,
    0xEF9519B3, 0xCD3A431B, 0x302B0A6D, 0xF25F1437,
    0x4FE1356D, 0x6D51C245, 0xE485B576, 0x625E7EC6,
    0xF44C42E9, 0xA63A3620, 0xFFFFFFFF, 0xFFFFFFFF]

def P2 : IntArray :=
  [0xFFFFFFFF, 0xFFFFFFFF, 0xC90FDAA2, 0x2168C234,
    0xC4C6628B, 0x80DC1CD1, 0x29024E08, 0x8A67CC74,
    0x020BBEA6, 0x3B139B22, 0x514A0879, 0x8E3404DD,
    0xEF9519B3, 0xCD3A431B, 0x302B0A6D, 0xF25F1437,
    0x4FE1356D, 0x6D51C245, 0xE485B576, 0x625E7EC6,
    0xF44C42E9, 0xA637ED6B, 0x0BFF5CB6, 0xF406B7ED,
    0xEE386BFB, 0x5A899FA5, 0xAE9F2411, 0x7C4B1FE6,
    0x49286651, 0xECE65381, 0xFFFFFFFF, 0xFFFFFFFF]

def Pt : IntArray := [103078511]

structure DH where
  DH_G : IntArray
  DH_P : IntArray
  DH_Px : Int

/-- `DH_init`: a group that is set already stays. -/
def DH_init (grp : Int) (dh : DH) : DH :=
  if dh.DH_G.getD (IWIDTH - 1) 0 = 2 then dh
  else
    let grp := if grp < 0 ∨ 3 < grp then 3 else grp
    let p := if grp = 0 then P0 else if grp = 1 then P1 else if grp = 2 then P2 else Pt
    ⟨List.replicate (IWIDTH - 1) 0 ++ [2], dh.DH_P.take (IWIDTH - p.length) ++ p, grp⟩

structure Credhy where
  k_group : Int
  k_active : Int
  k_flags : Word
  k_crc8 : Word
  k_idx : Nat
  k_leng : Nat
  k_myrand : Int128
  k_lcrc8 : Byte
  k_rcrc8 : Byte
  k_str : List Byte

/-- `CredhyInit`. -/
def CredhyInit (grp : Int) : DH × Credhy :=
  (DH_init grp ⟨List.replicate IWIDTH 0, List.replicate IWIDTH 0, 0⟩,
    ⟨grp, 0, 0, 0, 0, 0, fun _ => 0, 0, 0, List.replicate 128 0⟩)

/-- `DH_Lkey`. -/
def DH_Lkey (junk : Word) (c : Cache) (dh : DH) (rand : Int128) : IntArray × Cache :=
  let dh := DH_init 2 dh
  powmod32 junk c true dh.DH_G dh.DH_P rand

/-- `DH_Gkey`. -/
def DH_Gkey (junk : Word) (c : Cache) (dh : DH) (Y : IntArray) (rand : Int128) : IntArray :=
  let dh := DH_init 2 dh
  (powmod32 junk c false Y dh.DH_P rand).1

/-- `CredhyGenerateKey`: the octets of `ykey` with the context and the cache. `rnd` is what
`DH_rand64` would take for the lower half of the secret. -/
def CredhyGenerateKey (junk : Word) (c : Cache) (dh : DH) (rnd : Word × Word) (K : Credhy)
    (siz : Nat) : List Byte × Credhy × Cache :=
  let rand : Int128 :=
    if K.k_myrand 3 = 0 then fun i => if i = 2 then rnd.1 else if i = 3 then rnd.2 else 0
    else K.k_myrand
  let (M, c) := DH_Lkey junk c dh rand
  let str := dump32b M (siz - 2)
  let ykey1 := BitVec.ofNat 8 str.length
  let ykey0 := (strCRC8 0 (ykey1 :: str)).setWidth 8
  (ykey0 :: ykey1 :: str, { K with k_myrand := rand, k_lcrc8 := ykey0 }, c)

/-- `CredhyAgreedKey`. -/
def CredhyAgreedKey (junk : Word) (c : Cache) (dh : DH) (K : Credhy) (ykey : List Byte) :
    Int × Credhy :=
  let scrc : Word := 0xFF &&& (ykey.getD 0 0).signExtend 32
  let slen : Word := 0xFF &&& (ykey.getD 1 0).signExtend 32
  let rcrc := strCRC8 0 ((ykey.drop 1).take (1 + slen.toNat))
  let K := { K with k_rcrc8 := ykey.getD 0 0 }
  if rcrc ≠ scrc then (-1, K)
  else
    let X := scan32b (ykey.drop 2) slen.toNat
    let M := DH_Gkey junk c dh X K.k_myrand
    let crc8 := strCRC8 0 (dump32b M 512)
    let pc8 : Int128 := fun i => if i = 3 then crc8 else 0
    let N := (powmod32 junk c false M dh.DH_P pc8).1
    let str := dump32b N 128
    (0, { K with
      k_crc8 := crc8
      k_str := str ++ K.k_str.drop str.length
      k_idx := 0
      k_leng := str.length })

/-- The group of `CredhyInit(K,0)`. -/
def dh0 : DH := (CredhyInit 0).1

/-- The modulus of the group. -/
def p0 : Nat := 2 ^ 255 + 1351

theorem values_dh0 : value dh0.DH_P = p0 ∧ dh0.DH_P.length = IWIDTH ∧ value dh0.DH_G = 2 ∧
    dh0.DH_G.length = IWIDTH ∧ dh0.DH_G.getD (IWIDTH - 1) 0 = 2 := by decide +kernel

theorem value_dh0_P : value dh0.DH_P = p0 := values_dh0.1

theorem length_dh0_P : dh0.DH_P.length = IWIDTH := values_dh0.2.1

theorem value_dh0_G : value dh0.DH_G = 2 := values_dh0.2.2.1

theorem length_dh0_G : dh0.DH_G.length = IWIDTH := values_dh0.2.2.2.1

theorem DH_init_dh0 (grp : Int) : DH_init grp dh0 = dh0 := by
  unfold DH_init
  rw [if_pos values_dh0.2.2.2.2]

theorem one_lt_p0 : 1 < p0 := by
  norm_num [p0]

theorem two_lt_p0 : 2 < p0 := by
  norm_num [p0]

theorem p0_lt : p0 < 2 ^ (32 * 8) := by
  norm_num [p0]

theorem p0_small : p0 < 2 ^ 1024 := by decide +kernel

theorem coprime_two : Nat.Coprime 2 p0 := by
  rw [Nat.coprime_two_left, Nat.odd_iff]
  norm_num [p0]

/-- The power of a unit of the group, with any table and any cache of this program. -/
theorem powmod_dh0 (junk : Word) {c : Cache} {isG : Bool} {G : IntArray} {g : Nat}
    (hg : Nat.Coprime g p0) (hG : G.length = IWIDTH) (hval : value G = g) (hsmall : g < p0)
    (hc : isG = true → c.made G dh0.DH_P) (pow : Int128) :
    value (powmod32 junk c isG G dh0.DH_P pow).1 = g ^ pow.toNat % p0 ∧
      (powmod32 junk c isG G dh0.DH_P pow).1.length = IWIDTH :=
  powmod32_spec length_dh0_P value_dh0_P one_lt_p0 p0_small junk hg hG hval
    (hsmall.trans p0_small) hc pow

theorem coprime_mod {n : Nat} (h : Nat.Coprime n p0) : Nat.Coprime (n % p0) p0 := by
  have hgcd := (Nat.mod_modEq n p0).gcd_eq
  unfold Nat.Coprime
  rw [hgcd]
  exact h

/-- An element of the group in 32 octets. -/
theorem length_dump32b {M : IntArray} (h : value M < p0) : (dumpLoop false M).length ≤ 32 :=
  length_dumpLoop (k := 8) (h.trans p0_lt)

theorem toNat_and_octet (b : Byte) : ((0xFF : Word) &&& b.signExtend 32).toNat = b.toNat := by
  revert b
  decide +kernel

theorem mod_lt_p0 (n : Nat) : n % p0 < p0 := Nat.mod_lt _ (Nat.zero_lt_one.trans one_lt_p0)

/-- What a side sends: the number is an element of the group, and is found in the octets. -/
structure Sent (x : Nat) (ykey : List Byte) : Prop where
  elem : x < p0
  unit : Nat.Coprime x p0
  octets : ∃ X : IntArray, X.length = IWIDTH ∧ value X = x ∧
    ykey = (strCRC8 0 (BitVec.ofNat 8 (dumpLoop false X).length :: dumpLoop false X)).setWidth 8 ::
      BitVec.ofNat 8 (dumpLoop false X).length :: dumpLoop false X

theorem sent_generated (junk : Word) {c : Cache} (hc : c.made dh0.DH_G dh0.DH_P)
    (rnd : Word × Word) (K : Credhy) {siz : Nat} (hsiz : 34 ≤ siz) :
    Sent (2 ^ (CredhyGenerateKey junk c dh0 rnd K siz).2.1.k_myrand.toNat % p0)
      (CredhyGenerateKey junk c dh0 rnd K siz).1 := by
  unfold CredhyGenerateKey DH_Lkey
  dsimp only
  rw [DH_init_dh0]
  generalize (if K.k_myrand 3 = 0 then _ else K.k_myrand : Int128) = rand
  obtain ⟨hval, hlen⟩ := powmod_dh0 junk coprime_two length_dh0_G value_dh0_G two_lt_p0
    (fun _ => hc) rand
  have hlt : value (powmod32 junk c true dh0.DH_G dh0.DH_P rand).1 < p0 := by
    rw [hval]
    exact mod_lt_p0 _
  have hfew := length_dump32b hlt
  have hall : dump32b (powmod32 junk c true dh0.DH_G dh0.DH_P rand).1 (siz - 2) =
      dumpLoop false (powmod32 junk c true dh0.DH_G dh0.DH_P rand).1 :=
    List.take_of_length_le (by omega)
  refine ⟨mod_lt_p0 _, coprime_mod (Nat.Coprime.pow_left _ coprime_two), _, hlen, hval, ?_⟩
  rw [hall]

/-- What a side has at the end is made of the power of what it got. -/
theorem agreed_key (junk : Word) (c : Cache) (K : Credhy) {x : Nat} {ykey : List Byte}
    (h : Sent x ykey) :
    ∃ M N : IntArray, (M.length = IWIDTH ∧ value M = x ^ K.k_myrand.toNat % p0) ∧
      (N.length = IWIDTH ∧
        value N = value M ^ (strCRC8 0 (dump32b M 512)).toNat % p0) ∧
      CredhyAgreedKey junk c dh0 K ykey = (0, { K with
        k_rcrc8 := ykey.getD 0 0
        k_crc8 := strCRC8 0 (dump32b M 512)
        k_str := dump32b N 128 ++ K.k_str.drop (dump32b N 128).length
        k_idx := 0
        k_leng := (dump32b N 128).length }) := by
  obtain ⟨helem, hunit, X, hlen, hval, hykey⟩ := h
  have hfew := length_dump32b (M := X) (by rw [hval]; exact helem)
  have hslen : ((0xFF : Word) &&& (ykey.getD 1 0).signExtend 32).toNat =
      (dumpLoop false X).length := by
    rw [toNat_and_octet, hykey]
    exact Nat.mod_eq_of_lt (by omega)
  have hcrc : strCRC8 0 ((ykey.drop 1).take (1 + (dumpLoop false X).length)) =
      0xFF &&& (ykey.getD 0 0).signExtend 32 := by
    apply BitVec.eq_of_toNat_eq
    rw [toNat_and_octet, hykey, List.drop_succ_cons, List.drop_zero, Nat.add_comm,
      List.take_of_length_le (by simp), List.getD_cons_zero, BitVec.toNat_setWidth]
    exact (Nat.mod_eq_of_lt (strCRC8_lt 0 _ (by decide))).symm
  have hscan : scan32b (ykey.drop 2) (dumpLoop false X).length = X := by
    have hdump := scan32b_dump32b hlen (le_refl _) []
    unfold dump32b at hdump
    rw [List.take_length, List.append_nil] at hdump
    rw [hykey]
    exact hdump
  obtain ⟨hM, hMlen⟩ := powmod_dh0 junk hunit hlen hval helem
    (fun hno : false = true => absurd hno (by decide)) (c := c) K.k_myrand
  unfold CredhyAgreedKey DH_Gkey
  dsimp only
  rw [hslen, hcrc, if_neg (fun hne => hne rfl), hscan, DH_init_dh0]
  generalize (powmod32 junk c false X dh0.DH_P K.k_myrand).1 = M at *
  have hMunit : Nat.Coprime (x ^ K.k_myrand.toNat % p0) p0 := coprime_mod (Nat.Coprime.pow_left _ hunit)
  obtain ⟨hN, hNlen⟩ := powmod_dh0 junk hMunit hMlen hM (mod_lt_p0 _)
    (fun hno : false = true => absurd hno (by decide)) (c := c)
    (fun i => if i = 3 then strCRC8 0 (dump32b M 512) else 0)
  refine ⟨M, _, ⟨hMlen, hM⟩, ⟨hNlen, ?_⟩, rfl⟩
  rw [hN, hM]
  congr 2

/-- The context of a side with a secret. -/
def side (rand : Int128) : Credhy := { (CredhyInit 0).2 with k_myrand := rand }

/-- Both calls return 0, with the same key. -/
def SameKey (r s : Int × Credhy) : Prop :=
  r.1 = 0 ∧ s.1 = 0 ∧ r.2.k_str = s.2.k_str ∧ r.2.k_leng = s.2.k_leng ∧
    r.2.k_crc8 = s.2.k_crc8 ∧ r.2.k_idx = s.2.k_idx

theorem k_str_generated (junk : Word) (c : Cache) (rnd : Word × Word) (rand : Int128) (siz : Nat) :
    (CredhyGenerateKey junk c dh0 rnd (side rand) siz).2.1.k_str = List.replicate 128 0 := rfl

/-- The sides agree on a key for all secrets, and every element of the group is found again in its
octets. -/
theorem keys_agree (a b : Int128) (junkA junkB : Word) (cA cB : Cache)
    (hA : cA.made dh0.DH_G dh0.DH_P) (hB : cB.made dh0.DH_G dh0.DH_P) (rndA rndB : Word × Word)
    (sizA sizB : Nat) (hsizA : 34 ≤ sizA) (hsizB : 34 ≤ sizB) :
    SameKey
        (CredhyAgreedKey junkA (CredhyGenerateKey junkA cA dh0 rndA (side a) sizA).2.2 dh0
          (CredhyGenerateKey junkA cA dh0 rndA (side a) sizA).2.1
          (CredhyGenerateKey junkB cB dh0 rndB (side b) sizB).1)
        (CredhyAgreedKey junkB (CredhyGenerateKey junkB cB dh0 rndB (side b) sizB).2.2 dh0
          (CredhyGenerateKey junkB cB dh0 rndB (side b) sizB).2.1
          (CredhyGenerateKey junkA cA dh0 rndA (side a) sizA).1) ∧
      ∀ M : IntArray, M.length = IWIDTH → value M < p0 → ∀ siz, 32 ≤ siz →
        scan32b (dump32b M siz) (dump32b M siz).length = M := by
  refine ⟨?_, ?_⟩
  · have hsentA := sent_generated junkA hA rndA (side a) hsizA
    have hsentB := sent_generated junkB hB rndB (side b) hsizB
    obtain ⟨MA, NA, ⟨hMAlen, hMA⟩, ⟨hNAlen, hNA⟩, hkeyA⟩ :=
      agreed_key junkA (CredhyGenerateKey junkA cA dh0 rndA (side a) sizA).2.2
        (CredhyGenerateKey junkA cA dh0 rndA (side a) sizA).2.1 hsentB
    obtain ⟨MB, NB, ⟨hMBlen, hMB⟩, ⟨hNBlen, hNB⟩, hkeyB⟩ :=
      agreed_key junkB (CredhyGenerateKey junkB cB dh0 rndB (side b) sizB).2.2
        (CredhyGenerateKey junkB cB dh0 rndB (side b) sizB).2.1 hsentA
    have hM : MA = MB := by
      apply eq_of_value_eq (hMAlen.trans hMBlen.symm)
      rw [hMA, hMB, ← Nat.pow_mod, ← Nat.pow_mod, ← pow_mul, ← pow_mul, Nat.mul_comm]
    have hN : NA = NB := by
      apply eq_of_value_eq (hNAlen.trans hNBlen.symm)
      rw [hNA, hNB, hM]
    rw [hkeyA, hkeyB, hM, hN]
    refine ⟨rfl, rfl, ?_, rfl, rfl, rfl⟩
    dsimp only
    rw [k_str_generated, k_str_generated]
  · intro M hlen hlt siz hsiz
    have hscan := scan32b_dump32b hlen ((length_dump32b hlt).trans hsiz) []
    rwa [List.append_nil] at hscan

theorem keys_agree_small :
    SameKey
      (CredhyAgreedKey 7 (CredhyGenerateKey 7 ⟨false, none⟩ dh0 (0, 5) (side fun _ => 3) 1024).2.2 dh0
        (CredhyGenerateKey 7 ⟨false, none⟩ dh0 (0, 5) (side fun _ => 3) 1024).2.1
        (CredhyGenerateKey 0 ⟨true, none⟩ dh0 (1, 9) (side fun _ => 0) 34).1)
      (CredhyAgreedKey 0 (CredhyGenerateKey 0 ⟨true, none⟩ dh0 (1, 9) (side fun _ => 0) 34).2.2 dh0
        (CredhyGenerateKey 0 ⟨true, none⟩ dh0 (1, 9) (side fun _ => 0) 34).2.1
        (CredhyGenerateKey 7 ⟨false, none⟩ dh0 (0, 5) (side fun _ => 3) 1024).1) :=
  (keys_agree (fun _ => 3) (fun _ => 0) 7 0 ⟨false, none⟩ ⟨true, none⟩ (.absent false)
    (.absent true) (0, 5) (1, 9) 1024 34 (by decide) (by decide)).1

end delegate.credhy
