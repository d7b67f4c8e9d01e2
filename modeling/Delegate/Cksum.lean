-- The checksum of a text and of a file, as of cksum(1): `strCRC32` and `fcrc32X`
-- (rary/cksum.cpp).
import Delegate.Crc

open Polynomial crc

namespace delegate.cksum

/-! ## The pure model -/

def CRC32POLY : BitVec 32 := 0x04C11DB7

/-- The inner loop of `strCRC32add`: one bit of the octet. -/
def bitTurn (s : BitVec 32 × BitVec 8) : BitVec 32 × BitVec 8 :=
  let ovf := (s.1 &&& 0x80000000 != 0) ^^ (s.2 &&& 0x80 != 0)
  let oct := s.2 <<< 1
  let crc := s.1 <<< 1
  (if ovf then crc ^^^ CRC32POLY else crc, oct)

/-- The outer loop: one octet. -/
def octet (crc : BitVec 32) (oct : BitVec 8) : BitVec 32 := (bitTurn^[8] (crc, oct)).1

/-- `strCRC32add`, for the first `len` octets of the text. -/
def strCRC32add (crc : BitVec 32) (str : List (BitVec 8)) (len : BitVec 32) : BitVec 32 :=
  (str.take len.toInt.toNat).foldl octet crc

/-- The octets of `slen`, from the lowest on, `n` at most. There is one even for 0. -/
def slen : Nat → BitVec 32 → List (BitVec 8)
  | 0, _ => []
  | n + 1, len =>
    len.setWidth 8 :: if len.sshiftRight 8 = 0 then [] else slen n (len.sshiftRight 8)

def strCRC32end (crc len : BitVec 32) : BitVec 32 :=
  let octets := slen 4 len
  strCRC32add crc octets (BitVec.ofNat 32 octets.length) ^^^ 0xFFFFFFFF

def strCRC32 (str : List (BitVec 8)) (len : BitVec 32) : BitVec 32 :=
  strCRC32end (strCRC32add 0 str len) len

/-- The loop of `fcrc32X` over what is read, up to the end of the file. -/
def fcrc32X.loop : List (List (BitVec 8)) → BitVec 32 → BitVec 32 → BitVec 32 × BitVec 32
  | [], crc32, nth => (crc32, nth)
  | buf :: reads, crc32, nth =>
    let rcc := BitVec.ofNat 32 buf.length
    if 0 < rcc.toInt then fcrc32X.loop reads (strCRC32add crc32 buf rcc) (nth + rcc)
    else (crc32, nth)

/-- `fcrc32X`: the checksum, and the length. -/
def fcrc32X (reads : List (List (BitVec 8))) : BitVec 32 × BitVec 32 :=
  let (crc32, nth) := fcrc32X.loop reads 0 0
  (strCRC32end crc32 nth, nth)

/-! ## The checksum as a remainder -/

/-- The first bits of an octet, from the highest on. -/
def highBits (oct : BitVec 8) (n : Nat) : List Bool :=
  (List.range n).map fun k => oct.getLsbD (7 - k)

def bitsOf (oct : BitVec 8) : List Bool := highBits oct 8

/-- The octets of a length, from the lowest on, and no zeros behind the last. -/
def lengthOctets (n : Nat) : List (BitVec 8) := (Nat.digits 256 n).map (BitVec.ofNat 8)

/-- The polynomial of a text. -/
noncomputable def message (s : List (BitVec 8)) : (ZMod 2)[X] := ofBits (s.flatMap bitsOf)

/-- The remainder that the checksum is the complement of: the text and its length, shifted by 32
places, modulo the generator. -/
noncomputable def remainder (s : List (BitVec 8)) : (ZMod 2)[X] :=
  (message (s ++ lengthOctets s.length) * X ^ 32) %ₘ generator CRC32POLY

/-! ## The loops -/

theorem bitTurn_eq (crc : BitVec 32) (oct : BitVec 8) :
    bitTurn (crc, oct) = (shift CRC32POLY crc oct.msb, oct <<< 1) := by
  have hcrc : (crc &&& 0x80000000 != 0) = crc.msb := by
    have hpow : (0x80000000 : BitVec 32) = BitVec.twoPow 32 31 := rfl
    rw [hpow, BitVec.and_twoPow, BitVec.msb_eq_getLsbD_last]
    cases crc.getLsbD 31 <;> rfl
  have hoct : (oct &&& 0x80 != 0) = oct.msb := by
    have hpow : (0x80 : BitVec 8) = BitVec.twoPow 8 7 := rfl
    rw [hpow, BitVec.and_twoPow, BitVec.msb_eq_getLsbD_last]
    cases oct.getLsbD 7 <;> rfl
  unfold bitTurn shift
  dsimp only
  rw [hcrc, hoct]

theorem msb_shiftLeft (oct : BitVec 8) (k : Nat) (hk : k < 8) :
    (oct <<< k).msb = oct.getLsbD (7 - k) := by
  rw [BitVec.msb_eq_getLsbD_last, BitVec.getLsbD_shiftLeft]
  have hnot : ¬7 < k := by omega
  simp [hnot]

/-- The turns of the inner loop shift the register by the bits of the octet. -/
theorem bitTurn_iterate (crc : BitVec 32) (oct : BitVec 8) (n : Nat) (hn : n ≤ 8) :
    bitTurn^[n] (crc, oct) = ((highBits oct n).foldl (shift CRC32POLY) crc, oct <<< n) := by
  induction n with
  | zero => rw [Function.iterate_zero, id_eq, BitVec.shiftLeft_zero]; rfl
  | succ n ih =>
    have hbits : highBits oct (n + 1) = highBits oct n ++ [oct.getLsbD (7 - n)] := by
      unfold highBits
      rw [List.range_succ, List.map_append]
      rfl
    rw [Function.iterate_succ_apply', ih (by omega), bitTurn_eq, msb_shiftLeft oct n (by omega),
      hbits, List.foldl_append, ← BitVec.shiftLeft_add]
    rfl

theorem octet_eq (crc : BitVec 32) (oct : BitVec 8) :
    octet crc oct = (bitsOf oct).foldl (shift CRC32POLY) crc := by
  unfold octet
  rw [bitTurn_iterate crc oct 8 le_rfl]
  rfl

theorem octets_eq (crc : BitVec 32) (s : List (BitVec 8)) :
    s.foldl octet crc = (s.flatMap bitsOf).foldl (shift CRC32POLY) crc := by
  induction s generalizing crc with
  | nil => rfl
  | cons oct s ih => rw [List.foldl_cons, ih, List.flatMap_cons, List.foldl_append, octet_eq]

theorem toNat_of_length {n : Nat} (h : n < 2 ^ 31) : (BitVec.ofNat 32 n).toInt.toNat = n := by
  have hnat : (BitVec.ofNat 32 n).toNat = n := by
    rw [BitVec.toNat_ofNat]
    omega
  rw [BitVec.toInt_eq_toNat_of_lt (by rw [hnat]; omega), hnat, Int.toNat_natCast]

/-- A text shorter than the numbers reach is read to its end. -/
theorem strCRC32add_all (crc : BitVec 32) {s : List (BitVec 8)} (h : s.length < 2 ^ 31) :
    strCRC32add crc s (BitVec.ofNat 32 s.length) = s.foldl octet crc := by
  unfold strCRC32add
  rw [toNat_of_length h, List.take_length]

/-! ## The octets of the length -/

theorem length_slen (n : Nat) (len : BitVec 32) : (slen n len).length ≤ n := by
  induction n generalizing len with
  | zero => exact le_rfl
  | succ n ih =>
    rw [slen, List.length_cons]
    split
    · exact Nat.le_add_left 1 n
    · exact Nat.succ_le_succ (ih _)

/-- One octet less of a length. -/
theorem toNat_sshiftRight {len : BitVec 32} (h : len.toNat < 2 ^ 31) :
    (len.sshiftRight 8).toNat = len.toNat / 256 := by
  have hmsb : len.msb = false := by
    rw [BitVec.msb_eq_decide, decide_eq_false_iff_not]
    omega
  rw [BitVec.sshiftRight_eq_of_msb_false hmsb, BitVec.toNat_ushiftRight, Nat.shiftRight_eq_div_pow]

theorem setWidth_eq (len : BitVec 32) : len.setWidth 8 = BitVec.ofNat 8 (len.toNat % 256) := by
  apply BitVec.eq_of_toNat_eq
  rw [BitVec.toNat_setWidth, BitVec.toNat_ofNat]
  omega

theorem slen_eq (n : Nat) (len : BitVec 32) (h : len.toNat < 2 ^ 31) (hpos : 0 < len.toNat)
    (hn : len.toNat < 256 ^ n) : slen n len = lengthOctets len.toNat := by
  induction n generalizing len with
  | zero => omega
  | succ n ih =>
    have hshift := toNat_sshiftRight h
    unfold lengthOctets
    rw [slen, Nat.digits_def' (by decide) hpos, List.map_cons, setWidth_eq]
    congr 1
    by_cases hzero : len.toNat / 256 = 0
    · have heq : len.sshiftRight 8 = 0 := BitVec.eq_of_toNat_eq (by rw [hshift, hzero]; rfl)
      rw [if_pos heq, hzero, Nat.digits_zero]
      rfl
    · have hne : len.sshiftRight 8 ≠ 0 := by
        intro heq
        rw [heq] at hshift
        exact hzero hshift.symm
      rw [if_neg hne, ih (len.sshiftRight 8) (by omega) (by omega), hshift]
      · rfl
      · rw [hshift]
        rw [pow_succ] at hn
        omega

/-! ## The checksum -/

/-- The checksum is the complement of the register after the text and the octets of the length. -/
theorem strCRC32end_eq (crc len : BitVec 32) :
    strCRC32end crc len = ~~~(slen 4 len).foldl octet crc := by
  have hones : (0xFFFFFFFF : BitVec 32) = BitVec.allOnes 32 := rfl
  have hlen := length_slen 4 len
  unfold strCRC32end
  dsimp only
  rw [strCRC32add_all crc (by omega), hones, BitVec.xor_allOnes]

theorem toPoly_octets (s : List (BitVec 8)) :
    toPoly (s.foldl octet 0) = (message s * X ^ 32) %ₘ generator CRC32POLY := by
  rw [octets_eq]
  exact toPoly_message (by decide) CRC32POLY (s.flatMap bitsOf)

theorem complement_eq_remainder {s : List (BitVec 8)} (h : s.length < 2 ^ 31) :
    toPoly (~~~strCRC32 s (BitVec.ofNat 32 s.length)) = remainder s := by
  unfold strCRC32 remainder
  rw [strCRC32end_eq, BitVec.not_not, strCRC32add_all 0 h, ← List.foldl_append, toPoly_octets]
  have hnat : (BitVec.ofNat 32 s.length).toNat = s.length := by
    rw [BitVec.toNat_ofNat]
    omega
  rcases Nat.eq_zero_or_pos s.length with hzero | hpos
  · -- the octet of the length 0 is the polynomial 0, as is no octet
    have hnil : s = [] := List.length_eq_zero_iff.mp hzero
    subst hnil
    have hcode : message ([] ++ slen 4 (BitVec.ofNat 32 0)) = 0 := by
      have hslen : slen 4 (BitVec.ofNat 32 0) = [0] := rfl
      have hbits : bitsOf 0 = List.replicate 8 false := rfl
      rw [hslen]
      unfold message
      rw [List.nil_append, List.flatMap_singleton, hbits]
      simp [ofBits]
    have hspec : message ([] ++ lengthOctets 0) = 0 := by
      unfold lengthOctets
      rw [Nat.digits_zero]
      rfl
    rw [List.length_nil, hcode, hspec]
  · rw [slen_eq 4 _ (by rw [hnat]; exact h) (by rw [hnat]; exact hpos) (by rw [hnat]; omega), hnat]

/-! ## Pieces of a text -/

/-- The register after the pieces is that after the text. -/
theorem pieces_eq (chunks : List (List (BitVec 8))) (crc : BitVec 32)
    (h : chunks.flatten.length < 2 ^ 31) :
    chunks.foldl (fun crc buf => strCRC32add crc buf (BitVec.ofNat 32 buf.length)) crc =
      chunks.flatten.foldl octet crc := by
  induction chunks generalizing crc with
  | nil => rfl
  | cons buf chunks ih =>
    rw [List.flatten_cons, List.length_append] at h
    rw [List.foldl_cons, List.flatten_cons, List.foldl_append, strCRC32add_all crc (by omega),
      ih _ (by omega)]

/-- What is read up to the end of the file is added to the register and to the length. -/
theorem loop_eq (reads : List (List (BitVec 8))) (crc nth : BitVec 32)
    (h : reads.flatten.length < 2 ^ 31) (hread : ∀ buf ∈ reads, buf ≠ []) :
    fcrc32X.loop reads crc nth =
      (reads.flatten.foldl octet crc, nth + BitVec.ofNat 32 reads.flatten.length) := by
  induction reads generalizing crc nth with
  | nil =>
    have hnone : nth + BitVec.ofNat 32 0 = nth := BitVec.add_zero nth
    rw [fcrc32X.loop, List.flatten_nil, List.length_nil, hnone]
    rfl
  | cons buf reads ih =>
    rw [List.flatten_cons, List.length_append] at h
    have hpos : 0 < buf.length := List.length_pos_of_ne_nil (hread buf List.mem_cons_self)
    have hrcc : 0 < (BitVec.ofNat 32 buf.length).toInt := by
      have hnat := @toNat_of_length buf.length (by omega)
      omega
    rw [fcrc32X.loop, if_pos hrcc, ih _ _ (by omega) (fun b hb => hread b (List.mem_cons_of_mem _ hb)),
      strCRC32add_all crc (by omega), List.flatten_cons, List.foldl_append, List.length_append,
      BitVec.ofNat_add, BitVec.add_assoc]

/-- `strCRC32` of a text is the complement of the remainder of the text and its length, and the text
may be read in any pieces. -/
theorem strCRC32_posix (s : List (BitVec 8)) (h : s.length < 2 ^ 31) :
    toPoly (~~~strCRC32 s (BitVec.ofNat 32 s.length)) = remainder s ∧
      ∀ chunks : List (List (BitVec 8)), chunks.flatten = s →
        strCRC32end (chunks.foldl
            (fun crc buf => strCRC32add crc buf (BitVec.ofNat 32 buf.length)) 0)
          (BitVec.ofNat 32 s.length) = strCRC32 s (BitVec.ofNat 32 s.length) ∧
        ((∀ buf ∈ chunks, buf ≠ []) → fcrc32X chunks =
          (strCRC32 s (BitVec.ofNat 32 s.length), BitVec.ofNat 32 s.length)) := by
  refine ⟨complement_eq_remainder h, ?_⟩
  rintro chunks rfl
  constructor
  · unfold strCRC32
    rw [pieces_eq chunks 0 h, strCRC32add_all 0 h]
  · intro hread
    have hnth : 0 + BitVec.ofNat 32 chunks.flatten.length =
        BitVec.ofNat 32 chunks.flatten.length := BitVec.zero_add _
    unfold fcrc32X strCRC32
    rw [loop_eq chunks 0 0 h hread, strCRC32add_all 0 h, hnth]

/-- The checksum of the text `a`. -/
theorem strCRC32_posix_a :
    strCRC32 [0x61] 1 = 1220704766 ∧ toPoly (~~~strCRC32 [0x61] 1) = remainder [0x61] :=
  ⟨by decide +kernel, (strCRC32_posix [0x61] (by decide)).1⟩

end delegate.cksum
