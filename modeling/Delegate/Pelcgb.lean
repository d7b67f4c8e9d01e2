-- The block encryption of pelcgb.cpp. Each octet of the key names an operation on
-- the block. Decryption undoes them from the end, and leaves out the same ones of
-- those that are not repeated.
import Delegate.Swaps
import Delegate.Credhy

open swaps

namespace delegate.pelcgb

open credhy

/-! ## The pure model -/

def BSIZE : Nat := 16

/-- The operations of `MAPS`. -/
inductive Op
  | OCT_SFT2 | OCT_SFT3 | OCT_SWAP | OCT_SHUF
  | STR_INC1 | STR_INC2 | STR_INC3 | STR_INC4
  | STR_INC5 | STR_INC6 | STR_INC7 | STR_BSF3
  | STR_REV3 | STR_REV4 | STR_SWAP | STR_SHUF
  deriving DecidableEq

open Op

def MAPS (map : Nat) : List Op :=
  if map = 0 then
    [OCT_SFT2, OCT_SFT3, OCT_SWAP, OCT_SHUF, STR_INC1, STR_INC2, STR_INC3, STR_INC4,
      STR_INC5, STR_INC6, STR_INC7, STR_BSF3, STR_REV3, STR_REV4, STR_SWAP, STR_SHUF]
  else
    [STR_INC5, STR_INC6, STR_INC7, STR_BSF3, STR_REV3, STR_REV4, STR_SWAP, STR_SHUF,
      STR_INC1, STR_INC2, STR_INC3, STR_INC4, OCT_SFT2, OCT_SFT3, OCT_SWAP, OCT_SHUF]

/-- `OCT_SFTN` on one octet, which is an `int` with its sign. -/
def octSft (enc : Bool) (n : Nat) (oct : Byte) : Byte :=
  let ch : Word := oct.signExtend 32
  if enc then ((((0xFF : Word) >>> n) &&& ch.sshiftRight n) ||| (ch <<< (8 - n))).setWidth 8
  else ((ch <<< n) ||| (((0xFF : Word) >>> (8 - n)) &&& ch.sshiftRight (8 - n))).setWidth 8

/-- `OCT_SHUF` on one octet. -/
def octShuf (oct : Byte) : Byte :=
  let ch : Word := oct.signExtend 32
  ((0xCC &&& (ch <<< 2)) ||| (0x33 &&& ch.sshiftRight 2)).setWidth 8

/-- The loop of `STR_INCX`. -/
def incLoop (step : Int) : List Byte → Int → List Byte
  | [], _ => []
  | o :: octs, inc => (o + BitVec.ofInt 8 inc) :: incLoop step octs (inc + step)

/-- `STR_INCX`. -/
def strInc (enc : Bool) (inc1 : Int) (octs : List Byte) : List Byte :=
  let inc := if enc then inc1 else -inc1
  incLoop inc octs inc

/-- The upper bits of the next octet come after an octet. -/
def bsfOct (o next : Byte) : Byte :=
  let o : Word := o.signExtend 32
  let next : Word := next.signExtend 32
  ((o <<< 3) ||| (next.sshiftRight 5 &&& ((0xFF : Word) >>> 5))).setWidth 8

/-- The lower bits of the octet before come before an octet. -/
def bsfBack (prev o : Byte) : Byte :=
  let o : Word := o.signExtend 32
  let prev : Word := prev.signExtend 32
  ((((0xFF : Word) >>> 3) &&& o.sshiftRight 3) ||| (prev <<< 5)).setWidth 8

/-- The loop of `STR_BSF3` to encrypt; `ch` comes after the last octet. -/
def bsfLoop (ch : Byte) : List Byte → List Byte
  | [] => []
  | [o] => [bsfOct o ch]
  | o :: o' :: octs => bsfOct o o' :: bsfLoop ch (o' :: octs)

/-- The loop of `STR_BSF3` to decrypt. -/
def bsfBackLoop (prev : Byte) : List Byte → List Byte
  | [] => []
  | o :: octs => bsfBack prev o :: bsfBackLoop o octs

/-- `STR_BSF3`. -/
def strBsf (enc : Bool) (octs : List Byte) : List Byte :=
  if enc then bsfLoop (octs.headD 0) octs else bsfBackLoop (octs.getLastD 0) octs

/-- The places that `STR_REVN` swaps. -/
def revPairs (nr elen : Nat) : List (Nat × Nat) :=
  (List.range (elen / nr)).map fun oi => (nr * oi, nr * oi + (nr - 1))

/-- The places that `STR_SWAP` swaps. -/
def swapPairs (elen : Nat) : List (Nat × Nat) :=
  (List.range (elen / 2)).map fun oi => (elen / 2 + oi, oi)

/-- The places that `STR_SHUF` swaps. -/
def shufPairs (elen : Nat) : List (Nat × Nat) :=
  let base := elen / 4
  (List.range base).flatMap fun oi => [(oi, base + oi), (base * 2 + oi, base * 3 + oi)]

/-- These are not done again after themselves. -/
def Op.once : Op → Bool
  | OCT_SHUF | STR_REV3 | STR_REV4 | STR_SWAP | STR_SHUF => true
  | _ => false

/-- What an operation does if it is done. -/
def Op.run (enc : Bool) (octs : List Byte) : Op → List Byte
  | OCT_SHUF => octs.map octShuf
  | OCT_SFT2 => octs.map (octSft enc 2)
  | OCT_SFT3 => octs.map (octSft enc 3)
  | OCT_SWAP => octs.map (octSft enc 4)
  | STR_INC1 => strInc enc 31 octs
  | STR_INC2 => strInc enc 53 octs
  | STR_INC3 => strInc enc 71 octs
  | STR_INC4 => strInc enc 97 octs
  | STR_INC5 => strInc enc 113 octs
  | STR_INC6 => strInc enc 131 octs
  | STR_INC7 => strInc enc 173 octs
  | STR_BSF3 => strBsf enc octs
  | STR_REV3 => swapAll 0 octs (revPairs 3 octs.length)
  | STR_REV4 => swapAll 0 octs (revPairs 4 octs.length)
  | STR_SWAP => swapAll 0 octs (swapPairs octs.length)
  | STR_SHUF => swapAll 0 octs (shufPairs octs.length)

/-- The loop of `encdec_block` over the operations of the key. -/
def blockLoop (enc : Bool) : Option Op → List Op → List Byte → List Byte
  | _, [], octs => octs
  | preop, op :: ops, octs =>
      let octs := if op.once = true ∧ preop = some op then octs else op.run enc octs
      blockLoop enc (some op) ops octs

/-- The operation of an octet of the key. -/
def opOf (map : Nat) (k : Byte) : Op := (MAPS map).getD (k &&& 0xF).toNat OCT_SFT2

/-- `encdec_block`. -/
def encdec_block (map : Nat) (enc : Bool) (key octs : List Byte) : List Byte :=
  blockLoop enc none (key.map (opOf map)) octs

/-- The loop of `STR_scramble`, from the second octet on. -/
def scrambleLoop (enc : Bool) (inc1 : Int) : List Byte → Int → List Byte
  | [], _ => []
  | o :: octs, inc =>
      let inc := inc + inc1
      (if enc then o + BitVec.ofInt 8 inc else o - BitVec.ofInt 8 inc) ::
        scrambleLoop enc inc1 octs inc

/-- `STR_scramble`. -/
def scramble (enc : Bool) (seq pcrc : Int) : List Byte → List Byte
  | [] => []
  | o :: octs => o :: scrambleLoop enc (seq + pcrc + o.toInt) octs 0

/-- The padding: each octet from those at the start. -/
def padLoop : Nat → List Byte → Nat → Int → List Byte
  | 0, out, _, _ => out
  | n + 1, out, oi, crc =>
      let o := out.getD oi 0 + BitVec.ofInt 8 (out.length + crc)
      padLoop n (out ++ [o]) (oi + 1) (crc + (out.length + 1))

/-- The length of the block for `ilen` octets. -/
def blockLen (ilen : Nat) : Nat := ((2 + ilen - 1) / BSIZE + 1) * BSIZE

/-- `encdec` to encrypt: the octets and the checksum. -/
def encBlock (map : Nat) (seq : Int) (pcrc : Word) (key ins : List Byte) : List Byte × Word :=
  let crc := strCRC8 pcrc ins
  let elen := blockLen ins.length
  let out := crc.setWidth 8 :: BitVec.ofNat 8 (elen - ins.length) :: ins
  let out := padLoop (elen - out.length) out 0 crc.toInt
  (encdec_block map true key (scramble true seq pcrc.toInt out), crc)

/-- `encdec` to decrypt: the value, the octets and the checksum. -/
def decBlock (map : Nat) (seq : Int) (pcrc : Word) (key ins : List Byte) :
    Int × List Byte × Word :=
  let out := scramble false seq pcrc.toInt (encdec_block map false key ins)
  let elen : Int := ins.length - (out.getD 1 0).toNat
  let crc := strCRC8 pcrc ((out.drop 2).take elen.toNat)
  if crc ≠ 0xFF &&& (out.getD 0 0).signExtend 32 then (-1, out, pcrc)
  else (elen, (out.drop 2).take elen.toNat ++ out.drop elen.toNat, crc)

/-- `encdec`. -/
def encdec (map : Int) (enc : Bool) (seq : Int) (pcrc : Word) (key ins : List Byte) :
    Int × List Byte × Word :=
  if map < 0 ∨ 2 ≤ map then (0, [], pcrc)
  else if enc then
    let (out, crc) := encBlock map.toNat seq pcrc key ins
    (out.length, out, crc)
  else decBlock map.toNat seq pcrc key ins

/-- The place of a letter in `hexch`, where the end of the text counts too. -/
def hexPlace (ch : Byte) : Option Nat :=
  let ch := if 97 ≤ ch ∧ ch ≤ 122 then ch - 32 else ch
  if 48 ≤ ch ∧ ch ≤ 57 then some (ch - 48).toNat
  else if 65 ≤ ch ∧ ch ≤ 70 then some (ch - 55).toNat
  else if ch = 0 then some 16
  else none

/-- `setbkey`: the first `bklen` octets of `bkey`. A key with a negative length is in hexadecimal.
`md5` is `toMD5X`. -/
def setbkey (md5 : List Byte → Fin 16 → Byte) (enc : Bool) (klen : Int) (key : List Byte)
    (bklen : Nat) : Option (List Byte) :=
  if klen < 0 then
    ((key.take (-klen).toNat).mapM hexPlace).map fun l => (l.map (BitVec.ofNat 8)).take bklen
  else
    let digest := List.ofFn (md5 (key.take klen.toNat))
    let bkey := (digest.flatMap fun d : Byte => [0xF &&& d >>> 4, 0xF &&& d]).take bklen
    some (if enc then bkey else bkey.reverse)

/-- `sencdecrypty`: the value and the octets. A key that is not hexadecimal has the length -1. -/
def sencdecrypty (md5 : List Byte → Fin 16 → Byte) (enc : Bool) (map klen : Int) (key : List Byte)
    (bklen : Nat) (ins : List Byte) : Int × List Byte :=
  let bkey := (setbkey md5 enc klen key bklen).getD []
  let r := encdec map enc 0 0 bkey ins
  (r.1, r.2.1)

/-- `sencrypty`. -/
def sencrypty (md5 : List Byte → Fin 16 → Byte) (map klen : Int) (key : List Byte) (bklen : Nat)
    (ins : List Byte) : Int × List Byte :=
  sencdecrypty md5 true map klen key bklen ins

/-- `sdecrypty`. -/
def sdecrypty (md5 : List Byte → Fin 16 → Byte) (map klen : Int) (key : List Byte) (bklen : Nat)
    (ins : List Byte) : Int × List Byte :=
  sencdecrypty md5 false map klen key bklen ins

/-- A letter of `"0123456789ABCDEF"`. -/
def hexLetter (n : Byte) : Byte := if n < 10 then n + 48 else n + 55

/-- `aencryptyX`: the value and the letters. -/
def aencryptyX (md5 : List Byte → Fin 16 → Byte) (key : List Byte) (klen : Int) (ins : List Byte) :
    Int × List Byte :=
  let r := sencdecrypty md5 true 0 klen key 32 ins
  (r.1 * 2, r.2.flatMap fun ch : Byte => [hexLetter (0xF &&& ch >>> 4), hexLetter (0xF &&& ch)])

/-- The value of a letter in `adecrypty`. -/
def hexValue (ch : Byte) : Byte :=
  let ch : Word := ch.setWidth 32
  ((if 48 ≤ ch ∧ ch ≤ 57 then ch - 48 else ch - 65 + 10).setWidth 8) &&& 0xF

/-- The loop of `adecrypty` over pairs of letters. -/
def hexPairs : List Byte → List Byte
  | a :: b :: ins => ((hexValue a <<< 4) ||| hexValue b) :: hexPairs ins
  | _ => []

/-- `adecrypty`: the value and the octets, with a zero after them. -/
def adecrypty (md5 : List Byte → Fin 16 → Byte) (key : List Byte) (klen : Int) (ins : List Byte) :
    Int × List Byte :=
  let r := sencdecrypty md5 false 0 klen key 32 (hexPairs ins)
  (r.1, if 0 < r.1 then r.2.set r.1.toNat 0 else r.2.set 0 0)

/-! ## Each operation is undone -/

theorem octSft_back (b : Byte) :
    octSft false 2 (octSft true 2 b) = b ∧ octSft false 3 (octSft true 3 b) = b ∧
      octSft false 4 (octSft true 4 b) = b ∧ octShuf (octShuf b) = b := by
  revert b
  decide +kernel

theorem map_back {f g : Byte → Byte} (h : ∀ b, g (f b) = b) (octs : List Byte) :
    (octs.map f).map g = octs := by
  rw [List.map_map]
  exact (List.map_congr_left fun b _ => h b).trans (List.map_id octs)

theorem incLoop_back (step : Int) (octs : List Byte) (inc : Int) :
    incLoop (-step) (incLoop step octs inc) (-inc) = octs := by
  induction octs generalizing inc with
  | nil => rfl
  | cons o octs ih =>
    have hnext : -inc + -step = -(inc + step) := by omega
    have hcons : ∀ s i o l, incLoop s (o :: l) i = (o + BitVec.ofInt 8 i) :: incLoop s l (i + s) :=
      fun s i o l => rfl
    rw [hcons, hcons, hnext, ih, BitVec.ofInt_neg, BitVec.add_assoc, BitVec.add_neg_eq_sub, BitVec.sub_self,
      BitVec.add_zero]

theorem strInc_back (inc1 : Int) (octs : List Byte) :
    strInc false inc1 (strInc true inc1 octs) = octs :=
  incLoop_back inc1 octs inc1

/-- The shifts of `int` with its sign, as shifts of octets. -/
theorem shift_octet (b : Byte) :
    ((b.signExtend 32 <<< 3 : Word).setWidth 8 : Byte) = b <<< 3 ∧
      ((b.signExtend 32 <<< 5 : Word).setWidth 8 : Byte) = b <<< 5 ∧
      (((b.signExtend 32 : Word).sshiftRight 5 &&& (0xFF : Word) >>> 5).setWidth 8 : Byte) = b >>> 5 ∧
      (((0xFF : Word) >>> 3 &&& (b.signExtend 32 : Word).sshiftRight 3).setWidth 8 : Byte) = b >>> 3 := by
  revert b
  decide +kernel

/-- The bits of an octet are the lower ones of what was made before it and the upper ones of what
was made from it. -/
theorem bsfBack_bsfOct (p o next : Byte) : bsfBack (bsfOct p o) (bsfOct o next) = o := by
  have hoct : ∀ o next, bsfOct o next = (o <<< 3) ||| (next >>> 5) := by
    intro o next
    unfold bsfOct
    rw [BitVec.setWidth_or, (shift_octet o).1, (shift_octet next).2.2.1]
  have hback : ∀ prev o, bsfBack prev o = (o >>> 3) ||| (prev <<< 5) := by
    intro prev o
    unfold bsfBack
    rw [BitVec.setWidth_or, (shift_octet o).2.2.2, (shift_octet prev).2.1]
  rw [hback, hoct, hoct]
  ext i hi
  interval_cases i <;> simp

theorem bsfBackLoop_bsfLoop (ch p o : Byte) (octs : List Byte) :
    bsfBackLoop (bsfOct p o) (bsfLoop ch (o :: octs)) = o :: octs := by
  induction octs generalizing p o with
  | nil =>
    unfold bsfLoop bsfBackLoop bsfBackLoop
    rw [bsfBack_bsfOct]
  | cons o' octs ih =>
    unfold bsfLoop bsfBackLoop
    rw [bsfBack_bsfOct, ih]

theorem getLast?_bsfLoop (ch o : Byte) (octs : List Byte) :
    ∃ p, (bsfLoop ch (o :: octs)).getLast? = some (bsfOct p ch) := by
  induction octs generalizing o with
  | nil => exact ⟨o, rfl⟩
  | cons o' octs ih =>
    obtain ⟨p, hp⟩ := ih o'
    refine ⟨p, ?_⟩
    unfold bsfLoop
    rw [List.getLast?_cons, hp]
    rfl

theorem strBsf_back (octs : List Byte) : strBsf false (strBsf true octs) = octs := by
  cases octs with
  | nil => rfl
  | cons o octs =>
    obtain ⟨p, hp⟩ := getLast?_bsfLoop o o octs
    unfold strBsf
    simp only [if_true, Bool.false_eq_true, if_false, List.headD_cons]
    rw [List.getLastD_eq_getLast?, hp]
    exact bsfBackLoop_bsfLoop o p o octs

theorem revPairs_sound {nr : Nat} (hnr : 1 < nr) (elen : Nat) :
    (revPairs nr elen).Pairwise Apart ∧ ∀ q ∈ revPairs nr elen, q.1 < elen ∧ q.2 < elen := by
  refine ⟨?_, ?_⟩
  · unfold revPairs
    rw [List.pairwise_map]
    refine List.Pairwise.imp ?_ List.pairwise_lt_range
    intro a b hab
    have hle : nr * (a + 1) ≤ nr * b := Nat.mul_le_mul_left nr hab
    rw [Nat.mul_succ] at hle
    unfold Apart
    dsimp only
    omega
  · intro q hq
    obtain ⟨oi, hoi, rfl⟩ := List.mem_map.mp hq
    have hlt := List.mem_range.mp hoi
    have hle : nr * (oi + 1) ≤ nr * (elen / nr) := Nat.mul_le_mul_left nr hlt
    have hdiv := Nat.mul_div_le elen nr
    rw [Nat.mul_succ] at hle
    dsimp only
    omega

theorem swapPairs_sound (elen : Nat) :
    (swapPairs elen).Pairwise Apart ∧ ∀ q ∈ swapPairs elen, q.1 < elen ∧ q.2 < elen := by
  refine ⟨?_, ?_⟩
  · unfold swapPairs
    rw [List.pairwise_map]
    refine List.Pairwise.imp_of_mem ?_ List.pairwise_lt_range
    intro a b ha hb hab
    have ha := List.mem_range.mp ha
    have hb := List.mem_range.mp hb
    unfold Apart
    dsimp only
    omega
  · intro q hq
    obtain ⟨oi, hoi, rfl⟩ := List.mem_map.mp hq
    have hlt := List.mem_range.mp hoi
    dsimp only
    omega

theorem shufPairs_sound (elen : Nat) :
    (shufPairs elen).Pairwise Apart ∧ ∀ q ∈ shufPairs elen, q.1 < elen ∧ q.2 < elen := by
  have hbase : elen / 4 * 4 ≤ elen := Nat.div_mul_le_self elen 4
  unfold shufPairs
  dsimp only
  generalize elen / 4 = base at *
  refine ⟨?_, ?_⟩
  · rw [List.pairwise_flatMap]
    refine ⟨fun oi hoi => ?_, List.Pairwise.imp_of_mem ?_ List.pairwise_lt_range⟩
    · have hlt := List.mem_range.mp hoi
      rw [List.pairwise_pair]
      unfold Apart
      dsimp only
      omega
    · intro a b ha hb hab p hp q hq
      have ha := List.mem_range.mp ha
      have hb := List.mem_range.mp hb
      simp only [List.mem_cons, List.not_mem_nil, or_false] at hp hq
      unfold Apart
      rcases hp with rfl | rfl <;> rcases hq with rfl | rfl <;> dsimp only <;> omega
  · intro q hq
    obtain ⟨oi, hoi, hq⟩ := List.mem_flatMap.mp hq
    have hlt := List.mem_range.mp hoi
    simp only [List.mem_cons, List.not_mem_nil, or_false] at hq
    rcases hq with rfl | rfl <;> dsimp only <;> omega

theorem swapAll_back {pairs : Nat → List (Nat × Nat)}
    (h : ∀ elen, (pairs elen).Pairwise Apart ∧ ∀ q ∈ pairs elen, q.1 < elen ∧ q.2 < elen)
    (octs : List Byte) :
    swapAll 0 (swapAll 0 octs (pairs octs.length)) (pairs (swapAll 0 octs (pairs octs.length)).length) =
      octs := by
  obtain ⟨happart, hin⟩ := h octs.length
  rw [length_swapAll]
  exact swapAll_swapAll 0 _ happart hin

/-- Decryption undoes each operation. -/
theorem run_back (op : Op) (octs : List Byte) : op.run false (op.run true octs) = octs := by
  cases op with
  | OCT_SFT2 => exact map_back (fun b => (octSft_back b).1) octs
  | OCT_SFT3 => exact map_back (fun b => (octSft_back b).2.1) octs
  | OCT_SWAP => exact map_back (fun b => (octSft_back b).2.2.1) octs
  | OCT_SHUF => exact map_back (fun b => (octSft_back b).2.2.2) octs
  | STR_INC1 | STR_INC2 | STR_INC3 | STR_INC4 | STR_INC5 | STR_INC6 | STR_INC7 =>
    exact strInc_back _ octs
  | STR_BSF3 => exact strBsf_back octs
  | STR_REV3 => exact swapAll_back (revPairs_sound (by decide)) octs
  | STR_REV4 => exact swapAll_back (revPairs_sound (by decide)) octs
  | STR_SWAP => exact swapAll_back swapPairs_sound octs
  | STR_SHUF => exact swapAll_back shufPairs_sound octs

/-! ## The key from the end -/

/-- The operations that are done. -/
def done : Option Op → List Op → List Op
  | _, [] => []
  | preop, op :: ops =>
      if op.once = true ∧ preop = some op then done (some op) ops else op :: done (some op) ops

theorem blockLoop_eq (enc : Bool) (preop : Option Op) (ops : List Op) (octs : List Byte) :
    blockLoop enc preop ops octs = (done preop ops).foldl (Op.run enc) octs := by
  induction ops generalizing preop octs with
  | nil => rfl
  | cons op ops ih =>
    unfold blockLoop done
    dsimp only
    rw [ih]
    split
    · rfl
    · rfl

/-- An operation at the start is done unless it comes again after itself. -/
theorem done_cons (op : Op) (ops : List Op) :
    done none (op :: ops) =
      if op.once = true ∧ ops.head? = some op then done none ops else op :: done none ops := by
  have hstart : ∀ op ops, done none (op :: ops) = op :: done (some op) ops := by
    intro op ops
    conv_lhs => unfold done
    rw [if_neg (by simp)]
  rw [hstart]
  cases ops with
  | nil =>
    rw [List.head?_nil, if_neg (by simp)]
    rfl
  | cons op' ops =>
    rw [hstart, List.head?_cons]
    conv_lhs => unfold done
    by_cases heq : op' = op
    · subst heq
      split
      · rfl
      · rfl
    · have hne : some op ≠ some op' := fun h => heq (Option.some.inj h).symm
      have hne' : some op' ≠ some op := fun h => heq (Option.some.inj h)
      rw [if_neg (fun h => hne h.2), if_neg (fun h => hne' h.2)]

/-- An operation at the end is done unless it comes after itself. -/
theorem done_concat (preop : Option Op) (ops : List Op) (op : Op) :
    done preop (ops ++ [op]) = done preop ops ++
      if op.once = true ∧ (ops.getLast?.or preop) = some op then [] else [op] := by
  induction ops generalizing preop with
  | nil =>
    have hnil : ∀ preop, done preop [] = [] := fun preop => by cases preop <;> rfl
    rw [List.nil_append, List.getLast?_nil, Option.none_or, hnil, List.nil_append]
    unfold done
    rw [hnil]
  | cons op' ops ih =>
    have hlast : (op' :: ops).getLast?.or preop = ops.getLast?.or (some op') := by
      rw [List.getLast?_cons]
      cases ops.getLast? <;> rfl
    rw [List.cons_append, hlast]
    unfold done
    rw [ih]
    split
    · rfl
    · rfl

/-- From the end, the same operations are done. -/
theorem done_reverse (ops : List Op) : done none ops.reverse = (done none ops).reverse := by
  induction ops with
  | nil => rfl
  | cons op ops ih =>
    rw [List.reverse_cons, done_concat, ih, List.getLast?_reverse, Option.or_none, done_cons]
    split
    · rw [List.append_nil]
    · rw [List.reverse_cons]

theorem foldl_back (ops : List Op) (octs : List Byte) :
    ops.reverse.foldl (Op.run false) (ops.foldl (Op.run true) octs) = octs := by
  induction ops generalizing octs with
  | nil => rfl
  | cons op ops ih =>
    have hcons : (op :: ops).foldl (Op.run true) octs = ops.foldl (Op.run true) (op.run true octs) :=
      rfl
    rw [List.reverse_cons, List.foldl_append, hcons, ih]
    exact run_back op octs

/-- The key from the end undoes what the key has done. -/
theorem encdec_block_back (map : Nat) (key octs : List Byte) :
    encdec_block map false key.reverse (encdec_block map true key octs) = octs := by
  unfold encdec_block
  rw [blockLoop_eq, blockLoop_eq, List.map_reverse, done_reverse, foldl_back]

theorem length_run (enc : Bool) (octs : List Byte) (op : Op) : (op.run enc octs).length = octs.length := by
  have hinc : ∀ step (l : List Byte) inc, (incLoop step l inc).length = l.length := by
    intro step l
    induction l with
    | nil => exact fun inc => rfl
    | cons o l ih => exact fun inc => by simp [incLoop, ih]
  have hbsf : ∀ ch (l : List Byte), (bsfLoop ch l).length = l.length := by
    intro ch l
    induction l with
    | nil => rfl
    | cons o l ih => cases l <;> simp_all [bsfLoop]
  have hback : ∀ (l : List Byte) prev, (bsfBackLoop prev l).length = l.length := by
    intro l
    induction l with
    | nil => exact fun prev => rfl
    | cons o l ih => exact fun prev => by simp [bsfBackLoop, ih]
  cases op <;> unfold Op.run <;> try simp [strInc, hinc]
  unfold strBsf
  split
  · exact hbsf _ _
  · exact hback _ _

theorem length_encdec_block (map : Nat) (enc : Bool) (key octs : List Byte) :
    (encdec_block map enc key octs).length = octs.length := by
  unfold encdec_block
  rw [blockLoop_eq]
  induction done none (key.map (opOf map)) generalizing octs with
  | nil => rfl
  | cons op ops ih => rw [List.foldl_cons, ih, length_run]

/-! ## Blocks -/

theorem scrambleLoop_back (inc1 : Int) (octs : List Byte) (inc : Int) :
    scrambleLoop false inc1 (scrambleLoop true inc1 octs inc) inc = octs := by
  induction octs generalizing inc with
  | nil => rfl
  | cons o octs ih =>
    simp only [scrambleLoop, ih, if_true, Bool.false_eq_true, if_false, BitVec.add_sub_cancel]

theorem scramble_back (seq pcrc : Int) (octs : List Byte) :
    scramble false seq pcrc (scramble true seq pcrc octs) = octs := by
  cases octs with
  | nil => rfl
  | cons o octs =>
    unfold scramble
    dsimp only
    rw [scrambleLoop_back]

theorem length_scramble (enc : Bool) (seq pcrc : Int) (octs : List Byte) :
    (scramble enc seq pcrc octs).length = octs.length := by
  have hloop : ∀ (l : List Byte) inc1 inc, (scrambleLoop enc inc1 l inc).length = l.length := by
    intro l
    induction l with
    | nil => exact fun _ _ => rfl
    | cons o l ih => exact fun _ _ => by simp [scrambleLoop, ih]
  cases octs with
  | nil => rfl
  | cons o octs => simp [scramble, hloop]

theorem padLoop_spec (n : Nat) (out : List Byte) (oi : Nat) (crc : Int) :
    ∃ pad, padLoop n out oi crc = out ++ pad ∧ pad.length = n := by
  induction n generalizing out oi crc with
  | zero => exact ⟨[], by simp [padLoop], rfl⟩
  | succ n ih =>
    unfold padLoop
    dsimp only
    obtain ⟨pad, hpad, hlen⟩ := ih (out ++ [out.getD oi 0 + BitVec.ofInt 8 (out.length + crc)])
      (oi + 1) (crc + (out.length + 1))
    rw [hpad, List.append_assoc, List.singleton_append]
    exact ⟨_, rfl, by rw [List.length_cons, hlen]⟩

theorem blockLen_spec (ilen : Nat) :
    ilen + 2 ≤ blockLen ilen ∧ blockLen ilen ≤ ilen + 17 ∧ blockLen ilen % 16 = 0 := by
  unfold blockLen BSIZE
  omega

/-- A block is decrypted to what was in it. -/
theorem decBlock_encBlock (map : Nat) (seq : Int) {pcrc : Word} (hcrc : pcrc.toNat < 2 ^ 8)
    (key ins : List Byte) :
    (encBlock map seq pcrc key ins).1.length = blockLen ins.length ∧
      ∃ rest, decBlock map seq pcrc key.reverse (encBlock map seq pcrc key ins).1 =
        ((ins.length : Int), ins ++ rest, strCRC8 pcrc ins) := by
  obtain ⟨hroom, hbound, -⟩ := blockLen_spec ins.length
  have hlen2 : ((strCRC8 pcrc ins).setWidth 8 ::
      BitVec.ofNat 8 (blockLen ins.length - ins.length) :: ins : List Byte).length =
        ins.length + 2 := rfl
  obtain ⟨pad, hpad, hpadlen⟩ := padLoop_spec (blockLen ins.length - (ins.length + 2))
    ((strCRC8 pcrc ins).setWidth 8 :: BitVec.ofNat 8 (blockLen ins.length - ins.length) :: ins) 0
    (strCRC8 pcrc ins).toInt
  have henc : encBlock map seq pcrc key ins =
      (encdec_block map true key (scramble true seq pcrc.toInt ((strCRC8 pcrc ins).setWidth 8 ::
        BitVec.ofNat 8 (blockLen ins.length - ins.length) :: (ins ++ pad))), strCRC8 pcrc ins) := by
    unfold encBlock
    dsimp only
    rw [hlen2, hpad]
    rfl
  have hlength : (encBlock map seq pcrc key ins).1.length = blockLen ins.length := by
    rw [henc]
    dsimp only
    rw [length_encdec_block, length_scramble, List.length_cons, List.length_cons,
      List.length_append, hpadlen]
    omega
  refine ⟨hlength, ((strCRC8 pcrc ins).setWidth 8 ::
    BitVec.ofNat 8 (blockLen ins.length - ins.length) :: (ins ++ pad)).drop ins.length, ?_⟩
  unfold decBlock
  rw [hlength, henc]
  dsimp only
  rw [encdec_block_back, scramble_back, List.getD_cons_succ, List.getD_cons_zero,
    List.getD_cons_zero, List.drop_succ_cons, List.drop_succ_cons, List.drop_zero]
  have helen : ((blockLen ins.length : Int) -
      (BitVec.ofNat 8 (blockLen ins.length - ins.length)).toNat) = ins.length := by
    rw [BitVec.toNat_ofNat, Nat.mod_eq_of_lt (by omega)]
    omega
  have hsum : strCRC8 pcrc ins = 0xFF &&& ((strCRC8 pcrc ins).setWidth 8).signExtend 32 := by
    apply BitVec.eq_of_toNat_eq
    rw [toNat_and_octet, BitVec.toNat_setWidth]
    exact (Nat.mod_eq_of_lt (strCRC8_lt pcrc ins hcrc)).symm
  rw [helen, Int.toNat_natCast, List.take_left, if_neg (fun hne => hne hsum)]

/-! ## Messages -/

section
variable (md5 : List Byte → Fin 16 → Byte)

theorem setbkey_reverse {klen : Int} (hklen : 0 ≤ klen) (key : List Byte) (bklen : Nat) :
    ∃ bkey, setbkey md5 true klen key bklen = some bkey ∧
      setbkey md5 false klen key bklen = some bkey.reverse := by
  unfold setbkey
  rw [if_neg (by omega), if_neg (by omega)]
  exact ⟨_, rfl, rfl⟩

/-- What is encrypted comes back, for a key of any length. -/
theorem sencdecrypty_back {map klen : Int} (hmap : map = 0 ∨ map = 1) (hklen : 0 ≤ klen)
    (key : List Byte) (bklen : Nat) (ins : List Byte) :
    (sencdecrypty md5 true map klen key bklen ins).1 =
        (sencdecrypty md5 true map klen key bklen ins).2.length ∧
      ∃ rest, sencdecrypty md5 false map klen key bklen
        (sencdecrypty md5 true map klen key bklen ins).2 = ((ins.length : Int), ins ++ rest) := by
  obtain ⟨bkey, henc, hdec⟩ := setbkey_reverse md5 hklen key bklen
  have hrange : ¬ (map < 0 ∨ 2 ≤ map) := by omega
  obtain ⟨-, rest, hblock⟩ := decBlock_encBlock map.toNat 0 (by decide : (0 : Word).toNat < 2 ^ 8)
    bkey ins
  unfold sencdecrypty encdec
  simp only [henc, hdec, Option.getD_some, if_neg hrange, if_true, Bool.false_eq_true, if_false]
  refine ⟨trivial, rest, ?_⟩
  rw [hblock]

theorem hexPairs_letters (octs : List Byte) :
    hexPairs (octs.flatMap fun ch : Byte => [hexLetter (0xF &&& ch >>> 4), hexLetter (0xF &&& ch)]) =
      octs := by
  have hpair : ∀ ch : Byte,
      (hexValue (hexLetter (0xF &&& ch >>> 4)) <<< 4) ||| hexValue (hexLetter (0xF &&& ch)) = ch := by
    decide +kernel
  induction octs with
  | nil => rfl
  | cons ch octs ih =>
    rw [List.flatMap_cons, List.cons_append, List.singleton_append]
    unfold hexPairs
    rw [hpair, ih]

/-- Encryption is undone for every map, key and message, also through hexadecimal. The octets given
back are the message, as many as the value says. -/
theorem encryption_undone (map klen : Int) (hmap : map = 0 ∨ map = 1) (hklen : 0 ≤ klen)
    (key : List Byte) (bklen : Nat) (msg : List Byte) :
    (sencrypty md5 map klen key bklen msg).1 = (sencrypty md5 map klen key bklen msg).2.length ∧
      (sdecrypty md5 map klen key bklen (sencrypty md5 map klen key bklen msg).2).1 = msg.length ∧
      (sdecrypty md5 map klen key bklen (sencrypty md5 map klen key bklen msg).2).2.take
        msg.length = msg ∧
      (aencryptyX md5 key klen msg).1 = (aencryptyX md5 key klen msg).2.length ∧
      (adecrypty md5 key klen (aencryptyX md5 key klen msg).2).1 = msg.length ∧
      (adecrypty md5 key klen (aencryptyX md5 key klen msg).2).2.take msg.length = msg := by
  obtain ⟨hlen, rest, hback⟩ := sencdecrypty_back md5 hmap hklen key bklen msg
  obtain ⟨halen, arest, haback⟩ := sencdecrypty_back md5 (.inl rfl) hklen key 32 msg
  unfold sencrypty sdecrypty aencryptyX adecrypty
  dsimp only
  rw [hexPairs_letters, hback, haback, halen]
  refine ⟨hlen, rfl, List.take_left, ?_, rfl, ?_⟩
  · simp [List.length_flatMap]
  · dsimp only
    rw [Int.toNat_natCast]
    split
    · rw [List.take_set_of_le (le_refl _)]
      exact List.take_left
    · rename_i hpos
      have hzero : msg.length = 0 := by omega
      rw [hzero, List.take_zero, List.length_eq_zero_iff.mp hzero]

end

/-- A digest that counts up. -/
def countUp (_ : List Byte) (i : Fin 16) : Byte := BitVec.ofNat 8 (17 * i)

theorem encryption_undone_abc :
    (sdecrypty countUp 1 3 [97, 98, 99] 5 (sencrypty countUp 1 3 [97, 98, 99] 5 [200, 0, 7]).2).1 =
        3 ∧
      (sdecrypty countUp 1 3 [97, 98, 99] 5
        (sencrypty countUp 1 3 [97, 98, 99] 5 [200, 0, 7]).2).2.take 3 = [200, 0, 7] :=
  have h := encryption_undone countUp 1 3 (.inr rfl) (by decide) [97, 98, 99] 5 [200, 0, 7]
  ⟨h.2.1, h.2.2.1⟩

end delegate.pelcgb
