-- The file encryption of pelcgb.cpp. The length of each chunk is written with the
-- checksum of what went before over it, and a length of 0 ends the file. The last
-- chunk is lost if its length is that checksum.
import Delegate.Pelcgb

namespace delegate.pelcgb

open credhy

/-! ## The pure model -/

/-- What is read into `ibuf` at once. -/
def CHUNK : Nat := 254

/-- A length in three octets. -/
def putLen (xelen : Word) : List Byte :=
  (List.range 3).map fun oi => (xelen >>> (8 * (3 - 1 - oi))).setWidth 8

/-- Three octets as a length, if they are there. -/
def getLen : List Byte → Option (Word × List Byte)
  | a :: b :: c :: rest =>
      some (((0 <<< 8 ||| a.setWidth 32) <<< 8 ||| b.setWidth 32) <<< 8 ||| c.setWidth 32, rest)
  | _ => none

/-- The loop of `fencrypty`, for at most `n` chunks, with the end. -/
def fencLoop (map : Int) (bkey : List Byte) : Nat → Int → Word → List Byte → List Byte
  | 0, _, _, _ => putLen 0
  | n + 1, seq, sum, inp =>
      let ibuf := inp.take CHUNK
      if ibuf = [] then putLen 0
      else
        let r := encdec map true seq sum bkey ibuf
        putLen (BitVec.ofInt 32 r.1 ^^^ sum) ++ r.2.1 ++
          fencLoop map bkey n (seq + 1) r.2.2 (inp.drop CHUNK)

/-- The loop of `fdecrypty`. There is no result if a checksum is wrong, where -1 octets would be
written. -/
def fdecLoop (map : Int) (bkey : List Byte) : Nat → Int → Word → List Byte → Option (List Byte)
  | 0, _, _, _ => none
  | n + 1, seq, sum, inp =>
      match getLen inp with
      | none => some []
      | some (xelen, rest) =>
          if xelen = 0 then some []
          else
            let ilen := xelen ^^^ sum
            if 256 < ilen.toNat then some []
            else
              let ibuf := rest.take ilen.toNat
              if ibuf = [] then some []
              else
                let r := encdec map false seq sum bkey ibuf
                if r.1 < 0 then none
                else
                  (fdecLoop map bkey n (seq + 1) r.2.2 (rest.drop ilen.toNat)).map
                    (r.2.1.take r.1.toNat ++ ·)

section
variable (md5 : List Byte → Fin 16 → Byte)

/-- `fencrypty`: what is written. -/
def fencrypty (klen : Int) (key : List Byte) (bklen : Nat) (inp : List Byte) : List Byte :=
  let bkey := (setbkey md5 true klen key bklen).getD []
  let dkey := (setbkey md5 false klen key bkey.length).getD []
  let r := encdec 0 true 0 0 bkey (List.ofFn (md5 dkey))
  [80, 69, 76, 67] ++ [0] ++ [BitVec.ofInt 8 r.1] ++ r.2.1 ++ fencLoop 0 bkey inp.length 0 0 inp

/-- `fdecrypty`: what is written. -/
def fdecrypty (klen : Int) (key : List Byte) (bklen : Nat) (inp : List Byte) : Option (List Byte) :=
  let bkey := (setbkey md5 false klen key bklen).getD []
  if inp.take 4 ≠ [80, 69, 76, 67] then some []
  else
    match inp.drop 4 with
    | m :: ilen :: inp =>
        let map : Int := (0xF &&& m).toNat
        if 2 ≤ map then some []
        else
          let dkdg := inp.take (min ilen.toNat 32)
          let dgkkey := (encdec map false 0 0 bkey dkdg).2.1
          if dgkkey.take 16 ≠ List.ofFn (md5 bkey) then some []
          else fdecLoop map bkey inp.length 0 0 (inp.drop (min ilen.toNat 32))
    | _ => some []

end

/-! ## Lengths -/

theorem getLen_putLen (x : Word) (hx : x.toNat < 2 ^ 24) (rest : List Byte) :
    getLen (putLen x ++ rest) = some (x, rest) := by
  have hput : putLen x = [(x >>> 16).setWidth 8, (x >>> 8).setWidth 8, x.setWidth 8] := by
    simp [putLen, List.range_succ]
  rw [hput]
  unfold getLen
  simp only [List.cons_append, List.nil_append]
  congr 2
  have hhigh : ∀ i (hi : i < 32), 24 ≤ i → x[i] = false := by
    intro i hi hle
    rw [← BitVec.getLsbD_eq_getElem, ← BitVec.testBit_toNat]
    apply Nat.testBit_lt_two_pow
    exact lt_of_lt_of_le hx (Nat.pow_le_pow_right (by decide) hle)
  ext i hi
  by_cases h24 : 24 ≤ i
  · rw [hhigh i hi h24]
    interval_cases i <;> simp
  · interval_cases i <;> simp

theorem length_putLen (x : Word) : (putLen x).length = 3 := by
  simp [putLen]

theorem xor_eq_zero_iff (x y : Word) : x ^^^ y = 0 ↔ x = y := by
  refine ⟨fun h => ?_, fun h => ?_⟩
  · have hback : x ^^^ y ^^^ y = y := by
      rw [h]
      exact BitVec.zero_xor
    rwa [BitVec.xor_assoc, BitVec.xor_self, BitVec.xor_zero] at hback
  · rw [h]
    exact BitVec.xor_self

/-! ## The end of the file -/

/-- The length of the last, incomplete chunk is not the checksum of what is before it. -/
def LastFound (sum : Word) (inp : List Byte) : Prop :=
  inp.length % CHUNK ≠ 0 →
    (strCRC8 sum (inp.take (CHUNK * (inp.length / CHUNK)))).toNat ≠ blockLen (inp.length % CHUNK)

instance (sum : Word) (inp : List Byte) : Decidable (LastFound sum inp) :=
  inferInstanceAs (Decidable (_ → _))

theorem strCRC8_append (crc : Word) (s t : List Byte) :
    strCRC8 crc (s ++ t) = strCRC8 (strCRC8 crc s) t := by
  unfold strCRC8
  exact List.foldl_append

/-- A chunk with others after it says nothing about the end. -/
theorem lastFound_drop (sum : Word) {inp : List Byte} (h : CHUNK ≤ inp.length) :
    LastFound sum inp ↔ LastFound (strCRC8 sum (inp.take CHUNK)) (inp.drop CHUNK) := by
  have hpos : 0 < CHUNK := by decide
  have hmod : (inp.length - CHUNK) % CHUNK = inp.length % CHUNK := (Nat.mod_eq_sub_mod h).symm
  have hdiv : inp.length / CHUNK = (inp.length - CHUNK) / CHUNK + 1 := Nat.div_eq_sub_div hpos h
  have htake : inp.take (CHUNK * ((inp.length - CHUNK) / CHUNK + 1)) =
      inp.take CHUNK ++ (inp.drop CHUNK).take (CHUNK * ((inp.length - CHUNK) / CHUNK)) := by
    rw [Nat.mul_succ, Nat.add_comm, List.take_add]
  unfold LastFound
  rw [List.length_drop, hmod, hdiv, htake, strCRC8_append]

theorem encdec_enc (seq : Int) (sum : Word) (bkey ibuf : List Byte) :
    encdec 0 true seq sum bkey ibuf =
      (((encBlock 0 seq sum bkey ibuf).1.length : Int), (encBlock 0 seq sum bkey ibuf).1,
        strCRC8 sum ibuf) := rfl

theorem fencLoop_nil (bkey : List Byte) (n : Nat) (seq : Int) (sum : Word) :
    fencLoop 0 bkey n seq sum [] = putLen 0 := by
  cases n <;> rfl

theorem fencLoop_chunk (bkey : List Byte) (n : Nat) (seq : Int) {sum : Word}
    (hsum : sum.toNat < 2 ^ 8) {inp : List Byte} (hne : inp ≠ []) :
    fencLoop 0 bkey (n + 1) seq sum inp =
      putLen (BitVec.ofNat 32 (blockLen (inp.take CHUNK).length) ^^^ sum) ++
        ((encBlock 0 seq sum bkey (inp.take CHUNK)).1 ++
          fencLoop 0 bkey n (seq + 1) (strCRC8 sum (inp.take CHUNK)) (inp.drop CHUNK)) := by
  have hibuf : inp.take CHUNK ≠ [] := by simpa [CHUNK] using hne
  have hlen := (decBlock_encBlock 0 seq hsum bkey (inp.take CHUNK)).1
  conv_lhs => unfold fencLoop
  dsimp only
  rw [if_neg hibuf, encdec_enc]
  dsimp only
  rw [hlen, BitVec.ofInt_natCast, List.append_assoc]

/-- A chunk is found again unless its length is the checksum before it. -/
theorem fdecLoop_chunk (bkey : List Byte) (n : Nat) (seq : Int) {sum : Word}
    (hsum : sum.toNat < 2 ^ 8) {ibuf : List Byte} (hlen : ibuf.length ≤ CHUNK) (rest : List Byte) :
    fdecLoop 0 bkey.reverse (n + 1) seq sum
        (putLen (BitVec.ofNat 32 (blockLen ibuf.length) ^^^ sum) ++
          ((encBlock 0 seq sum bkey ibuf).1 ++ rest)) =
      if sum.toNat = blockLen ibuf.length then some []
      else (fdecLoop 0 bkey.reverse n (seq + 1) (strCRC8 sum ibuf) rest).map (ibuf ++ ·) := by
  obtain ⟨helen, tail, hback⟩ := decBlock_encBlock 0 seq hsum bkey ibuf
  obtain ⟨hroom, -, hmod⟩ := blockLen_spec ibuf.length
  have hmax : blockLen ibuf.length ≤ 256 := by
    unfold blockLen BSIZE
    unfold CHUNK at hlen
    omega
  have hnat : (BitVec.ofNat 32 (blockLen ibuf.length)).toNat = blockLen ibuf.length := by
    rw [BitVec.toNat_ofNat]
    exact Nat.mod_eq_of_lt (by omega)
  have hsmall : (BitVec.ofNat 32 (blockLen ibuf.length) ^^^ sum).toNat < 2 ^ 24 := by
    rw [BitVec.toNat_xor, hnat]
    exact Nat.xor_lt_two_pow (by omega) (by omega)
  conv_lhs => unfold fdecLoop
  rw [getLen_putLen _ hsmall]
  dsimp only
  by_cases hsame : sum.toNat = blockLen ibuf.length
  · rw [if_pos hsame, if_pos]
    rw [xor_eq_zero_iff]
    apply BitVec.eq_of_toNat_eq
    rw [hnat, hsame]
  · rw [if_neg hsame, if_neg]
    · rw [BitVec.xor_assoc, BitVec.xor_self, BitVec.xor_zero, hnat, if_neg (by omega), ← helen,
        List.take_left, List.drop_left]
      have hblock : (encBlock 0 seq sum bkey ibuf).1 ≠ [] := by
        intro hnil
        rw [hnil, List.length_nil] at helen
        omega
      have hdec : encdec 0 false seq sum bkey.reverse (encBlock 0 seq sum bkey ibuf).1 =
          decBlock 0 seq sum bkey.reverse (encBlock 0 seq sum bkey ibuf).1 := rfl
      rw [if_neg hblock, hdec, hback]
      dsimp only
      rw [if_neg (by omega), Int.toNat_natCast, List.take_left]
    · rw [xor_eq_zero_iff]
      intro heq
      apply hsame
      rw [← heq, hnat]

theorem fdecLoop_end (bkey : List Byte) (n : Nat) (seq : Int) (sum : Word) :
    fdecLoop 0 bkey (n + 1) seq sum (putLen 0) = some [] := by
  have hget := getLen_putLen 0 (by decide) []
  rw [List.append_nil] at hget
  unfold fdecLoop
  rw [hget]
  rfl

/-- What is decrypted is the input exactly if the last chunk is found. -/
theorem fdecLoop_fencLoop (bkey : List Byte) (n m : Nat) (seq : Int) {sum : Word}
    (hsum : sum.toNat < 2 ^ 8) (inp : List Byte) (hn : inp.length ≤ n) (hm : inp.length < m) :
    fdecLoop 0 bkey.reverse m seq sum (fencLoop 0 bkey n seq sum inp) = some inp ↔
      LastFound sum inp := by
  induction n generalizing m seq sum inp with
  | zero =>
    have hnil := List.length_eq_zero_iff.mp (Nat.le_zero.mp hn)
    subst hnil
    obtain ⟨k, rfl⟩ := Nat.exists_eq_succ_of_ne_zero (Nat.ne_of_gt hm)
    rw [fencLoop_nil, fdecLoop_end]
    exact ⟨fun _ h => absurd rfl h, fun _ => rfl⟩
  | succ n ih =>
    obtain ⟨k, rfl⟩ := Nat.exists_eq_succ_of_ne_zero (Nat.ne_of_gt (Nat.zero_lt_of_lt hm))
    by_cases hne : inp = []
    · subst hne
      rw [fencLoop_nil, fdecLoop_end]
      exact ⟨fun _ h => absurd rfl h, fun _ => rfl⟩
    have hlen : 0 < inp.length := List.length_pos_of_ne_nil hne
    rw [fencLoop_chunk bkey n seq hsum hne,
      fdecLoop_chunk bkey k seq hsum (List.length_take_le _ _)]
    have hnext := strCRC8_lt sum (inp.take CHUNK) hsum
    have hdrop : (inp.drop CHUNK).length = inp.length - CHUNK := List.length_drop
    have hchunk : CHUNK = 254 := rfl
    have hrest := ih k (seq + 1) hnext (inp.drop CHUNK) (by omega) (by omega)
    by_cases hfull : CHUNK ≤ inp.length
    · have htake : (inp.take CHUNK).length = CHUNK := List.length_take_of_le hfull
      have hmax : blockLen CHUNK = 256 := by decide
      rw [htake, hmax, if_neg (by omega), lastFound_drop sum hfull, ← hrest]
      have hinp : inp = inp.take CHUNK ++ inp.drop CHUNK := (List.take_append_drop CHUNK inp).symm
      constructor
      · intro h
        obtain ⟨out, hout, heq⟩ := Option.map_eq_some_iff.mp h
        rw [hout]
        exact congrArg some (List.append_cancel_left (heq.trans hinp))
      · intro h
        rw [h]
        exact congrArg some hinp.symm
    · have htake : inp.take CHUNK = inp := List.take_of_length_le (by omega)
      have hdropnil : inp.drop CHUNK = [] := List.drop_eq_nil_of_le (by omega)
      have hsmall : LastFound sum inp ↔ sum.toNat ≠ blockLen inp.length := by
        unfold LastFound
        rw [Nat.mod_eq_of_lt (by omega), Nat.div_eq_of_lt (by omega), Nat.mul_zero, List.take_zero]
        exact ⟨fun h => h (by omega), fun h _ => h⟩
      rw [hsmall, htake, hdropnil, fencLoop_nil]
      obtain ⟨j, rfl⟩ := Nat.exists_eq_succ_of_ne_zero (by omega : k ≠ 0)
      rw [fdecLoop_end]
      by_cases hsame : sum.toNat = blockLen inp.length
      · rw [if_pos hsame]
        exact ⟨fun h => absurd (Option.some.inj h).symm hne, fun h => absurd hsame h⟩
      · rw [if_neg hsame]
        exact ⟨fun _ => hsame, fun _ => by simp⟩

theorem length_fencLoop (bkey : List Byte) (n : Nat) (seq : Int) {sum : Word}
    (hsum : sum.toNat < 2 ^ 8) (inp : List Byte) (hn : inp.length ≤ n) :
    inp.length < (fencLoop 0 bkey n seq sum inp).length := by
  induction n generalizing seq sum inp with
  | zero =>
    have hnil := List.length_eq_zero_iff.mp (Nat.le_zero.mp hn)
    subst hnil
    rw [fencLoop_nil, length_putLen]
    decide
  | succ n ih =>
    by_cases hne : inp = []
    · subst hne
      rw [fencLoop_nil, length_putLen]
      decide
    have hlen : 0 < inp.length := List.length_pos_of_ne_nil hne
    have hchunk : CHUNK = 254 := rfl
    have hrest := ih (seq + 1) (strCRC8_lt sum (inp.take CHUNK) hsum) (inp.drop CHUNK)
      (by rw [List.length_drop]; omega)
    have hblock := (decBlock_encBlock 0 seq hsum bkey (inp.take CHUNK)).1
    have hroom := (blockLen_spec (inp.take CHUNK).length).1
    rw [List.length_drop] at hrest
    rw [List.length_take] at hroom hblock
    rw [fencLoop_chunk bkey n seq hsum hne, List.length_append, List.length_append, length_putLen,
      hblock]
    omega

/-! ## The file -/

section
variable (md5 : List Byte → Fin 16 → Byte)

/-- The key for the digest in the file is the one that the decryption makes. -/
theorem setbkey_cut {klen : Int} (hklen : 0 ≤ klen) (key : List Byte) (bklen : Nat) :
    ∃ bkey, setbkey md5 true klen key bklen = some bkey ∧
      setbkey md5 false klen key bklen = some bkey.reverse ∧
      setbkey md5 false klen key bkey.length = some bkey.reverse := by
  have hcut : ∀ l : List Byte, l.take (l.take bklen).length = l.take bklen := by
    intro l
    rw [List.length_take]
    rcases Nat.le_total bklen l.length with hle | hle
    · rw [Nat.min_eq_left hle]
    · rw [Nat.min_eq_right hle, List.take_of_length_le hle, List.take_length]
  unfold setbkey
  rw [if_neg (by omega), if_neg (by omega)]
  refine ⟨_, rfl, rfl, ?_⟩
  rw [if_neg (by omega)]
  simp only [if_true, Bool.false_eq_true, if_false]
  rw [hcut]

/-- The digest of the key is found in the file, so the chunks are decrypted. -/
theorem fdecrypty_fencrypty {klen : Int} (hklen : 0 ≤ klen) (key : List Byte) (bklen : Nat)
    (inp : List Byte) :
    ∃ bkey m, inp.length < m ∧ fdecrypty md5 klen key bklen (fencrypty md5 klen key bklen inp) =
      fdecLoop 0 bkey.reverse m 0 0 (fencLoop 0 bkey inp.length 0 0 inp) := by
  obtain ⟨bkey, henc, hdec, hcut⟩ := setbkey_cut md5 hklen key bklen
  have hzero : (0 : Word).toNat < 2 ^ 8 := by decide
  obtain ⟨hlen, tail, hback⟩ := decBlock_encBlock 0 0 hzero bkey (List.ofFn (md5 bkey.reverse))
  have hsixteen : (List.ofFn (md5 bkey.reverse)).length = 16 := List.length_ofFn
  have hblock : blockLen 16 = 32 := by decide
  rw [hsixteen, hblock] at hlen
  have hmore := length_fencLoop bkey inp.length 0 hzero inp (le_refl _)
  unfold fencrypty fdecrypty
  simp only [henc, hdec, Option.getD_some, hcut]
  rw [encdec_enc]
  dsimp only
  rw [hlen]
  simp only [List.cons_append, List.nil_append, List.take_succ_cons, List.take_zero,
    List.drop_succ_cons, List.drop_zero]
  rw [if_neg (fun h => h rfl)]
  have hmap : ((0xF &&& (0 : Byte)).toNat : Int) = 0 := rfl
  have hmin : min (BitVec.ofInt 8 ((32 : Nat) : Int)).toNat 32 = 32 := by decide
  rw [hmap, if_neg (by decide), hmin, List.take_left' hlen, List.drop_left' hlen]
  have hhead : encdec 0 false 0 0 bkey.reverse
      (encBlock 0 0 0 bkey (List.ofFn (md5 bkey.reverse))).1 =
        decBlock 0 0 0 bkey.reverse (encBlock 0 0 0 bkey (List.ofFn (md5 bkey.reverse))).1 := rfl
  rw [hhead, hback]
  dsimp only
  rw [List.take_left' hsixteen, if_neg (fun h => h rfl)]
  refine ⟨bkey, _, ?_, rfl⟩
  rw [List.length_append]
  omega

/-- A file comes back exactly if the length of its last, incomplete chunk is not the checksum of
what is before it. -/
theorem file_back_iff (klen : Int) (hklen : 0 ≤ klen) (key : List Byte) (bklen : Nat)
    (inp : List Byte) :
    fdecrypty md5 klen key bklen (fencrypty md5 klen key bklen inp) = some inp ↔
      LastFound 0 inp := by
  obtain ⟨bkey, m, hm, heq⟩ := fdecrypty_fencrypty md5 hklen key bklen inp
  rw [heq]
  exact fdecLoop_fencLoop bkey inp.length m 0 (by decide) inp (le_refl _) hm

end

theorem file_back_short :
    fdecrypty countUp 3 [97, 98, 99] 32 (fencrypty countUp 3 [97, 98, 99] 32 [1, 2, 3]) =
      some [1, 2, 3] :=
  (file_back_iff countUp 3 (by decide) [97, 98, 99] 32 [1, 2, 3]).mpr (by decide)

/-- The checksum of the first chunk is 16, and so is the length of the second one. -/
def lostLast : List Byte := List.replicate 253 0 ++ [137, 65]

theorem strCRC8_zeros (n : Nat) : strCRC8 0 (List.replicate n 0) = 0 := by
  induction n with
  | zero => rfl
  | succ n ih =>
    have hstep : crcBits 8 0 0 = 0 := by decide
    have hcons : strCRC8 0 (List.replicate (n + 1) 0) =
        strCRC8 (crcBits 8 0 0) (List.replicate n 0) := rfl
    rw [hcons, hstep, ih]

theorem lostLast_not_found : ¬ LastFound 0 lostLast := by
  have hlen : lostLast.length = 255 := by
    unfold lostLast
    rw [List.length_append, List.length_replicate]
    rfl
  have hfirst : (List.replicate 253 0 ++ [137] : List Byte).length = 254 := by
    rw [List.length_append, List.length_replicate]
    rfl
  have htake : lostLast.take 254 = List.replicate 253 0 ++ [137] := by
    have hsplit : lostLast = (List.replicate 253 0 ++ [137]) ++ [65] :=
      (List.append_assoc _ [137] [65]).symm
    rw [hsplit, List.take_left' hfirst]
  have hcrc : strCRC8 0 (lostLast.take 254) = 16 := by
    rw [htake, strCRC8_append, strCRC8_zeros]
    decide
  intro h
  unfold LastFound at h
  rw [hlen] at h
  exact h (by decide) (congrArg BitVec.toNat hcrc)

theorem last_chunk_lost :
    fdecrypty countUp 3 [97, 98, 99] 32 (fencrypty countUp 3 [97, 98, 99] 32 lostLast) ≠
      some lostLast := by
  obtain ⟨bkey, m, hm, heq⟩ := fdecrypty_fencrypty countUp (by decide : (0 : Int) ≤ 3)
    [97, 98, 99] 32 lostLast
  rw [heq]
  intro h
  exact lostLast_not_found
    ((fdecLoop_fencLoop bkey lostLast.length m 0 (by decide) lostLast (le_refl _) hm).mp h)

end delegate.pelcgb
