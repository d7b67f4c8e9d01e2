-- The encryptors of whole strings in credhy.cpp, which work in place. `CreyEncryptsX`
-- mixes the octets with one another, adds the key, adds it again from another place
-- and chains the CRC. `CredhyAencrypt` puts a checksum and the length of a padding
-- before the string, and spreads the octets to hexadecimal digits from the end.
import Delegate.CredhyStream

namespace delegate.credhy

/-! ## The stream cipher in place -/

section
variable (CRC8a : Option (Byte → Byte → Byte))

/-- `CredhyEncrypt(K,len,str,str)`. Where the key comes first, the loop reads what it left. -/
def CredhyEncryptIn (K : Credhy) (str : List Byte) : List Byte × Credhy :=
  let (str, K) := if K.k_flags &&& CR_AKFIRST ≠ 0 then CredhyAddkey K 0 str else (str, K)
  let (enc, crc8) := encLoop CRC8a K.k_flags str K.k_crc8
  let K := { K with k_crc8 := crc8 }
  if K.k_flags &&& CR_AKFIRST = 0 then CredhyAddkey K 0 enc else (enc, K)

/-- `CredhyDecrypt(K,len,str,str)` -/
def CredhyDecryptIn (K : Credhy) (str : List Byte) : List Byte × Credhy :=
  let (enc, K) := if K.k_flags &&& CR_AKFIRST = 0 then CredhyAddkey K 0 str else (str, K)
  let (src, crc8) := decLoop CRC8a K.k_flags enc K.k_crc8
  let K := { K with k_crc8 := crc8 }
  if K.k_flags &&& CR_AKFIRST ≠ 0 then CredhyAddkey K 0 src else (src, K)

theorem addkeyLoop_twice (kp : List Byte) (kl : Nat) (s : List Byte) (kx : Nat) :
    addkeyLoop 0 kp kl (addkeyLoop 0 kp kl s kx).1 kx = (s, (addkeyLoop 0 kp kl s kx).2) := by
  induction s generalizing kx with
  | nil => rfl
  | cons b s ih =>
    have hback : b ^^^ kp.getD kx 0 ^^^ kp.getD kx 0 = b := by
      rw [BitVec.xor_assoc, BitVec.xor_self, BitVec.xor_zero]
    simp only [addkeyLoop, if_true, ih, hback]

theorem length_addkeyLoop (op : Int) (kp : List Byte) (kl : Nat) (s : List Byte) (kx : Nat) :
    (addkeyLoop op kp kl s kx).1.length = s.length := by
  induction s generalizing kx with
  | nil => rfl
  | cons b s ih => simp [addkeyLoop, ih]

theorem length_encLoop (k_flags : Word) (src : List Byte) (crc8 : Word) :
    (encLoop CRC8a k_flags src crc8).1.length = src.length := by
  induction src generalizing crc8 with
  | nil => rfl
  | cons ch src ih => simp [encLoop, ih]

theorem decLoop_encLoop (k_flags : Word) (src : List Byte) (crc8 : Word) :
    decLoop CRC8a k_flags (encLoop CRC8a k_flags src crc8).1 crc8 =
      (src, (encLoop CRC8a k_flags src crc8).2) := by
  induction src generalizing crc8 with
  | nil => rfl
  | cons ch src ih =>
    have hback : ch ^^^ crc8.setWidth 8 ^^^ crc8.setWidth 8 = ch := by
      rw [BitVec.xor_assoc, BitVec.xor_self, BitVec.xor_zero]
    simp only [encLoop, decLoop, hback, ih]

theorem length_CredhyEncryptIn (K : Credhy) (str : List Byte) :
    (CredhyEncryptIn CRC8a K str).1.length = str.length := by
  unfold CredhyEncryptIn CredhyAddkey
  by_cases h : K.k_flags &&& CR_AKFIRST = 0
  · simp only [h, ne_eq, not_true_eq_false, if_false, if_true, length_addkeyLoop, length_encLoop]
  · simp only [h, ne_eq, not_false_eq_true, if_false, if_true, length_addkeyLoop, length_encLoop]

/-- Only the CRC and the index of the context change. -/
theorem CredhyEncryptIn_context (K : Credhy) (str : List Byte) :
    ∃ crc8 idx, (CredhyEncryptIn CRC8a K str).2 = { K with k_crc8 := crc8, k_idx := idx } := by
  unfold CredhyEncryptIn CredhyAddkey
  by_cases h : K.k_flags &&& CR_AKFIRST = 0
  · simp only [h, ne_eq, not_true_eq_false, if_false, if_true]
    exact ⟨_, _, rfl⟩
  · simp only [h, ne_eq, not_false_eq_true, if_false, if_true]
    exact ⟨_, _, rfl⟩

/-- Decryption in place undoes encryption in place, in both orders of the two passes, and
leaves the same context. -/
theorem CredhyDecryptIn_inverts (K : Credhy) (str : List Byte) :
    CredhyDecryptIn CRC8a K (CredhyEncryptIn CRC8a K str).1 =
      (str, (CredhyEncryptIn CRC8a K str).2) := by
  unfold CredhyDecryptIn CredhyEncryptIn CredhyAddkey
  by_cases h : K.k_flags &&& CR_AKFIRST = 0
  · simp only [h, ne_eq, not_true_eq_false, if_false, if_true, addkeyLoop_twice, decLoop_encLoop]
  · simp only [h, ne_eq, not_false_eq_true, if_false, if_true, decLoop_encLoop, addkeyLoop_twice]

end

/-! ## The mutual XOR -/

/-- The inner loop of `strDazzle`: the octet at `i` goes into all others. -/
def dazzleAt (i : Nat) (str : List Byte) : List Byte :=
  str.mapIdx fun j c => if i ≠ j then str.getD i 0 ^^^ c else c

/-- The outer loop of `strDazzle`, from `i` on. -/
def strDazzle.loop (slen : Nat) (inc i : Int) (str : List Byte) : List Byte :=
  if inc = 0 then str
  else if 0 < inc then
    if (slen : Int) ≤ i then str else loop slen inc (i + inc) (dazzleAt i.toNat str)
  else
    if i < 0 then str else loop slen inc (i + inc) (dazzleAt i.toNat str)
termination_by (if 0 < inc then slen - i else i + 1).toNat
decreasing_by
  · simp only [*, if_true]
    omega
  · simp only [*, if_false]
    omega

/-- `strDazzle`. -/
def strDazzle (str : List Byte) (slen : Nat) (inc : Int) : List Byte :=
  if inc = 0 then str else strDazzle.loop slen inc (if 0 < inc then 0 else (slen : Int) - 1) str

theorem length_dazzleAt (i : Nat) (str : List Byte) : (dazzleAt i str).length = str.length :=
  List.length_mapIdx

theorem getD_dazzleAt (i : Nat) (str : List Byte) : (dazzleAt i str).getD i 0 = str.getD i 0 := by
  unfold dazzleAt
  simp only [List.getD_eq_getElem?_getD, List.getElem?_mapIdx]
  cases str[i]? <;> simp

/-- The octet at `i` stays, so the same step takes it out again. -/
theorem dazzleAt_twice (i : Nat) (str : List Byte) : dazzleAt i (dazzleAt i str) = str := by
  apply List.ext_getElem?
  intro j
  have hkeep := getD_dazzleAt i str
  unfold dazzleAt at hkeep ⊢
  rw [List.getElem?_mapIdx, List.getElem?_mapIdx, Option.map_map, hkeep]
  cases str[j]? with
  | none => rfl
  | some c =>
    by_cases hij : i = j
    · simp [hij]
    · have hback : str.getD i 0 ^^^ (str.getD i 0 ^^^ c) = c := by
        rw [← BitVec.xor_assoc, BitVec.xor_self, BitVec.zero_xor]
      simp only [ne_eq, hij, not_false_eq_true, if_true, Option.map_some, Function.comp_apply, hback]

/-- The steps at the first `k` octets, in their order. -/
def dazzled (k : Nat) (str : List Byte) : List Byte :=
  (List.range k).foldl (fun str i => dazzleAt i str) str

theorem dazzled_succ (k : Nat) (str : List Byte) :
    dazzled (k + 1) str = dazzleAt k (dazzled k str) := by
  unfold dazzled
  rw [List.range_succ, List.foldl_append]
  rfl

theorem strDazzle_up (slen n k : Nat) (str : List Byte) (h : k + n = slen) :
    strDazzle.loop slen 1 k (dazzled k str) = dazzled slen str := by
  induction n generalizing k with
  | zero =>
    rw [strDazzle.loop, ← h]
    simp
  | succ n ih =>
    have hlt : ¬(slen : Int) ≤ k := by omega
    rw [strDazzle.loop, if_neg (by decide), if_pos (by decide), if_neg hlt]
    have hnext := ih (k + 1) (by omega)
    rwa [dazzled_succ] at hnext

theorem strDazzle_down (slen k : Nat) (str : List Byte) :
    strDazzle.loop slen (-1) ((k : Int) - 1) (dazzled k str) = str := by
  induction k with
  | zero =>
    rw [strDazzle.loop]
    rfl
  | succ k ih =>
    have hidx : ((k + 1 : Nat) : Int) - 1 = k := by omega
    have hpos : ¬(k : Int) < 0 := by omega
    rw [strDazzle.loop, if_neg (by decide), if_neg (by decide), hidx, if_neg hpos, dazzled_succ,
      Int.toNat_natCast, dazzleAt_twice]
    exact ih

/-- The steps taken back from the last to the first. -/
theorem strDazzle_inverts (slen : Nat) (str : List Byte) :
    strDazzle (strDazzle str slen 1) slen (-1) = str := by
  have hup : strDazzle str slen 1 = dazzled slen str := by
    have hrun := strDazzle_up slen slen 0 str (Nat.zero_add slen)
    exact hrun
  rw [hup]
  exact strDazzle_down slen slen str

/-! ## Crey -/

def CREY_DAZZLE : Word := 1

/-- The octets of the length in `strCRC32end`, at most `n`. -/
def lenOctets : Nat → Nat → List Byte
  | 0, _ => []
  | n + 1, len => BitVec.ofNat 8 len :: if len / 256 = 0 then [] else lenOctets n (len / 256)

def strCRC32end (crc : Word) (len : Nat) : Word :=
  strCRC32add crc (lenOctets 4 len) ^^^ 0xFFFFFFFF

def strCRC32 (str : List Byte) : Word := strCRC32end (strCRC32add 0 str) str.length

/-- `sprintf("%d",slen)` -/
def slend (slen : Nat) : List Byte := (Nat.toDigits 10 slen).map fun c => BitVec.ofNat 8 c.toNat

section
variable (CRC8a : Option (Byte → Byte → Byte)) (MD5 : List Byte → Vector Byte 16)

/-- `setupCrey`. The rest of `k_str` is zero. -/
def setupCrey (key : List Byte) (slen : Nat) : Credhy :=
  let lkey := MD5 (slend slen)
  let k_str := List.zipWith (· ^^^ ·) (MD5 key).toList lkey.toList
  { k_group := 0, k_active := 0, k_flags := CR_AKFIRST ||| CR_CRC32
    k_crc8 := strCRC32add (strCRC32add 0 (slend slen)) k_str
    k_idx := 0, k_leng := 16, k_myrand := fun _ => 0, k_lcrc8 := 0, k_rcrc8 := 0
    k_str := k_str ++ List.replicate 112 0 }

/-- The places in the key where the two passes begin. -/
def firstIdx (K : Credhy) : Nat := (0xFF &&& strCRC32 (K.k_str.take K.k_leng)).toNat % K.k_leng

def secondIdx (K : Credhy) : Nat := (0xFF &&& strCRC8 0 (K.k_str.take K.k_leng)).toNat % K.k_leng

/-- `CreyEncryptsX`: the result, and the string. -/
def CreyEncryptsX (opts : Word) (key str : List Byte) : Word × List Byte :=
  let K := setupCrey MD5 key str.length
  let str := if opts &&& CREY_DAZZLE ≠ 0 then strDazzle str str.length 1 else str
  let K := { K with k_idx := firstIdx K }
  let (str, K) := CredhyAddkey K 0 str
  let K := { K with k_idx := secondIdx K }
  let (str, K) := CredhyEncryptIn CRC8a K str
  (0xFF &&& K.k_crc8, str)

/-- `CreyDecryptsX`. -/
def CreyDecryptsX (opts : Word) (key str : List Byte) : Word × List Byte :=
  let K := setupCrey MD5 key str.length
  let K := { K with k_idx := secondIdx K }
  let (str, K) := CredhyDecryptIn CRC8a K str
  let crc := K.k_crc8
  let K := { K with k_idx := firstIdx K }
  let (str, _) := CredhyAddkey K 0 str
  let str := if opts &&& CREY_DAZZLE ≠ 0 then strDazzle str str.length (-1) else str
  (0xFF &&& crc, str)

theorem length_strDazzle_loop (slen : Nat) (inc i : Int) (str : List Byte) :
    (strDazzle.loop slen inc i str).length = str.length := by
  induction i, str using strDazzle.loop.induct slen inc with
  | case1 i str hinc => rw [strDazzle.loop, if_pos hinc]
  | case2 i str hinc hup hend => rw [strDazzle.loop, if_neg hinc, if_pos hup, if_pos hend]
  | case3 i str hinc hup hend ih =>
    rw [strDazzle.loop, if_neg hinc, if_pos hup, if_neg hend, ih, length_dazzleAt]
  | case4 i str hinc hup hend => rw [strDazzle.loop, if_neg hinc, if_neg hup, if_pos hend]
  | case5 i str hinc hup hend ih =>
    rw [strDazzle.loop, if_neg hinc, if_neg hup, if_neg hend, ih, length_dazzleAt]

theorem length_strDazzle (str : List Byte) (slen : Nat) (inc : Int) :
    (strDazzle str slen inc).length = str.length := by
  unfold strDazzle
  split
  · rfl
  · exact length_strDazzle_loop _ _ _ _

/-- What the option does to a string, and what takes it back. -/
theorem dazzle_inverts (opts : Word) (str : List Byte) (n : Nat) :
    (if opts &&& CREY_DAZZLE ≠ 0 then
      strDazzle (if opts &&& CREY_DAZZLE ≠ 0 then strDazzle str n 1 else str) n (-1)
    else if opts &&& CREY_DAZZLE ≠ 0 then strDazzle str n 1 else str) = str := by
  by_cases h : opts &&& CREY_DAZZLE = 0
  · simp only [h, ne_eq, not_true_eq_false, if_false]
  · simp only [h, ne_eq, not_false_eq_true, if_true, strDazzle_inverts]

theorem length_dazzled_if (opts : Word) (str : List Byte) (n : Nat) :
    (if opts &&& CREY_DAZZLE ≠ 0 then strDazzle str n 1 else str).length = str.length := by
  split
  · exact length_strDazzle _ _ _
  · rfl

/-- The four passes are taken back in the reverse order. -/
theorem CreyDecryptsX_inverts (opts : Word) (key str : List Byte) :
    CreyDecryptsX CRC8a MD5 opts key (CreyEncryptsX CRC8a MD5 opts key str).2 =
      ((CreyEncryptsX CRC8a MD5 opts key str).1, str) := by
  unfold CreyEncryptsX
  dsimp only
  generalize hd : (if opts &&& CREY_DAZZLE ≠ 0 then strDazzle str str.length 1 else str) = dstr
  generalize hk : setupCrey MD5 key str.length = K
  generalize ha : addkeyLoop 0 K.k_str K.k_leng dstr (firstIdx K) = a
  have hadd : CredhyAddkey { K with k_idx := firstIdx K } 0 dstr = (a.1, { K with k_idx := a.2 }) := by
    unfold CredhyAddkey
    dsimp only
    rw [ha]
  rw [hadd]
  dsimp only
  have hsecond : secondIdx { K with k_idx := a.2 } = secondIdx K := rfl
  rw [hsecond]
  generalize hK2 : ({ K with k_idx := secondIdx K } : Credhy) = K2
  have hlen : (CredhyEncryptIn CRC8a K2 a.1).1.length = str.length := by
    rw [length_CredhyEncryptIn, ← ha, length_addkeyLoop, ← hd, length_dazzled_if]
  obtain ⟨crc8, idx, hcontext⟩ := CredhyEncryptIn_context CRC8a K2 a.1
  have hback := addkeyLoop_twice K.k_str K.k_leng dstr (firstIdx K)
  rw [ha] at hback
  have hdazzle := dazzle_inverts opts str str.length
  rw [hd] at hdazzle
  have hdlen : dstr.length = str.length := by
    rw [← hd, length_dazzled_if]
  unfold CreyDecryptsX
  dsimp only
  rw [hlen, hk, hK2, CredhyDecryptIn_inverts]
  dsimp only
  rw [hcontext, ← hK2]
  have hadd' : CredhyAddkey { K with k_crc8 := crc8, k_idx := firstIdx K } 0 a.1 =
      (dstr, { K with k_crc8 := crc8, k_idx := a.2 }) := by
    unfold CredhyAddkey
    dsimp only
    rw [hback]
  change (_, (fun s : List Byte => if opts &&& CREY_DAZZLE ≠ 0 then strDazzle s s.length (-1) else s)
    (CredhyAddkey { K with k_crc8 := crc8, k_idx := firstIdx K } 0 a.1).1) = _
  rw [hadd']
  dsimp only
  rw [hdlen, hdazzle]

end

/-! ## Buffers -/

/-- The octets of a buffer by their place. -/
abbrev Buffer := Nat → Byte

def Buffer.put (b : Buffer) (i : Nat) (c : Byte) : Buffer := Function.update b i c

/-- The `n` octets from `off` on. -/
def Buffer.read (b : Buffer) (off n : Nat) : List Byte := (List.range n).map fun i => b (off + i)

/-- `Bcopy`, from another place or from the same buffer. -/
def Buffer.write (b : Buffer) (off : Nat) (s : List Byte) : Buffer :=
  fun i => if off ≤ i ∧ i < off + s.length then s.getD (i - off) 0 else b i

/-- The string in a buffer of the size. -/
def Buffer.cstr (b : Buffer) (siz : Nat) : List Byte := (b.read 0 siz).takeWhile (· ≠ 0)

namespace Buffer
variable {b b' : Buffer} {off n : Nat} {s : List Byte}

@[simp] theorem put_self (b : Buffer) (i : Nat) (c : Byte) : b.put i c i = c := by
  simp [put]

theorem put_of_ne {i j : Nat} (h : j ≠ i) (c : Byte) : b.put i c j = b j := by
  simp [put, h]

@[simp] theorem length_read : (b.read off n).length = n := by
  simp [read]

theorem read_congr (h : ∀ i, i < n → b (off + i) = b' (off + i)) : b.read off n = b'.read off n := by
  apply List.map_congr_left
  intro i hi
  exact h i (List.mem_range.mp hi)

theorem read_add (m n : Nat) : b.read off (m + n) = b.read off m ++ b.read (off + m) n := by
  unfold read
  rw [List.range_add, List.map_append, List.map_map]
  congr 1
  apply List.map_congr_left
  intro i _
  rw [Function.comp_apply, Nat.add_assoc]

theorem read_one : b.read off 1 = [b off] := by
  simp [read]

theorem write_in {i : Nat} (h : off ≤ i) (h' : i < off + s.length) :
    b.write off s i = s.getD (i - off) 0 := if_pos ⟨h, h'⟩

theorem write_out {i : Nat} (h : i < off ∨ off + s.length ≤ i) : b.write off s i = b i := by
  apply if_neg
  omega

/-- What was written is read. -/
theorem read_write (b : Buffer) (off : Nat) (s : List Byte) :
    (b.write off s).read off s.length = s := by
  apply List.ext_getElem
  · simp
  · intro i h1 h2
    have hin : (b.write off s) (off + i) = s.getD i 0 := by
      rw [write_in (by omega) (by omega), Nat.add_sub_cancel_left]
    simp only [read, List.getElem_map, List.getElem_range, hin]
    simp [h2]

/-- What stands between two parts of what was written. -/
theorem read_write_middle (b : Buffer) (off : Nat) (p s t : List Byte) :
    (b.write off (p ++ s ++ t)).read (off + p.length) s.length = s := by
  have hread := read_write b off (p ++ s ++ t)
  rw [List.length_append, List.length_append, read_add, read_add] at hread
  have hfront := (List.append_inj hread (by simp)).1
  exact (List.append_inj hfront (by simp)).2

theorem read_write_of_le {m : Nat} (h : m + n ≤ off ∨ off + s.length ≤ m) :
    (b.write off s).read m n = b.read m n := by
  apply read_congr
  intro i hi
  apply write_out
  omega

theorem read_put_of_not {i : Nat} (h : i < off ∨ off + n ≤ i) (c : Byte) :
    (b.put i c).read off n = b.read off n := by
  apply read_congr
  intro j hj
  apply put_of_ne
  omega

/-- The string that stands before the first zero. -/
theorem cstr_eq {siz : Nat} (hread : b.read 0 s.length = s) (hend : b s.length = 0) (hz : 0 ∉ s)
    (hsiz : s.length < siz) : b.cstr siz = s := by
  obtain ⟨k, rfl⟩ := Nat.exists_eq_add_of_lt hsiz
  unfold cstr
  rw [Nat.add_assoc, read_add, hread, Nat.add_comm k 1, read_add, read_one, Nat.zero_add, hend,
    List.takeWhile_append_of_pos]
  · simp
  · intro c hc
    have hne : c ≠ 0 := by
      rintro rfl
      exact hz hc
    simpa using hne

end Buffer

/-! ## Hexadecimal digits -/

def X0123456789ABCDEF : List Byte := [48, 49, 50, 51, 52, 53, 54, 55, 56, 57, 65, 66, 67, 68, 69, 70]

def h2 (ich : Byte) : Byte × Byte :=
  (X0123456789ABCDEF.getD (0xF &&& ich >>> 4).toNat 0, X0123456789ABCDEF.getD (0xF &&& ich).toNat 0)

/-- The loop of `strtoHex`, from the last octet to the first, where `str` and `out` are one
buffer. -/
def hexLoop : Nat → Buffer → Buffer
  | 0, out => out
  | i + 1, out => hexLoop i ((out.put (2 * i) (h2 (out i)).1).put (2 * i + 1) (h2 (out i)).2)

/-- `strtoHex(out,len,out,siz)`: the result, and the buffer. -/
def strtoHex (len : Nat) (out : Buffer) (siz : Nat) : Nat × Buffer :=
  -- The length is cut to -1 here: no octet of the buffer is written.
  if siz < len * 2 ∧ siz < 2 then ((out.cstr siz).length, out)
  else
    let len := if siz < len * 2 then siz / 2 - 1 else len
    let out := out.put (2 * len) 0
    if siz ≤ 2 * len then (0, out.put 0 0)
    else
      let out := hexLoop len out
      ((out.cstr siz).length, out)

/-- `FromXD`. The comparisons of `char` are signed, but no octet above 0x7F is a digit. -/
def FromXD (xch : Byte) : Word :=
  if 48 ≤ xch ∧ xch ≤ 57 then xch.setWidth 32 - 48
  else if 65 ≤ xch ∧ xch ≤ 70 then xch.setWidth 32 - 65 + 10
  else if 97 ≤ xch ∧ xch ≤ 102 then xch.setWidth 32 - 97 + 10
  else -1

/-- The loop of `hextoStr`. -/
def hextoStr.loop (siz : Nat) : List Byte → Nat → Buffer → Nat × Buffer
  | hi :: lo :: hex, bx, bin =>
    if siz ≤ bx then (bx, bin)
    else
      let ch := (FromXD hi <<< 4) ||| FromXD lo
      if ch.slt 0 then (bx, bin) else loop siz hex (bx + 1) (bin.put bx (ch.setWidth 8))
  | _, bx, bin => (bx, bin)

/-- `hextoStr`: how many octets there are in `bin`, and `bin`. -/
def hextoStr (hex : List Byte) (bin : Buffer) (siz : Nat) : Nat × Buffer :=
  hextoStr.loop siz hex 0 bin

/-- The digits of a string. -/
def digits (s : List Byte) : List Byte := s.flatMap fun c => [(h2 c).1, (h2 c).2]

theorem length_digits (s : List Byte) : (digits s).length = 2 * s.length := by
  induction s with
  | nil => rfl
  | cons c s ih =>
    unfold digits at ih ⊢
    rw [List.flatMap_cons, List.length_append, ih]
    simp only [List.length_cons, List.length_nil]
    omega

/-- The digits of an octet are no terminators, and give it back. -/
theorem h2_spec (c : Byte) : (h2 c).1 ≠ 0 ∧ (h2 c).2 ≠ 0 ∧
    ((FromXD (h2 c).1 <<< 4) ||| FromXD (h2 c).2) = c.setWidth 32 := by
  revert c
  decide +kernel

theorem zero_not_mem_digits (s : List Byte) : 0 ∉ digits s := by
  intro h
  obtain ⟨c, -, hc⟩ := List.mem_flatMap.mp h
  obtain ⟨hhi, hlo, -⟩ := h2_spec c
  rcases List.mem_pair.mp hc with hzero | hzero
  · exact hhi hzero.symm
  · exact hlo hzero.symm

/-- An octet is read before the digits of the octets after it reach its place. -/
theorem hexLoop_spec (n : Nat) (out : Buffer) :
    (∀ i, i < n → hexLoop n out (2 * i) = (h2 (out i)).1 ∧
      hexLoop n out (2 * i + 1) = (h2 (out i)).2) ∧
    ∀ k, 2 * n ≤ k → hexLoop n out k = out k := by
  induction n generalizing out with
  | zero => exact ⟨fun i hi => absurd hi (Nat.not_lt_zero i), fun k _ => rfl⟩
  | succ n ih =>
    obtain ⟨hlow, hhigh⟩ := ih ((out.put (2 * n) (h2 (out n)).1).put (2 * n + 1) (h2 (out n)).2)
    rw [hexLoop]
    constructor
    · intro i hi
      rcases Nat.lt_succ_iff_lt_or_eq.mp hi with hlt | rfl
      · rw [(hlow i hlt).1, (hlow i hlt).2, Buffer.put_of_ne (by omega), Buffer.put_of_ne (by omega)]
        exact ⟨rfl, rfl⟩
      · rw [hhigh _ (le_refl _), hhigh _ (by omega), Buffer.put_of_ne (by omega), Buffer.put_self,
          Buffer.put_self]
        exact ⟨rfl, rfl⟩
    · intro k hk
      rw [hhigh k (by omega), Buffer.put_of_ne (by omega), Buffer.put_of_ne (by omega)]

theorem read_hexLoop (n : Nat) (out : Buffer) :
    (hexLoop n out).read 0 (2 * n) = digits (out.read 0 n) := by
  obtain ⟨hlow, -⟩ := hexLoop_spec n out
  generalize hexLoop n out = b at hlow
  induction n with
  | zero => rfl
  | succ n ih =>
    have hrest := ih fun i hi => hlow i (Nat.lt_succ_of_lt hi)
    obtain ⟨hhi, hlo⟩ := hlow n (Nat.lt_succ_self n)
    have htwo : 2 * (n + 1) = 2 * n + (1 + 1) := by omega
    rw [htwo, Buffer.read_add, Buffer.read_add 1 1, Buffer.read_one, Buffer.read_one, hrest,
      Buffer.read_add n 1, Buffer.read_one, Nat.zero_add, Nat.zero_add, hhi, hlo]
    unfold digits
    rw [List.flatMap_append]
    rfl

/-- The text that `strtoHex` leaves, if there is room for it. -/
theorem strtoHex_cstr {len siz : Nat} (out : Buffer) (h : 2 * len < siz) :
    (strtoHex len out siz).2.cstr siz = digits (out.read 0 len) := by
  have hlen : ¬siz < len * 2 := by omega
  have hcut : ¬(siz < len * 2 ∧ siz < 2) := by omega
  have hroom : ¬siz ≤ 2 * len := by omega
  unfold strtoHex
  dsimp only
  rw [if_neg hcut, if_neg hlen, if_neg hroom]
  dsimp only
  have hread : ∀ s : List Byte, (out.put (2 * len) 0).read 0 len = s → out.read 0 len = s := by
    rintro s rfl
    by_cases hz : len = 0
    · subst hz
      rfl
    · exact (Buffer.read_put_of_not (by omega) 0).symm
  rw [hread _ rfl]
  have hsize : (digits ((out.put (2 * len) 0).read 0 len)).length = 2 * len := by
    rw [length_digits, Buffer.length_read]
  apply Buffer.cstr_eq
  · rw [hsize]
    exact read_hexLoop len _
  · rw [hsize, (hexLoop_spec len _).2 _ (le_refl _), Buffer.put_self]
  · exact zero_not_mem_digits _
  · rwa [hsize]

theorem write_put (b : Buffer) (off : Nat) (c : Byte) (s : List Byte) :
    (b.put off c).write (off + 1) s = b.write off (c :: s) := by
  funext i
  by_cases hlt : i < off
  · rw [Buffer.write_out (.inl (by omega)), Buffer.put_of_ne (by omega),
      Buffer.write_out (.inl hlt)]
  by_cases heq : i = off
  · rw [Buffer.write_out (.inl (by omega)), heq, Buffer.put_self,
      Buffer.write_in (le_refl off) (by simp)]
    simp
  by_cases hin : i < off + 1 + s.length
  · rw [Buffer.write_in (by omega) hin, Buffer.write_in (by omega) (by rw [List.length_cons]; omega)]
    obtain ⟨k, rfl⟩ := Nat.exists_eq_add_of_lt (by omega : off < i)
    have h1 : off + k + 1 - (off + 1) = k := by omega
    have h2 : off + k + 1 - off = k + 1 := by omega
    rw [h1, h2, List.getD_cons_succ]
  · rw [Buffer.write_out (.inr (by omega)), Buffer.put_of_ne heq,
      Buffer.write_out (.inr (by rw [List.length_cons]; omega))]

theorem hextoStr_loop_digits (siz : Nat) (s : List Byte) (bx : Nat) (bin : Buffer)
    (h : bx + s.length ≤ siz) :
    hextoStr.loop siz (digits s) bx bin = (bx + s.length, bin.write bx s) := by
  induction s generalizing bx bin with
  | nil =>
    have hnone : bin.write bx [] = bin := by
      funext i
      exact Buffer.write_out (by simp; omega)
    rw [hnone]
    rfl
  | cons c s ih =>
    rw [List.length_cons] at h ⊢
    obtain ⟨-, -, hval⟩ := h2_spec c
    have hpos : (c.setWidth 32 : Word).slt 0 = false := by
      revert c
      decide +kernel
    have hsame : ((c.setWidth 32 : Word).setWidth 8 : Byte) = c := by
      revert c
      decide +kernel
    have hcons : digits (c :: s) = (h2 c).1 :: (h2 c).2 :: digits s := rfl
    rw [hcons, hextoStr.loop, if_neg (by omega), hval]
    dsimp only
    rw [hpos, if_neg (by decide), hsame, ih (bx + 1) (bin.put bx c) (by omega), write_put]
    congr 1
    omega

/-! ## Strings to text and back -/

section
variable (CRC8a : Option (Byte → Byte → Byte))

/-- `CredhyAencrypt`: the result, `enc`, and the context. -/
def CredhyAencrypt (K : Credhy) (src : List Byte) (enc : Buffer) (esiz : Nat) :
    Nat × Buffer × Credhy :=
  let len := src.length
  let enc := enc.write 2 src
  let plen := 16 - (2 + len) % 16
  let enc := enc.put 1 (BitVec.ofNat 8 plen)
  let enc := (List.range plen).foldl (fun enc i => enc.put (2 + len + i) 0) enc
  let enc := enc.put 0 ((strCRC8 0 (enc.read 2 len)).setWidth 8)
  let (octs, K) := CredhyEncryptIn CRC8a K (enc.read 0 (2 + len + plen))
  let (xlen, enc) := strtoHex (2 + len + plen) (enc.write 0 octs) esiz
  (xlen, enc, K)

/-- `CredhyAdecrypt`: the result, `dec`, and the context. -/
def CredhyAdecrypt (K : Credhy) (enc : List Byte) (dec : Buffer) (dsiz : Nat) :
    Int × Buffer × Credhy :=
  let (xlen, dec) := hextoStr enc dec dsiz
  let (octs, K) := CredhyDecryptIn CRC8a K (dec.read 0 xlen)
  let dec := dec.write 0 octs
  let xcrc := (dec 0).setWidth 32
  let plen := (dec 1).toNat
  let len : Int := xlen - 2 - plen
  if len < 0 ∨ dsiz < len then (-1, dec.put 0 0, K)
  else
    let dec := dec.write 0 (dec.read 2 len.toNat)
    if strCRC8 0 (dec.read 0 len.toNat) ≠ xcrc then (-1, dec.put 0 0, K)
    else (len, dec.put len.toNat 0, K)

/-- The octets before they are encrypted: the checksum, the length of the padding, the string
and the padding. -/
def padded (src : List Byte) : List Byte :=
  (strCRC8 0 src).setWidth 8 :: BitVec.ofNat 8 (16 - (2 + src.length) % 16) ::
    (src ++ List.replicate (16 - (2 + src.length) % 16) 0)

theorem length_padded (src : List Byte) :
    (padded src).length = 2 + src.length + (16 - (2 + src.length) % 16) := by
  simp only [padded, List.length_cons, List.length_append, List.length_replicate]
  omega

theorem pad_loop (enc : Buffer) (off plen : Nat) :
    (List.range plen).foldl (fun enc i => enc.put (off + i) 0) enc =
      enc.write off (List.replicate plen 0) := by
  induction plen with
  | zero =>
    funext i
    exact (Buffer.write_out (by simp; omega)).symm
  | succ n ih =>
    rw [List.range_succ, List.foldl_append, ih]
    funext i
    change ((enc.write off (List.replicate n 0)).put (off + n) 0) i = _
    by_cases heq : i = off + n
    · rw [heq, Buffer.put_self, Buffer.write_in (by omega) (by simp)]
      simp
    rw [Buffer.put_of_ne heq]
    by_cases hin : off ≤ i ∧ i < off + n
    · rw [Buffer.write_in hin.1 (by simpa using hin.2), Buffer.write_in hin.1 (by simp; omega)]
      simp
    · rw [Buffer.write_out (by simp; omega), Buffer.write_out (by simp; omega)]

/-- The buffer before the encryption. -/
theorem read_padded (src : List Byte) (enc : Buffer) (plen : Nat)
    (hplen : plen = 16 - (2 + src.length) % 16) :
    let enc1 := (List.range plen).foldl (fun enc i => enc.put (2 + src.length + i) 0)
      ((enc.write 2 src).put 1 (BitVec.ofNat 8 plen))
    (enc1.put 0 ((strCRC8 0 (enc1.read 2 src.length)).setWidth 8)).read 0 (2 + src.length + plen) =
      padded src := by
  dsimp only
  rw [pad_loop]
  generalize henc : ((enc.write 2 src).put 1 (BitVec.ofNat 8 plen)).write (2 + src.length)
    (List.replicate plen 0) = enc1
  have hsrc : enc1.read 2 src.length = src := by
    rw [← henc, Buffer.read_write_of_le (.inl (le_refl _)), Buffer.read_put_of_not (by omega),
      Buffer.read_write]
  have hpad : enc1.read (2 + src.length) plen = List.replicate plen 0 := by
    have hread := Buffer.read_write ((enc.write 2 src).put 1 (BitVec.ofNat 8 plen))
      (2 + src.length) (List.replicate plen 0)
    rwa [henc, List.length_replicate] at hread
  have hone : enc1 1 = BitVec.ofNat 8 plen := by
    rw [← henc, Buffer.write_out (by omega), Buffer.put_self]
  rw [hsrc, padded, ← hplen]
  generalize ((strCRC8 0 src).setWidth 8 : Byte) = crc
  have hsrc0 : (enc1.put 0 crc).read 2 src.length = src := by
    rw [Buffer.read_put_of_not (by omega), hsrc]
  have hpad0 : (enc1.put 0 crc).read (2 + src.length) plen = List.replicate plen 0 := by
    rw [Buffer.read_put_of_not (by omega), hpad]
  have hhead : (enc1.put 0 crc).read 0 2 = [crc, BitVec.ofNat 8 plen] := by
    rw [Buffer.read_add 1 1, Buffer.read_one, Buffer.read_one, Buffer.put_self,
      Buffer.put_of_ne (by omega), hone]
    rfl
  rw [Buffer.read_add, Buffer.read_add, Nat.zero_add, hhead, Nat.zero_add, hsrc0, hpad0]
  rfl

/-- The text of the octets in hexadecimal. -/
theorem CredhyAencrypt_cstr (K : Credhy) (src : List Byte) (enc : Buffer) (esiz : Nat)
    (hroom : 2 * (padded src).length < esiz) :
    (CredhyAencrypt CRC8a K src enc esiz).2.1.cstr esiz =
        digits (CredhyEncryptIn CRC8a K (padded src)).1 ∧
      (CredhyAencrypt CRC8a K src enc esiz).2.2 = (CredhyEncryptIn CRC8a K (padded src)).2 := by
  have hread := read_padded src enc _ rfl
  unfold CredhyAencrypt
  dsimp only at hread ⊢
  rw [hread]
  rw [length_padded] at hroom
  refine ⟨?_, rfl⟩
  rw [strtoHex_cstr _ hroom]
  congr 1
  rw [← length_padded, ← length_CredhyEncryptIn CRC8a K (padded src), Buffer.read_write]

/-- The checksum of a string is an octet. -/
theorem strCRC8_octet (src : List Byte) :
    (((strCRC8 0 src).setWidth 8 : Byte).setWidth 32 : Word) = strCRC8 0 src := by
  have hlt := strCRC8_lt 0 src (by decide)
  apply BitVec.eq_of_toNat_eq
  simp only [BitVec.toNat_setWidth]
  omega

/-- The string comes back from the text, with its length and the context of the other side. -/
theorem CredhyAdecrypt_digits (K : Credhy) (src : List Byte) (hz : 0 ∉ src) (dec : Buffer)
    (dsiz : Nat) (hroom : (padded src).length ≤ dsiz) :
    let r := CredhyAdecrypt CRC8a K (digits (CredhyEncryptIn CRC8a K (padded src)).1) dec dsiz
    r.1 = src.length ∧ r.2.1.cstr dsiz = src ∧
      r.2.2 = (CredhyEncryptIn CRC8a K (padded src)).2 := by
  have hlen := length_CredhyEncryptIn CRC8a K (padded src)
  have hhex : hextoStr (digits (CredhyEncryptIn CRC8a K (padded src)).1) dec dsiz =
      ((padded src).length, dec.write 0 (CredhyEncryptIn CRC8a K (padded src)).1) := by
    have hloop := hextoStr_loop_digits dsiz (CredhyEncryptIn CRC8a K (padded src)).1 0 dec
      (by omega)
    rwa [hlen, Nat.zero_add] at hloop
  have hocts : (dec.write 0 (CredhyEncryptIn CRC8a K (padded src)).1).read 0 (padded src).length =
      (CredhyEncryptIn CRC8a K (padded src)).1 := by
    have hread := Buffer.read_write dec 0 (CredhyEncryptIn CRC8a K (padded src)).1
    rwa [hlen] at hread
  dsimp only
  unfold CredhyAdecrypt
  rw [hhex]
  dsimp only
  rw [hocts, CredhyDecryptIn_inverts]
  dsimp only
  generalize dec.write 0 (CredhyEncryptIn CRC8a K (padded src)).1 = dec1
  have hlong := length_padded src
  have hcrc : dec1.write 0 (padded src) 0 = (strCRC8 0 src).setWidth 8 := by
    rw [Buffer.write_in (le_refl 0) (by omega)]
    rfl
  have hplen : (dec1.write 0 (padded src) 1).toNat = 16 - (2 + src.length) % 16 := by
    rw [Buffer.write_in (Nat.zero_le 1) (by omega)]
    change (BitVec.ofNat 8 (16 - (2 + src.length) % 16)).toNat = _
    rw [BitVec.toNat_ofNat]
    omega
  have hsrc : (dec1.write 0 (padded src)).read 2 src.length = src := by
    exact Buffer.read_write_middle dec1 0 [_, _] src _
  have hlenInt : ((padded src).length : Int) - 2 - ((16 - (2 + src.length) % 16 : Nat) : Int) =
      src.length := by omega
  have hfits : ¬((src.length : Int) < 0 ∨ (dsiz : Int) < src.length) := by omega
  rw [hcrc, hplen, hlenInt, if_neg hfits, Int.toNat_natCast, hsrc, strCRC8_octet,
    Buffer.read_write, if_neg (not_not.mpr rfl)]
  refine ⟨rfl, ?_, rfl⟩
  apply Buffer.cstr_eq
  · rw [Buffer.read_put_of_not (by omega), Buffer.read_write]
  · exact Buffer.put_self _ _ _
  · exact hz
  · omega

/-! ## Sequences of strings -/

/-- A string without terminators, with the buffers of both sides. The text and its terminator
fit into `enc`, and the octets of the text into `dec`. -/
structure Message where
  src : List Byte
  noNul : 0 ∉ src
  enc : Buffer
  esiz : Nat
  dec : Buffer
  dsiz : Nat
  encRoom : 2 * (padded src).length < esiz
  decRoom : (padded src).length ≤ dsiz

/-- The texts of the strings, one after the other. -/
def aencrypted : Credhy → List Message → List (List Byte) × Credhy
  | K, [] => ([], K)
  | K, m :: ms =>
    let (_, enc, K) := CredhyAencrypt CRC8a K m.src m.enc m.esiz
    let rest := aencrypted K ms
    (enc.cstr m.esiz :: rest.1, rest.2)

/-- The results and the strings of the texts, one after the other. -/
def adecrypted : Credhy → List (List Byte × Buffer × Nat) → List (Int × List Byte) × Credhy
  | K, [] => ([], K)
  | K, (text, dec, dsiz) :: texts =>
    let (len, dec, K) := CredhyAdecrypt CRC8a K text dec dsiz
    let rest := adecrypted K texts
    ((len, dec.cstr dsiz) :: rest.1, rest.2)

/-- After each string both sides are in one context. -/
theorem adecrypted_aencrypted (K : Credhy) (ms : List Message) :
    adecrypted CRC8a K ((aencrypted CRC8a K ms).1.zip (ms.map fun m => (m.dec, m.dsiz))) =
      (ms.map fun m => ((m.src.length : Int), m.src), (aencrypted CRC8a K ms).2) := by
  induction ms generalizing K with
  | nil => rfl
  | cons m ms ih =>
    obtain ⟨htext, hcontext⟩ := CredhyAencrypt_cstr CRC8a K m.src m.enc m.esiz m.encRoom
    obtain ⟨hlen, hstr, hnext⟩ := CredhyAdecrypt_digits CRC8a K m.src m.noNul m.dec m.dsiz m.decRoom
    rw [aencrypted, List.map_cons, List.zip_cons_cons, adecrypted]
    dsimp only
    rw [htext, hlen, hstr, hnext, hcontext, ih]
    rfl

end

/-- The encryptors of strings are undone: `CreyDecryptsX` restores the string and finds the
same checksum, and `CredhyAdecrypt` gives back each string of a sequence, and its length. -/
theorem string_encryptors_invert (CRC8a : Option (Byte → Byte → Byte))
    (MD5 : List Byte → Vector Byte 16) :
    (∀ (opts : Word) (key str : List Byte),
      CreyDecryptsX CRC8a MD5 opts key (CreyEncryptsX CRC8a MD5 opts key str).2 =
        ((CreyEncryptsX CRC8a MD5 opts key str).1, str)) ∧
    ∀ (K : Credhy) (ms : List Message),
      (adecrypted CRC8a K ((aencrypted CRC8a K ms).1.zip (ms.map fun m => (m.dec, m.dsiz)))).1 =
        ms.map fun m => ((m.src.length : Int), m.src) := by
  refine ⟨CreyDecryptsX_inverts CRC8a MD5, ?_⟩
  intro K ms
  rw [adecrypted_aencrypted]

/-- A string that is padded to one block, in buffers without room to spare. -/
def hello : Message :=
  ⟨[104, 101, 108, 108, 111], by decide, fun _ => 0, 33, fun _ => 0, 16, by decide, by decide⟩

/-- A string that fills a block with its two octets before it, so that a whole one is added. -/
def block : Message :=
  ⟨[98, 108, 111, 99, 107, 32, 111, 102, 32, 98, 121, 116, 101, 115], by decide, fun _ => 255, 65,
    fun _ => 255, 32, by decide, by decide⟩

/-- The context of both sides, with a key of three octets. -/
def keyed : Credhy := { (CredhyInit 0).2 with k_str := [3, 1, 4], k_leng := 3 }

theorem string_encryptors_invert_two :
    (adecrypted none keyed ((aencrypted none keyed [hello, block]).1.zip
      [(fun _ => 0, 16), (fun _ => 255, 32)])).1 = [(5, hello.src), (14, block.src)] :=
  (string_encryptors_invert none fun _ => Vector.replicate 16 0).2 keyed [hello, block]

end delegate.credhy
