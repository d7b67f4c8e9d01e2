-- The stream cipher of credhy.cpp. A call adds the CRC of what went before in one
-- pass and the key in another one. Taken octet by octet, both sides go through the
-- same states, however the stream is cut.
import Delegate.Credhy

namespace delegate.credhy

/-! ## The pure model -/

def CR_AKFIRST : Word := 1

def CR_CRC32 : Word := 2

/-- The loop of `CRC8f`, where `char` is signed. -/
def crc8fBits : Nat → Byte → Byte → Byte
  | 0, crc, _ => crc
  | n + 1, crc, oct =>
      let ovf := (crc ^^^ oct) &&& 1
      let crc := crc.sshiftRight 1
      let oct := oct.sshiftRight 1
      crc8fBits n (if ovf ≠ 0 then crc ^^^ 0x8C else crc) oct

/-- `CRC8f`. -/
def CRC8f (crc oct : Byte) : Word := (crc8fBits 8 crc oct).signExtend 32

/-- `CRC8`, from the table if there is one. -/
def CRC8 (CRC8a : Option (Byte → Byte → Byte)) (crc : Word) (ch : Byte) : Word :=
  match CRC8a with
  | some c_crc => (c_crc (crc.setWidth 8) ch).setWidth 32
  | none => CRC8f (crc.setWidth 8) ch

/-- The bits of an octet in `strCRC32add`. -/
def crc32Bits : Nat → Word → Byte → Word
  | 0, crc, _ => crc
  | n + 1, crc, oct =>
      let ovf := xor (crc &&& 0x80000000 != 0) (oct &&& 0x80 != 0)
      let oct := oct <<< 1
      let crc := crc <<< 1
      crc32Bits n (if ovf then crc ^^^ 0x04C11DB7 else crc) oct

/-- `strCRC32add`. -/
def strCRC32add (crc : Word) (str : List Byte) : Word :=
  str.foldl (fun crc oct => crc32Bits 8 crc oct) crc

/-- The loop of `CredhyAddkey`: the octets and the next index. -/
def addkeyLoop (op : Int) (kp : List Byte) (kl : Nat) : List Byte → Nat → List Byte × Nat
  | [], kx => ([], kx)
  | s :: ss, kx =>
      let k := kp.getD kx 0
      let s' := if op = 0 then s ^^^ k else if op = 1 then s + k else if op = -1 then s - k else s
      let r := addkeyLoop op kp kl ss (if kl ≤ kx + 1 then 0 else kx + 1)
      (s' :: r.1, r.2)

/-- `CredhyAddkey`. -/
def CredhyAddkey (K : Credhy) (op : Int) (str : List Byte) : List Byte × Credhy :=
  let r := addkeyLoop op K.k_str K.k_leng str K.k_idx
  (r.1, { K with k_idx := r.2 })

section
variable (CRC8a : Option (Byte → Byte → Byte))

/-- The CRC after an octet. -/
def nextCrc (k_flags crc8 : Word) (ch : Byte) : Word :=
  if k_flags &&& CR_CRC32 ≠ 0 then strCRC32add crc8 [ch] else CRC8 CRC8a crc8 ch

/-- The loop of `CredhyEncrypt`. -/
def encLoop (k_flags : Word) : List Byte → Word → List Byte × Word
  | [], crc8 => ([], crc8)
  | ch :: src, crc8 =>
      let r := encLoop k_flags src (nextCrc CRC8a k_flags crc8 ch)
      ((ch ^^^ crc8.setWidth 8) :: r.1, r.2)

/-- The loop of `CredhyDecrypt`. -/
def decLoop (k_flags : Word) : List Byte → Word → List Byte × Word
  | [], crc8 => ([], crc8)
  | b :: enc, crc8 =>
      let ch := b ^^^ crc8.setWidth 8
      let r := decLoop k_flags enc (nextCrc CRC8a k_flags crc8 ch)
      (ch :: r.1, r.2)

/-- `CredhyEncrypt`. -/
def CredhyEncrypt (K : Credhy) (src : List Byte) : List Byte × Credhy :=
  -- What this adds to `enc` is overwritten by the loop, only the index stays.
  let K := if K.k_flags &&& CR_AKFIRST ≠ 0 then (CredhyAddkey K 0 src).2 else K
  let (enc, crc8) := encLoop CRC8a K.k_flags src K.k_crc8
  let K := { K with k_crc8 := crc8 }
  if K.k_flags &&& CR_AKFIRST = 0 then CredhyAddkey K 0 enc else (enc, K)

/-- `CredhyDecrypt`. -/
def CredhyDecrypt (K : Credhy) (enc : List Byte) : List Byte × Credhy :=
  let (enc, K) := if K.k_flags &&& CR_AKFIRST = 0 then CredhyAddkey K 0 enc else (enc, K)
  let (src, crc8) := decLoop CRC8a K.k_flags enc K.k_crc8
  let K := { K with k_crc8 := crc8 }
  (src, if K.k_flags &&& CR_AKFIRST ≠ 0 then (CredhyAddkey K 0 enc).2 else K)

/-- The chunks go through the cipher one after the other. -/
def chunked (crypt : Credhy → List Byte → List Byte × Credhy) :
    Credhy → List (List Byte) → List Byte × Credhy
  | K, [] => ([], K)
  | K, c :: cs =>
      let r := crypt K c
      let rest := chunked crypt r.2 cs
      (r.1 ++ rest.1, rest.2)

/-! ## Octet by octet -/

/-- The cipher on one octet, with both passes. -/
def encOctet (K : Credhy) (ch : Byte) : Byte × Credhy :=
  (ch ^^^ K.k_crc8.setWidth 8 ^^^ K.k_str.getD K.k_idx 0,
    { K with
      k_crc8 := nextCrc CRC8a K.k_flags K.k_crc8 ch
      k_idx := if K.k_leng ≤ K.k_idx + 1 then 0 else K.k_idx + 1 })

def decOctet (K : Credhy) (b : Byte) : Byte × Credhy :=
  let ch := b ^^^ K.k_str.getD K.k_idx 0 ^^^ K.k_crc8.setWidth 8
  (ch,
    { K with
      k_crc8 := nextCrc CRC8a K.k_flags K.k_crc8 ch
      k_idx := if K.k_leng ≤ K.k_idx + 1 then 0 else K.k_idx + 1 })

/-- The octets go through the cipher one after the other. -/
def octetwise (crypt : Credhy → Byte → Byte × Credhy) : Credhy → List Byte → List Byte × Credhy
  | K, [] => ([], K)
  | K, b :: bs =>
      let r := crypt K b
      let rest := octetwise crypt r.2 bs
      (r.1 :: rest.1, rest.2)

theorem octetwise_cons (crypt : Credhy → Byte → Byte × Credhy) (K : Credhy) (b : Byte)
    (s : List Byte) :
    octetwise crypt K (b :: s) =
      ((crypt K b).1 :: (octetwise crypt (crypt K b).2 s).1, (octetwise crypt (crypt K b).2 s).2) :=
  rfl

theorem octetwise_append (crypt : Credhy → Byte → Byte × Credhy) (K : Credhy) (s t : List Byte) :
    octetwise crypt K (s ++ t) =
      ((octetwise crypt K s).1 ++ (octetwise crypt (octetwise crypt K s).2 t).1,
        (octetwise crypt (octetwise crypt K s).2 t).2) := by
  induction s generalizing K with
  | nil => rfl
  | cons b s ih => simp [octetwise, ih]

theorem CredhyEncrypt_octetwise {K : Credhy} (h : K.k_flags &&& CR_AKFIRST = 0) (src : List Byte) :
    CredhyEncrypt CRC8a K src = octetwise (encOctet CRC8a) K src := by
  induction src generalizing K with
  | nil => simp [CredhyEncrypt, octetwise, encLoop, CredhyAddkey, addkeyLoop, h]
  | cons ch src ih =>
    have hrest := @ih (encOctet CRC8a K ch).2 h
    rw [octetwise_cons, ← hrest]
    simp [CredhyEncrypt, encOctet, encLoop, CredhyAddkey, addkeyLoop, h]

theorem CredhyDecrypt_octetwise {K : Credhy} (h : K.k_flags &&& CR_AKFIRST = 0) (enc : List Byte) :
    CredhyDecrypt CRC8a K enc = octetwise (decOctet CRC8a) K enc := by
  induction enc generalizing K with
  | nil => simp [CredhyDecrypt, octetwise, decLoop, CredhyAddkey, addkeyLoop, h]
  | cons b enc ih =>
    have hrest := @ih (decOctet CRC8a K b).2 h
    rw [octetwise_cons, ← hrest]
    simp [CredhyDecrypt, decOctet, decLoop, CredhyAddkey, addkeyLoop, h]

theorem octetwise_flags {crypt : Credhy → Byte → Byte × Credhy}
    (hcrypt : ∀ K b, (crypt K b).2.k_flags = K.k_flags) (K : Credhy) (s : List Byte) :
    (octetwise crypt K s).2.k_flags = K.k_flags := by
  induction s generalizing K with
  | nil => rfl
  | cons b s ih =>
    rw [octetwise_cons]
    dsimp only
    rw [ih, hcrypt]

/-- The cuts between the chunks do not matter. -/
theorem chunked_eq_octetwise {crypt : Credhy → List Byte → List Byte × Credhy}
    {octet : Credhy → Byte → Byte × Credhy}
    (hcrypt : ∀ K, K.k_flags &&& CR_AKFIRST = 0 → ∀ s, crypt K s = octetwise octet K s)
    (hoctet : ∀ K b, (octet K b).2.k_flags = K.k_flags) {K : Credhy}
    (h : K.k_flags &&& CR_AKFIRST = 0) (cs : List (List Byte)) :
    chunked crypt K cs = octetwise octet K cs.flatten := by
  induction cs generalizing K with
  | nil => rfl
  | cons c cs ih =>
    have hnext : (octetwise octet K c).2.k_flags &&& CR_AKFIRST = 0 := by
      rw [octetwise_flags hoctet]
      exact h
    unfold chunked
    dsimp only
    rw [hcrypt K h, ih hnext, List.flatten_cons, octetwise_append]

/-- After each octet both sides are in one state. -/
theorem decOctet_encOctet (K : Credhy) (ch : Byte) :
    decOctet CRC8a K (encOctet CRC8a K ch).1 = (ch, (encOctet CRC8a K ch).2) := by
  unfold decOctet encOctet
  have hback : ch ^^^ K.k_crc8.setWidth 8 ^^^ K.k_str.getD K.k_idx 0 ^^^ K.k_str.getD K.k_idx 0 ^^^
      K.k_crc8.setWidth 8 = ch := by
    rw [BitVec.xor_assoc (ch ^^^ _), BitVec.xor_self, BitVec.xor_zero, BitVec.xor_assoc,
      BitVec.xor_self, BitVec.xor_zero]
  dsimp only
  rw [hback]

theorem octetwise_inverts (K : Credhy) (src : List Byte) :
    octetwise (decOctet CRC8a) K (octetwise (encOctet CRC8a) K src).1 =
      (src, (octetwise (encOctet CRC8a) K src).2) := by
  induction src generalizing K with
  | nil => rfl
  | cons ch src ih =>
    rw [octetwise_cons (encOctet CRC8a)]
    dsimp only
    rw [octetwise_cons, decOctet_encOctet]
    dsimp only
    rw [ih]

/-- The stream comes back however it is cut, and both contexts end equal. -/
theorem decrypt_inverts (K : Credhy) (h : K.k_flags &&& CR_AKFIRST = 0)
    (chunks cs : List (List Byte))
    (hcut : cs.flatten = (chunked (CredhyEncrypt CRC8a) K chunks).1) :
    (chunked (CredhyDecrypt CRC8a) K cs).1 = chunks.flatten ∧
      (chunked (CredhyDecrypt CRC8a) K cs).2 = (chunked (CredhyEncrypt CRC8a) K chunks).2 := by
  have henc := chunked_eq_octetwise (fun K h => CredhyEncrypt_octetwise CRC8a h)
    (fun K b => rfl) h chunks
  have hdec := chunked_eq_octetwise (fun K h => CredhyDecrypt_octetwise CRC8a h)
    (fun K b => rfl) h cs
  rw [henc] at hcut ⊢
  rw [hdec, hcut, octetwise_inverts]
  exact ⟨rfl, rfl⟩

end

/-- A context with a key of two octets. -/
def shortKey : Credhy := { side (fun _ => 1) with k_str := [5, 200], k_leng := 2, k_crc8 := 9 }

/-- Three octets as two and one, taken as one and two. -/
theorem decrypt_inverts_three :
    (chunked (CredhyDecrypt none) shortKey [[77], [188, 123]]).1 = [65, 0, 255] ∧
      (chunked (CredhyDecrypt none) shortKey [[77], [188, 123]]).2 =
        (chunked (CredhyEncrypt none) shortKey [[65, 0], [255]]).2 :=
  decrypt_inverts none shortKey (by decide) [[65, 0], [255]] [[77], [188, 123]] (by decide)

end delegate.credhy
