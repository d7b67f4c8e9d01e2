-- Addresses (vaddr.h, vaddr.cpp, and the address texts of inets.cpp): four
-- words of 32 bits, with an IPv4 address in the last word, and the masks
-- that a host list lays over them.
import Delegate.CText

open ctext

namespace delegate.vaddr

/-- The words `a_ints` of an address, in host byte order. -/
structure Addr where
  I0 : BitVec 32
  I1 : BitVec 32
  I2 : BitVec 32
  I3 : BitVec 32
deriving DecidableEq, Repr

def AddrZero : Addr := ⟨0, 0, 0, 0⟩

def AddrNull : Addr := ⟨0xFFFFFFFF, 0xFFFFFFFF, 0xFFFFFFFF, 0xFFFFFFFF⟩

def MaskZero : Addr := ⟨0xFFFFFFFF, 0xFFFFFFFF, 0xFFFFFFFF, 0⟩

/-- The mask is set by the class of the address. -/
def CLASS_MASK : BitVec 32 := 0

/-- The mask is found by heuristics. -/
def HEURISTIC_MASK : BitVec 32 := 1

def AddrAND (a b : Addr) : Addr := ⟨a.I0 &&& b.I0, a.I1 &&& b.I1, a.I2 &&& b.I2, a.I3 &&& b.I3⟩

def AddrInvalid (a : Addr) : Bool := a == AddrZero || a == AddrNull

def isV6 (a : Addr) : Bool := a.I0 != 0 || a.I1 != 0 || a.I2 != 0

/-- The address of an IPv4 word. -/
def ofV4 (w : BitVec 32) : Addr := ⟨0, 0, 0, w⟩

@[simp] theorem AddrAND_null (a : Addr) : AddrAND a AddrNull = a := by
  have h : ∀ x : BitVec 32, x &&& 0xFFFFFFFF = x := fun x => BitVec.and_allOnes
  simp only [AddrAND, AddrNull, h]

@[simp] theorem null_AddrAND (a : Addr) : AddrAND AddrNull a = a := by
  have h : ∀ x : BitVec 32, 0xFFFFFFFF &&& x = x := fun x => BitVec.allOnes_and
  simp only [AddrAND, AddrNull, h]

@[simp] theorem AddrAND_zero (a : Addr) : AddrAND a AddrZero = AddrZero := by
  simp [AddrAND, AddrZero]

/-- A socket address as the matching reads it: the flags of the
resolution, the port, the words, and the name. -/
structure VAddr where
  a_flags : BitVec 8
  a_port : BitVec 16
  a_ints : Addr
  a_name : Text
deriving DecidableEq, Repr

def VA_REMOTE : BitVec 8 := 0x01
def VA_RSLVINVOK : BitVec 8 := 0x20
def VA_RSLVERR : BitVec 8 := 0x40
def VA_RSLVINVERR : BitVec 8 := 0x80
def VA_RSLVED : BitVec 8 := 0xF0

/-- A flag of the set `f` is on. -/
def VAddr.has (v : VAddr) (f : BitVec 8) : Bool := v.a_flags &&& f != 0

/-! ## The default mask -/

def PRIVATEC : BitVec 32 := 0xC0A80000
def PRIVATEBL : BitVec 32 := 0xAC100000
def PRIVATEBH : BitVec 32 := 0xAC1F0000
def PRIVATEA : BitVec 32 := 0x0A000000

/-- The mask of the class of an IPv4 word. -/
def classMask (w : BitVec 32) : BitVec 32 :=
  if (w >>> 24).toNat < 128 then 0xFF000000
  else if (w >>> 24).toNat < 192 then 0xFFFF0000
  else 0xFFFFFF00

/-- The mask after `default_netmask(Mask,Vaddr)`: a class mask or a
heuristic mask takes its value from the address. -/
def default_netmask (mask addr : Addr) : Addr :=
  if isV6 addr then
    if mask.I3 = HEURISTIC_MASK then { mask with I2 := 0, I3 := 0 } else mask
  else if mask.I3 ≠ CLASS_MASK ∧ mask.I3 ≠ HEURISTIC_MASK then mask
  else
    let mask1 := classMask addr.I3
    let net := addr.I3 &&& mask1
    let isPrivate := net = PRIVATEC ∨ (PRIVATEBL ≤ net ∧ net ≤ PRIVATEBH) ∨ net = PRIVATEA
    if mask.I3 = HEURISTIC_MASK ∧ ¬ isPrivate ∧ (addr.I3 >>> 24).toNat < 128 then
      { MaskZero with I3 := 0xFFFFFF00 }
    else { MaskZero with I3 := mask1 }

/-- A mask that is neither of the two special ones stays as it is over an
IPv4 address. -/
theorem default_netmask_of_plain {mask addr : Addr} (h4 : isV6 addr = false)
    (h0 : mask.I3 ≠ CLASS_MASK) (h1 : mask.I3 ≠ HEURISTIC_MASK) :
    default_netmask mask addr = mask := by
  simp [default_netmask, h4, h0, h1]

/-! ## Address texts -/

/-- One part of the numbers-and-dots notation: decimal, octal after `0`,
hexadecimal after `0x`. -/
def inetPart : Text → Option Nat
  | [] => none
  | '0' :: [] => some 0
  | '0' :: x :: ds =>
    if x = 'x' ∨ x = 'X' then
      if ds ≠ [] ∧ ds.all isxdigit then some (ds.foldl (fun n c => n * 16 + hexVal c) 0) else none
    else if (x :: ds).all (fun c => '0' ≤ c && c ≤ '7') then
      some (Nat.ofDigitChars 8 (x :: ds) 0)
    else none
  | d => if d.all Char.isDigit then some (Nat.ofDigitChars 10 d 0) else none

/-- The parts between the dots. -/
def dotParts (s : Text) : List Text := s.splitOn '.'

/-- The word of one to four parts. The last part fills the bytes that
the parts before it leave. -/
def inetWord : List Nat → Option (BitVec 32)
  | [a] => if a < 2 ^ 32 then some (BitVec.ofNat 32 a) else none
  | [a, b] => if a < 2 ^ 8 ∧ b < 2 ^ 24 then some (BitVec.ofNat 32 (a * 2 ^ 24 + b)) else none
  | [a, b, c] =>
    if a < 2 ^ 8 ∧ b < 2 ^ 8 ∧ c < 2 ^ 16 then
      some (BitVec.ofNat 32 (a * 2 ^ 24 + b * 2 ^ 16 + c))
    else none
  | [a, b, c, d] =>
    if a < 2 ^ 8 ∧ b < 2 ^ 8 ∧ c < 2 ^ 8 ∧ d < 2 ^ 8 then
      some (BitVec.ofNat 32 (a * 2 ^ 24 + b * 2 ^ 16 + c * 2 ^ 8 + d))
    else none
  | _ => none

/-- `inet_aton`: the word of a text in numbers-and-dots notation. A blank
ends the text. -/
def inet_aton (s : Text) : Option (BitVec 32) :=
  ((dotParts (s.takeWhile (fun c => !isspace c))).mapM inetPart).bind inetWord

/-- `inet_addr`, with the error value `-1` as `none`: it is also the value
of `255.255.255.255`. -/
def inet_addrV4 (s : Text) : Option (BitVec 32) :=
  (inet_aton s).filter (· ≠ 0xFFFFFFFF)

/-- `VA_strtoVAddr`, where `pton6` reads an IPv6 text: the words of the
address, and `none` where the function answers 0. -/
def VA_strtoVAddr (pton6 : Text → Option Addr) (s : Text) : Option Addr :=
  match inet_addrV4 s with
  | some w => some (ofV4 w)
  | none => pton6 s

/-- `VSA_strisaddr(s) != 0`. A scope after `%` is not part of the text. -/
def VSA_strisaddr (pton6 : Text → Option Addr) (s : Text) : Bool :=
  s ≠ [] && s.length < 128 && ((inet_aton s).isSome || (pton6 (beforeChr '%' s)).isSome)

/-- `isinetAddr(s) != 0`. -/
def isinetAddr (pton6 : Text → Option Addr) (s : Text) : Bool :=
  (inet_addrV4 s).isSome ||
    ((inet_aton s).isNone && s.length < 128 && (pton6 (beforeChr '%' s)).isSome)

end delegate.vaddr
