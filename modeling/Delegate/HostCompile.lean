-- The compilation of the text of a host list into its elements
-- (hostlist.cpp, and `scan_ListX` of String.cpp): the separation of a
-- list at its commas, and `makeHost`, which reads one element.
import Delegate.HostMatch

open ctext delegate.vaddr

namespace delegate.hostlist

/-! ## Comma lists -/

/-- One element of a list as the callback gets it. `beyond` is the text
that stands in memory after the NUL of the element. -/
structure Elem where
  text : Text
  beyond : Text
deriving DecidableEq, Repr

/-- One element of a list, and the text after it. `lev` counts the open
braces and `closed` tells that a group was closed before. An element that
is one group loses its braces. A backslash before a separator or a brace
is dropped. -/
def scanElem (sep : Char) : Text → Int → Bool → Text → Elem × Text
  | [], _, _, acc => (⟨acc, []⟩, [])
  | c :: s, lev, closed, acc =>
    if c = '\\' then
      match s with
      | [] => (⟨acc ++ [c], []⟩, [])
      | n :: r =>
        if n = sep ∨ n = '{' ∨ n = '}' then scanElem sep r lev closed (acc ++ [n])
        else scanElem sep (n :: r) lev closed (acc ++ [c])
    else if c = '{' then scanElem sep s (lev + 1) closed (acc ++ [c])
    else if c = '}' then
      if lev = 1 ∧ acc.head? = some '{' then
        -- the two NULs of `},` stand side by side
        if !closed ∧ (s = [] ∨ s.head? = some sep) then (⟨acc.tail, []⟩, s.tail)
        else scanElem sep s (lev - 1) true (acc ++ [c])
      else scanElem sep s (lev - 1) closed (acc ++ [c])
    else if lev = 0 ∧ c = sep then (⟨acc, s⟩, s)
    else scanElem sep s lev closed (acc ++ [c])

/-- The elements of a list of at most `n` characters. -/
def scanElems (sep : Char) : Nat → Text → List Elem
  | 0, _ => []
  | _ + 1, [] => []
  | n + 1, s =>
    let p := scanElem sep s 0 false []
    p.1 :: scanElems sep n p.2

/-- `scan_ListX`: every turn of its loop leaves a shorter text. -/
def scan_ListX (sep : Char) (list : Text) : List Elem := scanElems sep list.length list

/-- `scan_ListL`: a list that is one group is scanned without its braces. -/
def scan_ListL (sep : Char) (list : Text) : List Elem :=
  match list with
  | '{' :: s =>
    if s.contains '}' then
      if afterChr '}' s = some [] then scan_ListX sep (beforeChr '}' s) else scan_ListX sep list
    else scan_ListX sep s
  | _ => scan_ListX sep list

/-- The words of a comma list, at most 128 of them. -/
def wordsOf (list : Text) : List Text := ((scan_ListX ',' list).map Elem.text).take 128

/-! ## Address patterns -/

def octetsOf (field : Text) : Option Octets :=
  match field with
  | '[' :: s =>
    match scanRange s with
    | .two lo hi => some ⟨BitVec.ofInt 8 lo, BitVec.ofInt 8 hi⟩
    | _ => none
  | _ => some ⟨BitVec.ofInt 8 (atoi field), BitVec.ofInt 8 (atoi field)⟩

/-- The octets of up to `n` fields. Missing fields are 0 to 255, and a
field that is no range ends the scan. -/
def scanOctets : Nat → List Text → List Octets
  | 0, _ => []
  | n, [] => List.replicate n ⟨0, 255⟩
  | n + 1, f :: fs =>
    match octetsOf f with
    | none => []
    | some o => o :: scanOctets n fs

/-- The ranges that `scan_addrrange` leaves in an element. -/
def scan_addrrange (addr : Text) : Fin 4 → Octets := fun ai =>
  (scanOctets 4 ((addr.take 127).splitOn '.')).getD ai ⟨0, 0⟩

/-- One field of an address pattern with its dot, and the text after it. -/
def wildField : Nat → Text → Text × Text
  | 0, s => ([], s)
  | _ + 1, [] => ([], [])
  | n + 1, c :: s =>
    if c = '.' then ([c], s)
    else
      let p := wildField n s
      (c :: p.1, p.2)

/-- A field in the notation of ranges; `none` when it is no field. -/
def canonField (buff : Text) : Option Text :=
  match buff with
  | ['*'] => some "[0-255]".toList
  | '*' :: '.' :: _ => some "[0-255].".toList
  | c :: _ =>
    if c.isDigit && buff.all (fun c => c.isDigit || c == '.') && 0 ≤ atoi buff && atoi buff ≤ 255
    then some buff else none
  | [] => none

/-- The pattern in the notation of ranges and the number of its fields, of
which there are at most `n`. -/
def canonFields : Nat → Text → Option (Text × Nat)
  | _, [] => some ([], 0)
  | 0, _ => none
  | n + 1, s =>
    let p := wildField 127 s
    match canonField p.1, canonFields n p.2 with
    | some f, some (t, k) => some (f ++ t, k + 1)
    | _, _ => none

/-- `canonWildcardAddr`: each `*` of an address pattern becomes a range. -/
def canonWildcardAddr (hostname : Text) : Text :=
  if hostname.contains '*' && hostname.contains '.' then
    match canonFields 4 hostname with
    | some (addr, noct) => if 2 ≤ noct then addr.take 127 else hostname
    | none => hostname
  else hostname

/-! ## One element -/

/-- What the compiler asks of the site: IPv6 texts, the resolver with the
primary name and the address of a host, and its own name. -/
structure Site where
  pton6 : Text → Option Addr
  gethostVAddr : Text → Option (Text × Addr)
  hostname : Text
  isMYSELF : Text → Bool

/-- `proto://host`: the protocol and the rest. -/
def splitProto (hostmask : Text) : Text × Text :=
  if (strstr "://".toList hostmask).isSome then
    let proto := beforeChr ':' hostmask
    let rest := hostmask.drop proto.length
    if proto ≠ [] ∧ "://".toList <+: rest then
      (proto.take 255, ((rest.drop 3).dropWhile isspace).takeWhile (fun c => !isspace c))
    else (proto.take 255, [])
  else ([], hostmask)

/-- `host//route`: the part before the route. -/
def cutRoute (hostmask : Text) : Text :=
  match strstr "//".toList hostmask with
  | some (host, _) => host
  | none => hostmask

def scanOp1 : Text → Op × Text
  | '!' :: m => (.OFF_EQ, m)
  | '+' :: m => (.ON_EQ, m)
  | m => (.ON_EQ, m)

def scanOp : Text → Op × Text
  | '!' :: '!' :: m => scanOp1 m
  | m => scanOp1 m

/-- The type of a letter in `-X/`. -/
def typeOf : Char → Option (BitVec 16)
  | '*' => some HT_BYANY
  | 'R' => some HT_RIDPEER
  | 'U' => some HT_UNKNOWN
  | 'A' => some HT_BYAGENT
  | 'a' => some HT_BYAUTH
  | 'c' => some HT_BYCERT
  | 'h' => some HT_BYHOST
  | _ => none

def scanTypesFrom (t : BitVec 16) : Text → BitVec 16 × Text
  | c :: '/' :: s =>
    match typeOf c with
    | some b => scanTypesFrom (t ||| b) s
    | none => (t, c :: '/' :: s)
  | s => (t, s)

/-- The types `-X/Y/` before a host. -/
def scanTypes (hostmask : Text) : BitVec 16 × Text :=
  match hostmask with
  | '-' :: s => if (scanTypesFrom 0 s).1 ≠ 0 then scanTypesFrom 0 s else (0, hostmask)
  | _ => (0, hostmask)

/-- The length of a network prefix, or 0. -/
def isnetmasklen (mask : Text) : Int :=
  if mask.all Char.isDigit && (mask.length = 1 || mask.length = 2) then
    if 1 ≤ atoi mask ∧ atoi mask ≤ 31 then atoi mask else 0
  else 0

def classLetter : Option Char → BitVec 32
  | some 'A' => 0xFF000000
  | some 'B' => 0xFFFF0000
  | some 'C' => 0xFFFFFF00
  | _ => CLASS_MASK

/-- The mask of the text after `/`. -/
def maskOf (S : Site) (host mp : Text) : Addr :=
  if TimePeriod host then { MaskZero with I3 := BitVec.ofInt 32 (atoi mp) }
  else if isnetmasklen mp ≠ 0 then
    { MaskZero with I3 := 0xFFFFFFFF#32 <<< (32 - (isnetmasklen mp).toNat) }
  else if mp = ['.'] then { MaskZero with I3 := HEURISTIC_MASK }
  else if mp.contains '.' || VSA_strisaddr S.pton6 mp then
    (VA_strtoVAddr S.pton6 mp).getD AddrNull
  else if mp.head? = some '@' then
    let mask1 := classLetter mp[1]?
    let submask := atoi (mp.drop 2)
    -- the machine shifts by the count modulo 32
    { MaskZero with I3 := if submask ≠ 0 then mask1 >>> (submask % 32).toNat else mask1 }
  else { MaskZero with I3 := (scanHex mp).getD 0 }

/-- `host/mask`: the host and the mask. -/
def scanMask (S : Site) (hostmask : Text) : Text × Addr :=
  match afterChr '/' hostmask with
  | some mp => (beforeChr '/' hostmask, maskOf S (beforeChr '/' hostmask) mp)
  | none => (hostmask, AddrNull)

/-- `users@host`: the users, and the host. The users may stand in braces. -/
def splitUsers (name : Text) : Option (Text × Text) :=
  (afterChr '@' name).map fun host =>
    let users := match name with
      | '{' :: s => if s.contains '}' then beforeChr '}' s else beforeChr '@' s
      | s => beforeChr '@' s
    (users, host)

def Op.negated : Op → Op
  | .ON_EQ => .OFF_EQ
  | _ => .ON_EQ

/-- `user@!host` is the negation of `user@host`. -/
def scanUserNot (op : Op) (host : Text) : Op × Text :=
  match host with
  | '!' :: h => (op.negated, h)
  | h => (op, h)

/-- The type of an element with no explicit type for its host or user. -/
def defaultType (t : BitVec 16) (hasUser : Bool) : BitVec 16 :=
  if t &&& HT_BYANY = 0 then t ||| (if hasUser then HT_BYANY else HT_BYHOST) else t

def HostIncomingIFX (hp : Text) : Bool := "-P".toList.isPrefixOf hp || "-Q".toList.isPrefixOf hp

/-- `-Pnum` becomes `-P*:num`. -/
def insertAny (name : Text) : Text :=
  if HostIncomingIFX name && name.length > 2 && !(name.drop 2).contains ':' then
    name.take 2 ++ "*:".toList ++ name.drop 2
  else name

/-- `host:ports` or `host..ports`. -/
def scanPorts (name : Text) : Text × Option (List Text) :=
  match afterChr ':' name with
  | some ports => (beforeChr ':' name, some (wordsOf ports))
  | none =>
    match strstr "..".toList name with
    | some (host, rest) =>
      if (rest.drop 2).head?.any (fun c => c.isDigit || c == '{') then
        (host, some (wordsOf (rest.drop 2)))
      else (name, none)
    | none => (name, none)

/-- `_4.host` and `_6.host`: the version of IP. -/
def scanVersion (name : Text) : BitVec 16 × Text :=
  match name with
  | ['_', '4'] => (HT_IPV4, ['*'])
  | ['_', '6'] => (HT_IPV6, ['*'])
  | '_' :: '4' :: '.' :: host => (HT_IPV4, host)
  | '_' :: '6' :: '.' :: host => (HT_IPV6, host)
  | host => (0, host)

/-- The kinds of hosts: the last part of `makeHost`, which sets the name of
the element and what belongs to its kind. -/
def setName (S : Site) (listid : Text → Nat) (flags : BitVec 16) (Hp : Host) (name : Text) : Host :=
  let Hp := { Hp with h_name := name }
  if isExpire name then Hp
  else if listid name ≠ 0 then { Hp with h_listid := listid name }
  else if HostOnClientside name then Hp
  else if HostIncomingIFX name then
    let name := name.drop 2
    let Hp := { Hp with h_name := name, h_type := Hp.h_type ||| HT_CLIF }
    if name.contains '*' then Hp
    else { Hp with h_Addr := (VA_strtoVAddr S.pton6 name).getD Hp.h_Addr }
  else if HostIncomingIF name || HostOutgoingIF name || TimePeriod name then Hp
  else if name.head? = some '-' && !S.isMYSELF name then
    match VA_strtoVAddr S.pton6 (name.drop 1) with
    | some addr => { Hp with h_Addr := addr }
    | none => { Hp with h_asis := true, h_name := name.drop 1 }
  else if "__".toList.isPrefixOf name then
    { Hp with h_name := name.drop 2, h_type := Hp.h_type ||| HT_BYFILE }
  else if name.contains '[' then { Hp with ranges := scan_addrrange name }
  else if name.contains '*' || name = ['?'] || strtailstr name ".-".toList then Hp
  else if flags &&& HL_BYNAMEONLY ≠ 0 then { Hp with h_asis := true }
  else
    match S.gethostVAddr name with
    | none => Hp
    | some (primaryname, addr) =>
      { Hp with h_name := if primaryname ≠ [] then primaryname else name, h_Addr := addr,
                h_mask := default_netmask Hp.h_mask addr }

/-- An element from its text without operator, domain and types. -/
def makeHostOf (S : Site) (listid : Text → Nat) (flags : BitVec 16) (Hp : Host) (proto : Text)
    (hostmask : Text) : Host :=
  let (host, mask) := scanMask S hostmask
  let name := if host = ['.'] then S.hostname else host.take 1023
  let users := splitUsers name
  let (op, name) := match users with
    | some (_, host) => scanUserNot Hp.h_op host
    | none => (Hp.h_op, name)
  let (name, port) := scanPorts (insertAny name)
  let (version, name) := scanVersion (canonWildcardAddr name)
  let Hp := { Hp with
    h_mask := mask
    h_user := users.map (fun u => wordsOf u.1)
    h_port := port
    h_proto := if proto ≠ [] then some (wordsOf proto) else none
    h_op := op
    h_type := defaultType Hp.h_type users.isSome ||| version }
  setName S listid flags Hp name

/-- `makeHost` for a list with the flags `flags`, where `listid` finds the
named lists. -/
def makeHost (S : Site) (listid : Text → Nat) (flags : BitVec 16) (hostmask : Text) : Host :=
  let (proto, m) := splitProto hostmask
  let m := cutRoute m
  if m = ['&'] then { h_op := .OP_AND }
  else if m = ['|'] then { h_op := .OP_OR }
  else if m = ['!'] then { h_op := .OP_NEG }
  else
    let (op, m) := scanOp m
    let (m, vdomain) := match scanVdomain m with
      | some (host, vdom) => (host, some vdom)
      | none => (m, none)
    let (type, m) := scanTypes m
    if flags &&& HL_BYAGENT ≠ 0 ∨ type &&& HT_BYAGENT ≠ 0 then
      { h_op := op, h_type := type, h_name := m }
    else
      makeHostOf S listid flags { h_op := op, h_type := type, h_vdomain := vdomain } proto m

end delegate.hostlist
