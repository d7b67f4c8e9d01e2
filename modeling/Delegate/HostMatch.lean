-- The matching of a host against a host list (hostlist.cpp). The elements
-- of a list are walked from the first to the last by `step`, which is the
-- body of the loop of `VA_hostIsinListX`.
import Delegate.Gates
import Delegate.VAddr

open ctext gates delegate.vaddr

namespace delegate.hostlist

/-! ## Glob patterns (String.cpp) -/

def chrcaseeq (a b : Char) : Bool := a.toLower == b.toLower

/-- The loop of `rexpmatchX`. `star` holds the pattern after the last `*`
and the text from the mark on. -/
def rexpLoop (igncase : Bool) : Nat → Text → Text → Option (Text × Text) → Bool
  | 0, _, _, _ => false
  | n + 1, rp, sp, star =>
    let back := match star with
      | some (r, _ :: ms) => rexpLoop igncase n r ms (some (r, ms))
      | _ => false
    match sp with
    | [] => (rp.dropWhile (· = '*')).isEmpty
    | c :: s =>
      match rp with
      | [] => back
      | p :: r =>
        if p = '*' then rexpLoop igncase n r (c :: s) (some (r, c :: s))
        else if p = c || igncase && chrcaseeq c p then rexpLoop igncase n r s star
        else back

/-- Every turn of the loop reads a character of the pattern, or moves the
mark: so this many turns are enough. -/
def rexpTurns (rexp str : Text) : Nat := (str.length + 1) * (rexp.length + str.length + 2)

def rexpmatchX (rexp str ropts : Text) : Bool :=
  rexpLoop (ropts.contains 'c') (rexpTurns rexp str) rexp str none

def rexpmatch (rexp str : Text) : Bool := rexpmatchX rexp str []

/-! ## The data -/

/-- What an element of a list does. `EQ` acts when the host matches and
`NEQ` when it does not. -/
inductive Op
  | ON_EQ
  | ON_NEQ
  | OFF_EQ
  | OFF_NEQ
  | OP_AND
  | OP_OR
  | OP_NEG
deriving DecidableEq, Repr

def HT_CLIF : BitVec 16 := 0x0001
def HT_BYHOST : BitVec 16 := 0x0010
def HT_BYAUTH : BitVec 16 := 0x0020
def HT_BYCERT : BitVec 16 := 0x0040
def HT_BYANY : BitVec 16 := 0x00F0
def HT_BYAGENT : BitVec 16 := 0x0100
def HT_IPV4 : BitVec 16 := 0x0200
def HT_IPV6 : BitVec 16 := 0x0400
def HT_BYFILE : BitVec 16 := 0x0800
def HT_RIDPEER : BitVec 16 := 0x2000
def HT_UNKNOWN : BitVec 16 := 0x4000

/-- One octet of an address range. -/
structure Octets where
  h_low : BitVec 8
  h_high : BitVec 8
deriving DecidableEq, Repr

/-- One element of a list. `h_listid` is 0 when the element names no list. -/
structure Host where
  h_asis : Bool := false
  h_name : Text := []
  h_mask : Addr := AddrZero
  h_Addr : Addr := AddrZero
  ranges : Fin 4 → Octets := fun _ => ⟨0, 0⟩
  h_proto : Option (List Text) := none
  h_port : Option (List Text) := none
  h_user : Option (List Text) := none
  h_op : Op := .ON_EQ
  h_listid : Nat := 0
  h_vdomain : Option Text := none
  h_type : BitVec 16 := 0

/-- A type of the set `t` is on. -/
def Host.is (h : Host) (t : BitVec 16) : Bool := h.h_type &&& t != 0

def Host.byuser (h : Host) : Bool := h.is (HT_BYAUTH ||| HT_BYCERT)

def HL_APPEND : BitVec 16 := 0x0001
def HL_PROTECT : BitVec 16 := 0x0002
def HL_NOIDENT : BitVec 16 := 0x0004
def HL_NORESOLV : BitVec 16 := 0x0008
def HL_BYCLHOST : BitVec 16 := 0x0020
def HL_BYADDR : BitVec 16 := 0x0040
def HL_BYAUTH : BitVec 16 := 0x0080
def HL_BYAGENT : BitVec 16 := 0x0200
def HL_XRANDOM : BitVec 16 := 0x1000
def HL_BYNAMEONLY : BitVec 16 := 0x4000

structure HostList where
  hl_what : Text
  hl_flags : BitVec 16 := 0
  hl_List : List Host := []

def HostList.has (l : HostList) (f : BitVec 16) : Bool := l.hl_flags &&& f != 0

/-- What one authentication says: `i_set` is the flag `AUTH_SET`. -/
structure AuthInfo where
  i_user : Text
  i_set : Bool
  i_Host : Text
  i_Port : BitVec 16

/-- The side of the client, and the peer that RIDENT names. -/
structure ClientInfo where
  clientsideHost : VAddr
  clientSockHost : VAddr
  clientHost : VAddr
  e_agentname : Text
  fromself : Bool
  ridentPeer : VAddr

/-- The arguments of a query. A missing `proto` is `ANYP`. -/
structure Query where
  proto : Option Text
  cname : Text
  aliasName : Option Text
  Vaddr : VAddr
  username : Option Text
  av : List AuthInfo

/-- The world outside the matching: the resolver, the clock, the files of
host sets and address groups, the routes, and the regular expressions.
`addrGroup` is the answer that is worked out, not one kept from before. -/
structure World where
  pton6 : Text → Option Addr
  gethostintMin : Text → Option (BitVec 32)
  gethostbyAddr : Addr → Option Text
  matchTimePeriod : Text → BitVec 32 → Bool
  addrGroup : Text → Text → Addr → Bool
  hostIFto : Addr → Addr → Addr
  matchHostSet : Text → Addr → Int → Bool
  frex_match : Text → Text → Bool

variable (W : World)

/-! ## The matchers -/

/-- A list of patterns, each with `!` before it or not: a pattern that
matches turns the result on or off. A list that starts with `!` starts on. -/
def matchEach (m : Text → Bool) (l : List Text) : Bool :=
  l.foldl (fun isin p =>
    match p with
    | '!' :: p => if m p then false else isin
    | p => if m p then true else isin) (l.head?.any (fun p => p.head? = some '!'))

def matchProto (protolist : List Text) (proto : Text) : Bool :=
  matchEach (fun p => p = ['*'] || p = proto) protolist

/-- A user pattern with `*` or `[` in it is a regular expression. -/
def matchUser (userlist : List Text) (username : Text) : Bool :=
  matchEach (fun u =>
    if u = ['*'] then true
    else if u.contains '*' || u.contains '[' then W.frex_match u username
    else u = username) userlist

def matchPort (portlist : List Text) (portnum : BitVec 16) : Bool :=
  matchEach (fun p =>
    if p = ['*'] then true
    else match scanRange p with
      | .none => false
      | .one a => a = portnum.toNat
      | .two a b => a ≤ portnum.toNat && portnum.toNat ≤ b) portlist

/-- The octet `ai` of a word, the first one on top. -/
def octet (w : BitVec 32) (ai : Fin 4) : BitVec 8 := (w >>> ((3 - ai.val) * 8)).setWidth 8

def match_addrrange (Hp : Host) (addr : Addr) : Bool :=
  (List.finRange 4).all fun ai =>
    !(octet addr.I3 ai < (Hp.ranges ai).h_low) && !((Hp.ranges ai).h_high < octet addr.I3 ai)

/-- The name alone says that the host is not resolved. -/
def unresolvedName (name : Text) : Bool :=
  strtailstr (name.map Char.toLower) ".in-addr.arpa".toList ||
    strtailstr (name.map Char.toLower) ".ip6.int".toList ||
    (W.gethostintMin name).isNone

def notResolved (addr : Addr) (name : Text) : Bool :=
  AddrInvalid addr || isinetAddr W.pton6 name

def notResolvable (v : VAddr) (name : Text) : Bool :=
  v.has (VA_RSLVERR ||| VA_RSLVINVERR) || notResolved W v.a_ints name || unresolvedName W name

def VA_resolv (v : VAddr) : VAddr :=
  match W.gethostbyAddr v.a_ints with
  | some name => { v with a_flags := v.a_flags ||| VA_RSLVINVOK, a_name := name.take 101 }
  | none => { v with a_flags := v.a_flags ||| VA_RSLVINVERR }

/-- The RIDENT peer is resolved before its first use. -/
def resolved (v : VAddr) : VAddr := if v.has VA_RSLVED then v else VA_resolv W v

/-- `hostcmp(a,b) == 0`. -/
def hosteq (a b : Text) : Bool :=
  strcaseeq a b || ((W.gethostintMin a).isSome && W.gethostintMin a == W.gethostintMin b)

/-! ## Virtual domains -/

/-- `scanVdomain`: a name `host.-vdom` gives `host` and the letters and
digits of `vdom`. -/
def scanVdomain (hostname : Text) : Option (Text × Text) :=
  match strstr ['.', '-'] hostname with
  | none => none
  | some (host, rest) =>
    let vdomain := (rest.drop 2).filter Char.isAlphanum
    if vdomain = [] then none else some (host, vdomain)

/-! ## One element -/

def HostOutgoingIF (hp : Text) : Bool := hp = ".o".toList
def HostIncomingIF (hp : Text) : Bool := hp = ".i".toList || hp = "-".toList
def HostOnClientside (hp : Text) : Bool := hp = "-C".toList || hp = ".C".toList
def TimePeriod (hp : Text) : Bool := "-T.".toList.isPrefixOf hp
def HostUnknown (hp : Text) : Bool := hp = "?".toList
def CantResolve (hp : Text) : Bool := hp = "?*".toList

/-- The element `--expire.N`. -/
def isExpire (hp : Text) : Bool := "--expire.".toList.isPrefixOf hp

/-- The element names a group of addresses in a file. -/
def isAddrGroup (hp : Text) : Bool :=
  strtailstr hp ".mac.list.-".toList || strtailstr hp ".ip4.list.-".toList ||
    strtailstr hp ".ip6.list.-".toList || strtailstr hp ".ima.list.-".toList

/-- What the loop carries from one element to the next. -/
structure Carry where
  hosti : VAddr
  portnum : BitVec 16
  username : Option Text
  exp : Int
  rident : VAddr

/-- The names that the query goes by in this list: in lower case, without
its virtual domain. -/
structure Names where
  cname : Text
  aliasName : Option Text
  vdom : Option Text

/-- How the body of the loop leaves an element: with no verdict
(`continue`), with a verdict, or out of the function with 0. -/
inductive Outcome
  | pass
  | verdict (matched : Bool)
  | abort
deriving DecidableEq, Repr

/-- The addresses that are compared: the mask, the address of the element,
and the host that the element puts in the place of the host asked for. -/
structure Sides where
  mask : Addr
  chost : Addr
  peer : Option VAddr

/-- The branches of the loop body that set `chost`; `none` is `continue`. -/
def sidesOf (cl : ClientInfo) (c : Carry) (Hp : Host) : Option Sides :=
  let mask := Hp.h_mask
  if HostOnClientside Hp.h_name then
    let mask := default_netmask mask cl.clientsideHost.a_ints
    some ⟨mask, AddrAND mask cl.clientsideHost.a_ints, none⟩
  else if HostOutgoingIF Hp.h_name then
    let hosti := c.hosti.a_ints
    if AddrInvalid hosti then some ⟨AddrNull, { hosti with I3 := ~~~hosti.I3 }, none⟩
    else
      let mask := default_netmask mask hosti
      some ⟨mask, AddrAND (W.hostIFto hosti mask) mask, none⟩
  else if Hp.is HT_CLIF then
    let sock := cl.clientSockHost
    let mask := default_netmask mask sock.a_ints
    let own := if Hp.h_Addr = AddrZero then sock.a_ints else Hp.h_Addr
    some ⟨mask, AddrAND mask own, some sock⟩
  else if Hp.is HT_RIDPEER then
    if !c.rident.has VA_REMOTE then none
    else some ⟨mask, AddrAND mask Hp.h_Addr, some (resolved W c.rident)⟩
  else if HostIncomingIF Hp.h_name then
    let sock := cl.clientSockHost.a_ints
    if AddrInvalid sock then none
    else
      let mask := default_netmask mask sock
      some ⟨mask, AddrAND mask sock, none⟩
  else some ⟨mask, AddrAND mask Hp.h_Addr, none⟩

/-- The match of a name pattern: by the name, then by the alias. -/
def matchName (nm : Names) (Hp : Host) (hostname : Text) (isAlias : Bool) : Bool :=
  rexpmatch Hp.h_name hostname || Hp.h_name = hostname ||
    (!isAlias && nm.aliasName.any fun a =>
      !strcaseeq a nm.cname &&
        (rexpmatch Hp.h_name a || strcaseeq Hp.h_name a ||
          ("*.".toList.isPrefixOf Hp.h_name && strcaseeq (Hp.h_name.drop 2) a)))

/-- The match by host: by name, by address, by range, by name pattern. -/
def matchByHost (nm : Names) (Hp : Host) (hosti : VAddr) (hostname : Text) (isAlias : Bool)
    (ahost chost : Addr) : Bool :=
  if CantResolve Hp.h_name || Hp.is HT_UNKNOWN then notResolvable W hosti hostname
  else if HostUnknown Hp.h_name && notResolved W hosti.a_ints hostname then true
  else if "*.".toList.isPrefixOf Hp.h_name && strcaseeq (Hp.h_name.drop 2) hostname then true
  else if strcaseeq Hp.h_name hostname then true
  else if ahost ≠ AddrZero ∧ chost ≠ AddrZero then ahost = chost
  else if ahost ≠ AddrZero ∧ (Hp.ranges 0).h_high ≠ 0 then match_addrrange Hp ahost
  else matchName nm Hp hostname isAlias

/-- The label `USERPORT`: the protocol, the port and the user of an element
that matches must match too. -/
def userport (q : Query) (Hp : Host) (portnum : BitVec 16) (username : Option Text)
    (matched : Bool) : Bool :=
  matched &&
    Hp.h_proto.all (fun l => q.proto.all (matchProto l)) &&
    Hp.h_port.all (fun l => portnum = 0 || matchPort l portnum) &&
    Hp.h_user.all (fun l => matchUser W l (username.getD ['?']))

/-- The user name after `USERPORT`: asked for a user, a missing name
becomes `?`. -/
def usedName (q : Query) (Hp : Host) (portnum : BitVec 16) (username : Option Text)
    (matched : Bool) : Option Text :=
  if matched && Hp.h_proto.all (fun l => q.proto.all (matchProto l)) &&
      Hp.h_port.all (fun l => portnum = 0 || matchPort l portnum) && Hp.h_user.isSome then
    some (username.getD ['?'])
  else username

/-- The label `AUTHMATCH`: some authentication has the kind, the user, the
host and the port of the element. -/
def authmatch (q : Query) (Hp : Host) : Bool :=
  q.av.any fun ap =>
    Hp.is (if ap.i_set then HT_BYAUTH else HT_BYCERT) &&
      Hp.h_user.all (fun l => matchUser W l ap.i_user) &&
      (Hp.h_name = ap.i_Host || rexpmatch Hp.h_name ap.i_Host || hosteq W Hp.h_name ap.i_Host) &&
      Hp.h_port.all (fun l => ap.i_Port = 0 || matchPort l ap.i_Port)

/-- The label `EXIT_BYHOST`: an element for users may still match by the
authentication. -/
def exitByhost (q : Query) (byauth : Bool) (Hp : Host) (username : Option Text)
    (matched : Bool) : Bool :=
  if !matched && Hp.byuser && q.av.isEmpty && username == some ['*'] then true
  else if !matched && (byauth || Hp.byuser) && !q.av.isEmpty then authmatch W q Hp
  else matched

/-- What one call of `VA_hostIsinListX` gives to its caller: is the host in
the list, and the RIDENT peer that the call leaves. -/
abbrev Nested := Nat → Option Text → VAddr → Bool × VAddr

/-- The list and the query, as every element of the list sees them.
`nested` is the call for a named list, `none` when the lists are too deep. -/
structure Frame where
  q : Query
  cl : ClientInfo
  byauth : Bool
  byagent : Bool
  nm : Names
  nested : Option Nested

/-- The name looked at is the alias. -/
def Frame.isAlias (F : Frame) (Hp : Host) : Bool := Hp.h_asis && F.nm.aliasName.isSome

def Frame.hostname (F : Frame) (Hp : Host) : Text :=
  if F.isAlias Hp then F.nm.aliasName.getD [] else F.nm.cname

/-- The element is for the other version of IP. -/
def Frame.otherIP (F : Frame) (Hp : Host) : Bool :=
  Hp.is (HT_IPV4 ||| HT_IPV6) && (F.q.Vaddr.a_ints = AddrNull ||
    Hp.is HT_IPV4 && isV6 F.q.Vaddr.a_ints || Hp.is HT_IPV6 && !isV6 F.q.Vaddr.a_ints)

/-- An element that names a list, from the verdict of that list. -/
def evalNamed (F : Frame) (c : Carry) (Hp : Host) (m : Bool) : Outcome × Carry :=
  let m' := userport W F.q Hp c.portnum c.username m
  let c := { c with username := usedName F.q Hp c.portnum c.username m }
  (.verdict (exitByhost W F.q F.byauth Hp c.username m'), c)

/-- The branches of the loop body before the addresses are compared; `none`
when none of them is taken. -/
def evalEarly (F : Frame) (c : Carry) (Hp : Host) : Option (Outcome × Carry) :=
  if isExpire Hp.h_name then some (.pass, { c with exp := atoi (Hp.h_name.drop 9) })
  else if F.byagent || Hp.h_type = HT_BYAGENT then
    some (.verdict (strstr Hp.h_name F.cl.e_agentname).isSome, c)
  else if F.otherIP Hp then some (.pass, c)
  else if Hp.h_listid ≠ 0 then
    match F.nested with
    | none => some (.abort, c)
    | some f =>
      let r := f Hp.h_listid c.username c.rident
      some (evalNamed W F { c with rident := r.2 } Hp r.1)
  else if TimePeriod Hp.h_name then
    some (.verdict (W.matchTimePeriod (Hp.h_name.drop 3) Hp.h_mask.I3), c)
  else if strcaseeq Hp.h_name "--self".toList then some (.verdict F.cl.fromself, c)
  else if strcaseeq (Hp.h_name.take 3) "_mx".toList then
    some (.verdict (W.gethostintMin (("-MX.".toList ++ F.hostname Hp).take 255)).isSome, c)
  else if isAddrGroup Hp.h_name then
    some (.verdict (W.addrGroup Hp.h_name (F.hostname Hp) c.hosti.a_ints), c)
  else none

/-- The loop variables after the element puts its peer in the place of the
host asked for. Only `hostname` is set again for the next element. -/
def Carry.place (c : Carry) (Hp : Host) : Option VAddr → Carry
  | none => c
  | some v =>
    { c with hosti := v, portnum := v.a_port, rident := if Hp.is HT_CLIF then c.rident else v }

/-- The loop body from the comparison of the addresses on. -/
def evalSides (F : Frame) (c : Carry) (Hp : Host) (s : Sides) : Outcome × Carry :=
  let ahost := AddrAND c.hosti.a_ints s.mask
  let hostname := s.peer.elim (F.hostname Hp) (·.a_name)
  if F.byauth && !Hp.is HT_CLIF then (.verdict (authmatch W F.q Hp), c)
  else if Hp.is HT_BYFILE then (.verdict (W.matchHostSet Hp.h_name ahost c.exp), c)
  else if !Hp.is HT_BYHOST then (.verdict (exitByhost W F.q F.byauth Hp c.username false), c)
  else
    evalNamed W F c Hp
      (matchByHost W F.nm Hp c.hosti hostname (F.isAlias Hp && s.peer.isNone) ahost s.chost)

/-- The body of the loop for an element that is no operator. -/
def evalHost (F : Frame) (c : Carry) (Hp : Host) : Outcome × Carry :=
  match evalEarly W F c Hp with
  | some r => r
  | none =>
    match sidesOf W F.cl c Hp with
    | none => (.pass, c)
    | some s => evalSides W F (c.place Hp s.peer) Hp s

/-! ## The walk over a list -/

/-- The state of the loop. -/
structure Walk where
  hi : Nat
  ctl : Ctl
  isin : Bool
  carry : Carry

/-- The label `ACCUM`. -/
def accum (op : Op) (matched isin : Bool) : Bool :=
  match op with
  | .ON_EQ => if matched then true else isin
  | .ON_NEQ => if matched then isin else true
  | .OFF_EQ => if matched then false else isin
  | .OFF_NEQ => if matched then isin else false
  | _ => isin

/-- The element has no say: another virtual domain, or a result that it
cannot change. -/
def idle (nm : Names) (isin : Bool) (Hp : Host) : Bool :=
  nm.vdom ≠ Hp.h_vdomain ||
    match Hp.h_op with
    | .ON_EQ | .ON_NEQ => isin
    | .OFF_EQ | .OFF_NEQ => !isin
    | _ => false

/-- One turn of the loop of `VA_hostIsinListX`, where `eval` is its body for
an element that is no operator. -/
def step (nm : Names) (eval : Carry → Host → Outcome × Carry) (w : Walk) (Hp : Host) : Walk :=
  match w.ctl with
  | .stop => w
  | .skip =>
    { w with hi := w.hi + 1, ctl := if Hp.h_op = .OP_OR then .scan else .skip }
  | .scan =>
    match Hp.h_op with
    | .OP_AND =>
      { w with hi := w.hi + 1, isin := false, ctl := if w.isin then .scan else .skip }
    | .OP_OR => if w.isin then { w with ctl := .stop } else { w with hi := w.hi + 1 }
    | .OP_NEG => { w with hi := w.hi + 1, isin := !w.isin }
    | op =>
      if idle nm w.isin Hp then { w with hi := w.hi + 1 }
      else
        match eval w.carry Hp with
        | (.pass, c) => { w with hi := w.hi + 1, carry := c }
        | (.verdict m, c) => { w with hi := w.hi + 1, isin := accum op m w.isin, carry := c }
        | (.abort, c) => { w with ctl := .stop, isin := false, carry := c }

def HL_MAXDEPTH : Nat := 10

/-- The names that a list of these flags looks at. -/
def namesIn (hl : HostList) (cl : ClientInfo) (q : Query) : Names :=
  let cname := if hl.has HL_BYCLHOST then cl.clientHost.a_name else q.cname
  let aliasName := if hl.has HL_BYCLHOST then none else q.aliasName
  match scanVdomain cname with
  | some (host, vdom) => ⟨(host.map Char.toLower).take 255, aliasName, some vdom⟩
  | none => ⟨(cname.map Char.toLower).take 255, aliasName, none⟩

/-- The loop variables before the first element. -/
def carryIn (hl : HostList) (cl : ClientInfo) (q : Query) : Carry where
  hosti := if hl.has HL_BYCLHOST then cl.clientHost else q.Vaddr
  portnum := q.Vaddr.a_port
  username := q.username
  exp := 0
  rident := cl.ridentPeer

/-- The frame of a list. -/
def frameIn (hl : HostList) (cl : ClientInfo) (q : Query) (nested : Option Nested) : Frame :=
  ⟨q, cl, hl.has HL_BYAUTH, hl.has HL_BYAGENT, namesIn hl cl q, nested⟩

def start (c : Carry) : Walk := ⟨1, .scan, false, c⟩

/-- The walk over the elements `es` of a list. -/
def walk (F : Frame) (c : Carry) (es : List Host) : Walk :=
  es.foldl (step F.nm (evalHost W F)) (start c)

/-- What the function returns: the place where the walk ended, or 0. -/
def Walk.result (w : Walk) : Nat := if w.isin then w.hi else 0

/-- `VA_hostIsinListX` at the level `lev = HL_MAXDEPTH + 1 - left`, with the
named lists `tab`. A list by authentication holds no one without any. The
call also leaves the RIDENT peer, which it may have resolved. -/
def VA_hostIsinListX (tab : Nat → HostList) : Nat → HostList → ClientInfo → Query → Nat × VAddr
  | left, hl, cl, q =>
    if hl.has HL_BYAUTH && q.av.isEmpty then (0, cl.ridentPeer)
    else
      let nested : Option Nested := match left with
        | 0 => none
        | left + 1 => some fun id username rident =>
          let r := VA_hostIsinListX tab left (tab id) { cl with ridentPeer := rident }
            { q with username }
          (r.1 ≠ 0, r.2)
      let w := walk W (frameIn hl cl q nested) (carryIn hl cl q) hl.hl_List
      (w.result, w.carry.rident)

/-- The call for a named list at a level. -/
def nestedAt (tab : Nat → HostList) (left : Nat) (cl : ClientInfo) (q : Query) : Option Nested :=
  match left with
  | 0 => none
  | left + 1 => some fun id username rident =>
    let r := VA_hostIsinListX W tab left (tab id) { cl with ridentPeer := rident } { q with username }
    (r.1 ≠ 0, r.2)

theorem VA_hostIsinListX_eq (tab : Nat → HostList) (left : Nat) (hl : HostList) (cl : ClientInfo)
    (q : Query) :
    VA_hostIsinListX W tab left hl cl q =
      if hl.has HL_BYAUTH && q.av.isEmpty then (0, cl.ridentPeer)
      else
        let w := walk W (frameIn hl cl q (nestedAt W tab left cl q)) (carryIn hl cl q) hl.hl_List
        (w.result, w.carry.rident) := by
  cases left <;> rfl

end delegate.hostlist
