-- The loop of udp_relayX in udprelay.cpp as a machine: each step is one turn of
-- one of its loops, with what the system calls of the turn return as its input.
-- The state keeps the table of associations, the arrays that each round fills
-- from it, and a record of what is used, deleted and sent.
import Delegate.Runs

namespace delegate.udp

/-! ## The pure model -/

/-- A host and a port. -/
abbrev Addr := String × Int

def MAXASSOC : Nat := 32

structure Conf where
  csc : Nat
  csv : Nat → Int
  istcp : Nat → Bool
  sockPort : Int → Int
  svhost : String
  DST_PORT : Int
  svportmap : Int
  UDPRELAY_MAXASSOC : Int
  UDPRELAY_RPORT_FIX : Bool
  IO_TIMEOUT : Nat
  SERVER_TIMEOUT : Nat

/-- The limit that `udp_relayX` sets. -/
def Conf.maxassoc (cf : Conf) : Int :=
  if (MAXASSOC : Int) < cf.UDPRELAY_MAXASSOC then MAXASSOC else cf.UDPRELAY_MAXASSOC

/-- The mapped port without the bit `IS_PORTMAP`. -/
def Conf.portnumv (cf : Conf) (sx : Nat) : Int :=
  (BitVec.ofInt 32 (cf.sockPort (cf.csv sx) + cf.svportmap) &&& ~~~0x40000000#32).toInt

/-- The port of the server that an incoming port stands for. -/
def Conf.portOf (cf : Conf) (sx : Nat) : Int :=
  if cf.svportmap ≠ 0 then cf.portnumv sx else cf.DST_PORT

/-- An association, with the address of its memory. -/
structure Assoc where
  adr : Nat
  ua_id : Nat
  ua_cl : Addr
  ua_sv : Addr
  ua_clsock : Int := 0
  ua_svsock : Int
  ua_mtime : Nat := 0
  ua_svbound : Bool
  ua_clpriv : Bool := false
  ua_svtcp : Bool
  ua_svSOCKS : Int
  deriving DecidableEq

/-- An element of `udpav` and `sockv`: the pointer, the association that was there when it was
taken, and the socket. -/
structure Slot where
  adr : Nat
  id : Nat
  sock : Int
  deriving DecidableEq

/-- An association is used (or the null pointer is) or deleted; a datagram of a client on an incoming
port, or of a private client, is sent by an association; what comes on the socket of an association
is sent to a client by a socket. -/
inductive Event
  | use (id : Option Nat)
  | del (id : Nat)
  | toServ (cl : Addr) (sx : Option Nat) (id : Nat) (dst : Addr) (data : List UInt8)
  | toClnt (id : Option Nat) (src cl : Addr) (clsock : Int) (data : List UInt8)
  deriving DecidableEq

/-- `cls`, `svs` and `ctls` are the arrays `udpav` and `sockv` from `csc`, from `csc+ccc` and from
`csc+ccc+nsock` on. The lists `todo` are the ready elements that the loops of the round have not come
to. -/
structure Relay where
  uassocv : List Assoc
  uaid : Nat
  svport : Int
  update : Bool
  lastrelay : Nat
  cls : List Slot
  svs : List Slot
  ctls : List Slot
  todoPorts : List Nat
  todoCls : List Slot
  todoSvs : List Slot
  todoCtls : List Slot
  stopped : Bool
  fds : List Int
  peer : Int → Option Addr
  log : List Event

/-- What the system calls of `newUA` return. A socket of `VSocket` is connected to the server or
not. -/
structure Open where
  permitted : Bool := true
  viaSocks : Option (Int × Int × Option Addr) := none
  vsocket : Option (Int × Bool) := none
  open1 : Option Int := none
  open2 : Option Int := none
  connect : Bool := true
  isUDP : Bool := true
  calloc : Nat := 0

/-! ### The table -/

def findUAbysrc (uav : List Assoc) (cl : Addr) : Option Assoc := uav.find? fun ua => ua.ua_cl == cl

def getUAx (uav : List Assoc) (s : Slot) : Option Nat := uav.findIdx? fun ua => ua.adr == s.adr

/-- The association in the memory that a pointer points to. -/
def deref (uav : List Assoc) (adr : Nat) : Option Assoc := uav.find? fun ua => ua.adr == adr

def longestIdleFrom : List Assoc → Nat → Nat → Nat → Nat
  | [], _, _, mx => mx
  | ua :: uav, ai, mtime, mx =>
    if mtime = 0 ∨ ua.ua_mtime < mtime then longestIdleFrom uav (ai + 1) ua.ua_mtime ai
    else longestIdleFrom uav (ai + 1) mtime mx

def longestIdle (uav : List Assoc) : Nat := longestIdleFrom uav 0 0 0

def Relay.use (st : Relay) (id : Option Nat) : Relay := { st with log := .use id :: st.log }

/-- A loop over the table looks into each association. -/
def Relay.scan (st : Relay) : Relay :=
  { st with log := (st.uassocv.map fun ua => .use (some ua.ua_id)) ++ st.log }

/-- The descriptors that are closed with an association. -/
def Assoc.closes (ua : Assoc) : List Int :=
  ua.ua_svsock :: ((if 0 ≤ ua.ua_svSOCKS then [ua.ua_svSOCKS] else []) ++
    if ua.ua_clpriv then [ua.ua_clsock] else [])

def Relay.delUA (st : Relay) (ux : Nat) (squeeze : Bool) : Relay :=
  match st.uassocv[ux]? with
  | none => st.use none
  | some ua =>
    { st with
      uassocv := if squeeze then st.uassocv.eraseIdx ux else st.uassocv
      fds := st.fds.filter (· ∉ ua.closes)
      log := .del ua.ua_id :: .use (some ua.ua_id) :: st.log }

/-- The memory that a pointer points to is changed. -/
def Relay.modify (st : Relay) (adr : Nat) (f : Assoc → Assoc) : Relay :=
  { st with uassocv := st.uassocv.map fun ua => if ua.adr = adr then f ua else ua }

/-- The end of `newUA`, with a socket that was not open before. -/
def Relay.addUA (st : Relay) (cf : Conf) (o : Open) (cl sv : Addr) (svsock : Int)
    (peer : Option Addr) (SOCKSctl : Int) : Option (Relay × Option Assoc) :=
  let full := decide (cf.maxassoc ≤ st.uassocv.length)
  let ux := if full then longestIdle st.uassocv else st.uassocv.length
  let st' := if full then st.scan.delUA ux false else st
  let ua : Assoc :=
    { adr := o.calloc, ua_id := st.uaid + 1, ua_cl := cl, ua_sv := sv, ua_svsock := svsock
      ua_svbound := peer.any fun a => decide (0 < a.2)
      ua_svtcp := !o.isUDP, ua_svSOCKS := SOCKSctl }
  if svsock < 0 ∨ svsock ∈ st.fds ∨ (0 ≤ SOCKSctl ∧ (SOCKSctl ∈ st.fds ∨ SOCKSctl = svsock)) ∨
      o.calloc ∈ (st.uassocv.eraseIdx ux).map Assoc.adr then none
  else
    some
      ({ st' with
          uassocv := if full then st'.uassocv.set ux ua else st'.uassocv ++ [ua]
          uaid := st.uaid + 1
          fds := if 0 ≤ SOCKSctl then SOCKSctl :: svsock :: st'.fds else svsock :: st'.fds
          peer := Function.update st'.peer svsock peer },
        some ua)

/-- A socket of `server_open` is connected if the port of the server is fixed. -/
def Relay.bindUA (st : Relay) (cf : Conf) (o : Open) (cl sv : Addr) (svsock : Int) :
    Option (Relay × Option Assoc) :=
  if cf.UDPRELAY_RPORT_FIX then
    if o.connect then st.addUA cf o cl sv svsock (some sv) (-1) else some (st, none)
  else st.addUA cf o cl sv svsock none (-1)

/-- There is no result for sockets and memory that are in use. -/
def Relay.newUA (st : Relay) (cf : Conf) (o : Open) (cl sv : Addr) :
    Option (Relay × Option Assoc) :=
  if !o.permitted then some (st, none)
  else
    match o.viaSocks, o.vsocket, o.open1 with
    | some (svsock, ctl, peer), _, _ => st.addUA cf o cl sv svsock peer ctl
    | none, some (svsock, conn), _ =>
      st.addUA cf o cl sv svsock (if conn then some sv else none) (-1)
    | none, none, some svsock => st.bindUA cf o cl sv svsock
    | none, none, none =>
      if st.uassocv = [] then some (st, none)
      else
        let st' := st.scan.delUA (longestIdle st.uassocv) true
        match o.open2 with
        | none => some (st', none)
        | some svsock => st'.bindUA cf o cl sv svsock

/-! ### The round -/

def Assoc.idle (ua : Assoc) (now : Nat) : Nat := (now + 2 ^ 32 - ua.ua_mtime) % 2 ^ 32

/-- An association that moves into the place of a deleted one is passed over. -/
def Relay.killFrom (cf : Conf) (now : Nat) : Nat → Relay → Nat → Relay
  | 0, st, _ => st
  | n + 1, st, ux =>
    match st.uassocv[ux]? with
    | none => st
    | some ua =>
      let st' := st.use (some ua.ua_id)
      Relay.killFrom cf now n (if cf.IO_TIMEOUT < ua.idle now then st'.delUA ux true else st')
        (ux + 1)

def Relay.killTimeouts (st : Relay) (cf : Conf) (now : Nat) : Relay :=
  Relay.killFrom cf now (st.uassocv.length + 1) st 0

def Assoc.slot (ua : Assoc) (sock : Int) : Slot := ⟨ua.adr, ua.ua_id, sock⟩

def clSlots (uav : List Assoc) : List Slot :=
  (uav.filter fun ua => ua.ua_clpriv).map fun ua => ua.slot ua.ua_clsock

def svSlots (uav : List Assoc) : List Slot := uav.map fun ua => ua.slot ua.ua_svsock

def ctlSlots (uav : List Assoc) : List Slot :=
  (uav.filter fun ua => decide (0 ≤ ua.ua_svSOCKS)).map fun ua => ua.slot ua.ua_svSOCKS

/-- The arrays are filled again if `update` is set. -/
def Relay.updated (st : Relay) : Relay :=
  if st.update then
    { st.scan with
      update := false
      cls := clSlots st.uassocv
      svs := svSlots st.uassocv
      ctls := ctlSlots st.uassocv }
  else st

/-- The ready elements of a part of the arrays. -/
def pick {α : Type} (readyv : Nat → Bool) (base : Nat) (l : List α) : List α :=
  ((l.zipIdx base).filter fun p => readyv p.2).map Prod.fst

def Relay.poll (st : Relay) (cf : Conf) (nready : Int) (readyv : Nat → Bool) (now : Nat) : Relay :=
  if nready < 0 then { st with stopped := true }
  else if nready = 0 then
    if cf.SERVER_TIMEOUT ≠ 0 ∧ st.lastrelay ≠ 0 ∧ cf.SERVER_TIMEOUT < now - st.lastrelay then
      { st with stopped := true }
    else { st.killTimeouts cf now with update := true }
  else
    { st with
      lastrelay := now
      todoPorts := pick readyv 0 (List.range cf.csc)
      todoCls := pick readyv cf.csc st.cls
      todoSvs := pick readyv (cf.csc + st.cls.length) st.svs
      todoCtls := pick readyv (cf.csc + st.cls.length + st.svs.length) st.ctls }

/-- `Send` goes to the peer of the socket. -/
def Relay.toServ (st : Relay) (cf : Conf) (ua : Assoc) (data : List UInt8) (cl : Addr)
    (sx : Option Nat) (now : Nat) : Relay :=
  let dst :=
    if 0 ≤ ua.ua_svSOCKS then some (cf.svhost, st.svport)
    else if ua.ua_svtcp || ua.ua_svbound || cf.UDPRELAY_RPORT_FIX then st.peer ua.ua_svsock
    else some (cf.svhost, st.svport)
  let sent := dst.toList.map fun a => Event.toServ cl sx ua.ua_id a data
  { st.modify ua.adr fun u => { u with ua_mtime := now % 2 ^ 32 } with
    log := sent ++ .use (some ua.ua_id) :: st.log }

/-- A mapped port changes the port of the server. -/
def Relay.setPort (st : Relay) (cf : Conf) (sx : Nat) : Relay :=
  if cf.svportmap ≠ 0 then { st with svport := cf.portnumv sx } else st

def Relay.accept (st : Relay) (cf : Conf) (sx : Nat) (clsk : Int) (src : Addr) (o : Open) :
    Option Relay :=
  if 0 ≤ clsk ∧ clsk ∈ st.fds then none
  else
    let st1 := if 0 ≤ clsk then { st with fds := clsk :: st.fds } else st
    if clsk ≤ 0 ∨ src.2 ≤ 0 then some st1
    else
      let st2 := st1.setPort cf sx
      match st2.newUA cf o src (cf.svhost, st2.svport) with
      | none => none
      | some (st3, none) => some { st3.use none with update := true }
      | some (st3, some ua) =>
        some
          { (st3.use (some ua.ua_id)).modify ua.adr fun u =>
              { u with ua_clsock := clsk, ua_clpriv := true } with update := true }

def Relay.recvPort (st : Relay) (cf : Conf) (sx : Nat) (data : List UInt8) (src : Addr) (o : Open)
    (now : Nat) : Option Relay :=
  if data = [] then some { st with todoPorts := [] }
  else
    let st1 := (st.setPort cf sx).scan
    match findUAbysrc st1.uassocv src with
    | some ua => some (st1.toServ cf ua data src (some sx) now)
    | none =>
      match st1.newUA cf o src (cf.svhost, st1.svport) with
      | none => none
      | some (st2, none) => some st2
      | some (st2, some ua) =>
        let st3 := (st2.use (some ua.ua_id)).modify ua.adr fun u => { u with ua_clsock := cf.csv sx }
        if ua.ua_svsock < 0 then some st3
        else some ({ st3 with update := true }.toServ cf ua data src (some sx) now)

/-- The association of an element is deleted if it is in the table. -/
def Relay.reset (st : Relay) (s : Slot) : Relay :=
  match getUAx st.uassocv s with
  | none => st
  | some ux => { st.delUA ux true with update := true }

def Relay.recvClient (st : Relay) (cf : Conf) (s : Slot) (data : List UInt8) (now : Nat) : Relay :=
  if data = [] then st.reset s
  else
    match deref st.uassocv s.adr with
    | none => st.use (some s.id)
    | some ua => (st.use (some s.id)).toServ cf ua data ua.ua_cl none now

/-- The association whose socket has a number. -/
def owner (uav : List Assoc) (sock : Int) : Option Nat :=
  (uav.find? fun ua => ua.ua_svsock == sock).map Assoc.ua_id

def Relay.recvServer (st : Relay) (s : Slot) (data : List UInt8) (src : Addr) (now : Nat) : Relay :=
  let st1 := st.use (some s.id)
  match deref st.uassocv s.adr with
  | none => st1
  | some ua =>
    if data = [] then if ua.ua_svtcp then st1.reset s else st1
    else
      { st1.modify ua.adr fun u => { u with ua_mtime := now % 2 ^ 32 } with
        log := .toClnt (owner st.uassocv s.sock) src ua.ua_cl ua.ua_clsock data :: st1.log }

/-- One turn of a loop; empty data are a failed `recv`. -/
inductive Act
  | poll (nready : Int) (readyv : Nat → Bool) (now : Nat)
  | accept (clsk : Int) (src : Addr) (o : Open)
  | recvPort (data : List UInt8) (src : Addr) (o : Open) (now : Nat)
  | recvClient (data : List UInt8) (now : Nat)
  | recvServer (data : List UInt8) (src : Addr) (now : Nat)
  | control

/-- A round begins. -/
def Relay.top (st : Relay) : Prop :=
  st.stopped = false ∧ st.todoPorts = [] ∧ st.todoCls = [] ∧ st.todoSvs = [] ∧ st.todoCtls = []

instance (st : Relay) : Decidable st.top := inferInstanceAs (Decidable (_ ∧ _))

/-- The loops come one after the other. -/
def step (cf : Conf) (st : Relay) : Act → Option Relay
  | .poll nready readyv now =>
    if st.top then some (st.updated.poll cf nready readyv now) else none
  | .accept clsk src o =>
    match st.todoPorts with
    | sx :: rest =>
      if cf.istcp sx then { st with todoPorts := rest }.accept cf sx clsk src o else none
    | [] => none
  | .recvPort data src o now =>
    match st.todoPorts with
    | sx :: rest =>
      if cf.istcp sx then none else { st with todoPorts := rest }.recvPort cf sx data src o now
    | [] => none
  | .recvClient data now =>
    match st.todoPorts, st.todoCls with
    | [], s :: rest => some ({ st with todoCls := rest }.recvClient cf s data now)
    | _, _ => none
  | .recvServer data src now =>
    match st.todoPorts, st.todoCls, st.todoSvs with
    | [], [], s :: rest => some ({ st with todoSvs := rest }.recvServer s data src now)
    | _, _, _ => none
  | .control =>
    match st.todoPorts, st.todoCls, st.todoSvs, st.todoCtls with
    | [], [], [], s :: rest => some ({ st with todoCtls := rest }.reset s)
    | _, _, _, _ => none

/-- The table is empty at first, and the incoming ports are open. -/
def init (cf : Conf) : Relay where
  uassocv := []
  uaid := 0
  svport := cf.DST_PORT
  update := false
  lastrelay := 0
  cls := []
  svs := []
  ctls := []
  todoPorts := []
  todoCls := []
  todoSvs := []
  todoCtls := []
  stopped := false
  fds := (List.range cf.csc).map cf.csv
  peer := fun _ => none
  log := []

end delegate.udp
