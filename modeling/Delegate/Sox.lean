-- The socket multiplexer (sox.cpp): the agents of the local sockets, the packets that they send
-- to each other through one channel, and what an event of a socket or a packet does to them.
import Delegate.Runs

namespace delegate.sox

abbrev NSOCK : Nat := 64
def MAXPENDING : Nat := 4
def PWSIZE : Nat := 16 * 1024
def PHSIZE : Nat := 8
def MAXBUFSIZE : Nat := (MAXPENDING + 2) * PWSIZE
def PqueSize : Nat := MAXPENDING

/-- Seconds for which an agent waits with output that its socket does not take. -/
def Llinger : Nat := 3

/-- `(Aid)-1`: no agent. -/
def noAid : Nat := 255

/-- `unsigned int`. -/
def wrap (n : Int) : Nat := (n % 2 ^ 32).toNat

/-! ## Packets and agents -/

/-- The type of a packet and its payload. -/
inductive Body
  | CONNECT (conndata : List UInt8)
  | CONNECTED (conndata : List UInt8)
  | SEND (data : List UInt8)
  | SENT (sent : Nat)
  | CLOSE
  | CLOSED
deriving DecidableEq, Repr

structure Packet where
  Said : Nat
  Raid : Nat
  body : Body
deriving DecidableEq, Repr

/-- The status of an agent of a connection. -/
inductive Stat
  | CONNECT
  | CONNECTED
  | SEND
  | SENDING
  | SENT
  | CLOSE
  | CLOSED
deriving DecidableEq, Repr

def Stat.closing : Stat → Bool
  | .CLOSE => true
  | .CLOSED => true
  | _ => false

/-- What of an agent its socket and its packets change. -/
structure Port where
  stat : Stat
  rpend : Nat
  lbuf : List UInt8
  ltCLOSED : Nat
  rtCLOSED : Nat
deriving DecidableEq, Repr

structure Agent extends Port where
  Laid : Nat
  Xaid : Nat
  sock : Nat
deriving DecidableEq, Repr

/-- A port after an event, what it sends to its peer, and the bytes read from its socket and
written to it. -/
structure Event where
  port : Port
  out : Option Body
  read : List UInt8
  written : List UInt8

/-- `writeb`: the bytes that are written and those that are kept. The socket takes at most `w1`
bytes of the buffer, and at most `w2` of what is behind it. -/
def writeb (b_buf buf : List UInt8) (w1 w2 : Nat) : List UInt8 × List UInt8 :=
  if b_buf ≠ [] ∧ w1 < b_buf.length then (b_buf.take w1, b_buf.drop w1 ++ buf)
  else (b_buf ++ buf.take w2, buf.drop w2)

/-- `sox_relay1`: the socket is ready, and `data` is read from it. -/
def Port.relay1 (p : Port) (PackSize time : Nat) (data : List UInt8) : Event :=
  if p.stat.closing then ⟨p, none, [], []⟩
  else if data = [] then
    ⟨{ p with stat := .CLOSE, lbuf := [], ltCLOSED := time }, some .CLOSE, [], []⟩
  else
    let rpend := wrap (p.rpend + data.length)
    ⟨{ p with
        rpend := rpend
        stat := if PackSize * PqueSize < rpend then .SENDING else .SEND },
      some (.SEND data), data, []⟩

/-- `sox_clock1` where the socket takes output. -/
def Port.flush (p : Port) (w : Nat) : Event :=
  let (written, rem) := writeb p.lbuf [] w 0
  let sent := p.lbuf.length - rem.length
  if sent = 0 then ⟨{ p with lbuf := rem }, none, [], written⟩
  else
    ⟨{ p with lbuf := rem, stat := if p.stat = .CLOSED then .CLOSED else .SENT },
      some (.SENT sent), [], written⟩

/-- `sox_COMMIN` for an agent that a packet is addressed to. -/
def Port.commin (p : Port) (PackSize time w1 w2 : Nat) : Body → Event
  | .CONNECT _ => ⟨p, none, [], []⟩
  | .CONNECTED conndata =>
    if p.stat.closing then ⟨p, none, [], []⟩
    else ⟨{ p with stat := .CONNECTED }, none, [], conndata.take w1⟩
  | .SEND data =>
    if p.stat.closing then ⟨p, none, [], []⟩
    else
      let (written, rem) := writeb p.lbuf data w1 w2
      ⟨{ p with lbuf := rem }, if written = [] then none else some (.SENT written.length), [],
        written⟩
  | .SENT sent =>
    if p.stat.closing then ⟨p, none, [], []⟩
    else
      let rpend := wrap (p.rpend - sent)
      ⟨{ p with rpend := rpend, stat := if rpend < PackSize * PqueSize then .SENT else p.stat },
        none, [], []⟩
  | .CLOSE =>
    ⟨{ p with stat := .CLOSED, rtCLOSED := time }, if p.stat = .CLOSE then none else some .CLOSED,
      [], []⟩
  | .CLOSED => ⟨{ p with stat := .CLOSED }, none, [], []⟩

/-- The port of a new agent. -/
def newPort (stat : Stat) : Port := ⟨stat, 0, [], 0, 0⟩

/-! ## One end of the tunnel -/

/-- The agents of the connections. The ids of the other agents, those of the channel and of the
listening sockets, are only seen in `aidactive`. The time is never 0. -/
structure Sox where
  agents : List Agent
  nlaid : Nat
  aidactive : Nat → Bool
  time : ℕ+
  PackSize : Nat

def newlaid (sox : Sox) : Option Nat :=
  ((List.range' sox.nlaid (NSOCK - 1 - sox.nlaid)).find? fun ci => !sox.aidactive ci).or
    ((List.range sox.nlaid).find? fun ci => !sox.aidactive ci)

/-- The agent and its id, if there is an id that is not active. -/
def newAgent (sox : Sox) (raid sock : Nat) (stat : Stat) : Option (Nat × Sox) :=
  (newlaid sox).map fun ci =>
    (ci, { sox with
      agents := sox.agents ++ [{ newPort stat with Laid := ci, Xaid := raid, sock := sock }]
      nlaid := ci + 1
      aidactive := Function.update sox.aidactive ci true })

/-- The agents with one of them replaced: the first that is meant. -/
def setAgent (which : Agent → Bool) (a' : Agent) : List Agent → List Agent
  | [] => []
  | a :: agents => if which a then a' :: agents else a :: setAgent which a' agents

def Sox.set (sox : Sox) (which : Agent → Bool) (a' : Agent) : Sox :=
  { sox with agents := setAgent which a' sox.agents }

/-- A closed agent is removed, but not at once when the socket may still take its output. -/
def removable (time : Nat) (p : Port) : Bool :=
  p.stat = .CLOSED ∧
    ¬ (p.lbuf ≠ [] ∧ p.ltCLOSED = 0 ∧ ¬ Llinger < wrap ((time : Int) - p.rtCLOSED))

/-- The first loop of `sox_fdset`: the agent behind one that is removed is passed over. -/
def sox_fdset.loop (time : Nat) : List Agent → (Nat → Bool) → List Agent × (Nat → Bool)
  | [], aidactive => ([], aidactive)
  | a :: agents, aidactive =>
    if removable time a.toPort then
      let aidactive := Function.update aidactive a.Laid false
      match agents with
      | [] => ([], aidactive)
      | b :: agents => (b :: (loop time agents aidactive).1, (loop time agents aidactive).2)
    else (a :: (loop time agents aidactive).1, (loop time agents aidactive).2)

def sox_fdset (sox : Sox) : Sox :=
  { sox with
    agents := (sox_fdset.loop sox.time sox.agents sox.aidactive).1
    aidactive := (sox_fdset.loop sox.time sox.agents sox.aidactive).2 }

/-- The second loop of `sox_fdset`, and `sox_relay1` for what was polled before a close: no
input is taken for a connection that is not answered, or whose peer has too much of it. -/
def Stat.input : Stat → Bool
  | .CONNECT => false
  | .SENDING => false
  | _ => true

/-- What an event at one end of the tunnel does: the end after it, the socket that it is about,
the packet that is sent, and the bytes that are read from the socket and written to it. -/
structure Done where
  state : Sox
  sock : Nat
  out : Option Packet
  read : List UInt8
  written : List UInt8

/-- `sox_accept1` with the socket `sock`, and `conndata` read from it by `get_conndata`. -/
def sox_accept1 (sox : Sox) (sock : Nat) (conndata : List UInt8) : Option Done :=
  (newAgent sox noAid sock .CONNECT).map fun r =>
    ⟨r.2, sock, some ⟨r.1, noAid, .CONNECT conndata⟩, conndata, []⟩

/-- An event of the socket of an agent: its packets go to the peer of the agent. -/
def Sox.event (sox : Sox) (sock : Nat) (event : Port → Option Event) : Option Done := do
  let a ← sox.agents.find? (·.sock == sock)
  let e ← event a.toPort
  some ⟨sox.set (·.sock == sock) { a with toPort := e.port }, sock,
    e.out.map fun body => ⟨a.Laid, a.Xaid, body⟩, e.read, e.written⟩

/-- `sock2comm` reads no more than what fits in a packet. -/
def sox_relay1 (sox : Sox) (sock : Nat) (data : List UInt8) : Option Done :=
  sox.event sock fun p =>
    if p.stat.input ∧ data.length ≤ sox.PackSize - PHSIZE then
      some (p.relay1 sox.PackSize sox.time data)
    else none

def sox_flush (sox : Sox) (sock w : Nat) : Option Done :=
  sox.event sock fun p => some (p.flush w)

/-- `sox_COMMIN`. For a CONNECT, `accepted` is what `get_conndata` reads from the socket `sock`
that `sox_connect1` opens, or that none is opened. The sockets take `w1` and `w2` bytes. -/
def sox_COMMIN (sox : Sox) (sock : Nat) (accepted : Option (List UInt8)) (w1 w2 : Nat)
    (pack : Packet) : Option Done :=
  match pack.body, sox.agents.find? (·.Laid == pack.Raid) with
  | .CONNECT conndata, ApR =>
    if ApR.any (·.stat.closing) then some ⟨sox, sock, none, [], []⟩
    else
      match accepted with
      | none => some ⟨sox, sock, some ⟨noAid, pack.Said, .CLOSE⟩, [], []⟩
      | some conndata' =>
        (newAgent sox pack.Said sock .CONNECTED).map fun r =>
          ⟨r.2, sock, some ⟨r.1, pack.Said, .CONNECTED conndata'⟩, conndata', conndata.take w1⟩
  | body, some a =>
    let e := a.toPort.commin sox.PackSize sox.time w1 w2 body
    let Xaid :=
      match body with
      | .CONNECTED _ => if a.stat.closing then a.Xaid else pack.Said
      | _ => a.Xaid
    some ⟨sox.set (·.Laid == pack.Raid) { a with toPort := e.port, Xaid := Xaid }, a.sock,
      e.out.map fun reply => ⟨pack.Raid, pack.Said, reply⟩, e.read, e.written⟩
  | .CLOSE, none => some ⟨sox, sock, some ⟨pack.Raid, pack.Said, .CLOSED⟩, [], []⟩
  | _, none => some ⟨sox, sock, none, [], []⟩

/-- `set_PACKSIZE`, with `PackSizeExp` of the configuration or 0. -/
def set_PACKSIZE (PackSizeExp PackSize pwsize : Nat) : Nat :=
  let pwsize := if PackSizeExp ≠ 0 ∧ PackSizeExp < pwsize then PackSizeExp else pwsize
  if pwsize < PackSize then
    if 128 < pwsize then pwsize else PackSize
  else if PackSize < pwsize then
    if PWSIZE < pwsize then PWSIZE else pwsize
  else PackSize

/-! ## The tunnel -/

/-- Two ends, the packets on their way from each of them, and what was read from the sockets and
written to them. A connection has a number, which no end sees: it names the sockets that are
opened for the connection at both ends, and stands beside the packets that are about it. -/
structure Tunnel where
  side : Bool → Sox
  comm : Bool → List (Nat × Packet)
  got : Bool → Nat → List UInt8
  put : Bool → Nat → List UInt8
  conns : Nat

/-- What can happen at an end. -/
inductive Act
  | accept (conndata : List UInt8)
  | relay1 (sock : Nat) (data : List UInt8)
  | flush (sock w : Nat)
  | commin (accepted : Option (List UInt8)) (w1 w2 : Nat)
  | fdset
  | clock (time : ℕ+)
  | packsize (PackSizeExp pwsize : Nat)

def add (f : Bool → Nat → List UInt8) (b : Bool) (c : Nat) (s : List UInt8) :
    Bool → Nat → List UInt8 :=
  Function.update f b (Function.update (f b) c (f b c ++ s))

def Tunnel.after (t : Tunnel) (b : Bool) (r : Done) : Tunnel :=
  { t with
    side := Function.update t.side b r.state
    comm := Function.update t.comm b (t.comm b ++ r.out.toList.map fun pack => (r.sock, pack))
    got := add t.got b r.sock r.read
    put := add t.put b r.sock r.written }

def Tunnel.step (t : Tunnel) : Bool × Act → Option Tunnel
  | (b, .accept conndata) =>
    (sox_accept1 (t.side b) t.conns conndata).map fun r => { t.after b r with conns := t.conns + 1 }
  | (b, .relay1 sock data) => (sox_relay1 (t.side b) sock data).map (t.after b)
  | (b, .flush sock w) => (sox_flush (t.side b) sock w).map (t.after b)
  | (b, .commin accepted w1 w2) =>
    match t.comm !b with
    | [] => none
    | (c, pack) :: comm =>
      (sox_COMMIN (t.side b) c accepted w1 w2 pack).map fun r =>
        { t with comm := Function.update t.comm (!b) comm }.after b r
  | (b, .fdset) => some { t with side := Function.update t.side b (sox_fdset (t.side b)) }
  | (b, .clock time) =>
    some { t with side := Function.update t.side b { t.side b with time := time } }
  | (b, .packsize exp pwsize) =>
    some { t with
      side := Function.update t.side b
        { t.side b with PackSize := set_PACKSIZE exp (t.side b).PackSize pwsize } }

/-- A tunnel without connections. The first ids are those of the channel and of the listening
sockets. -/
def Tunnel.start (reserved : Bool → Fin NSOCK) (time : Bool → ℕ+) : Tunnel :=
  ⟨fun b => ⟨[], reserved b, fun ci => ci < reserved b, time b, 512⟩, fun _ => [],
    fun _ _ => [], fun _ _ => [], 0⟩

end delegate.sox
