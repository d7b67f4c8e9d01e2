-- The tree of DNS names (`dnsnode.cpp`): nodes with labels, linked to their
-- parents, children and peers, and a growing table of the nodes by their ids.
import Delegate.CText
import Delegate.Segments

open ctext

namespace delegate.dnsnode

/-! ## Data -/

/-- A record of a node, at its address. -/
structure Attr where
  addr : Nat
  a_flag : UInt32
  a_date : Int
  a_ttl : Int
  a_data : List UInt8
  deriving DecidableEq, Repr

/-- A node. The pointers are addresses of nodes. -/
structure Node where
  n_nid : Nat := 0
  leaf : Bool := false
  n_label : Text := []
  n_phase : Int := 0
  n_attr : List Attr := []
  n_parent : Option Nat := none
  n_child : Option Nat := none
  n_peer : Option Nat := none

def MAXLEV : Nat := 36

/-- The nodes by their addresses, how many nodes and records there are, and the table of the
ids. -/
structure Store where
  heap : Nat → Node
  next : Nat
  records : Nat := 0
  Nodes : List Nat
  NodesA : Nat
  NodesX : Nat
  NID : Nat

def NoNode : Nat := 0
def TopNode : Nat := 1

/-- The store at the start. -/
def Store.init : Store where
  heap p := if p = NoNode then { n_nid := 0, leaf := true, n_label := ['?'] }
    else if p = TopNode then { n_nid := 1, leaf := true } else {}
  next := 2
  Nodes := [NoNode, TopNode]
  NodesA := 0
  NodesX := 2
  NID := 1

def Store.setNode (s : Store) (p : Nat) (n : Node) : Store :=
  { s with heap := Function.update s.heap p n }

/-! ## Nodes -/

/-- The table for `n` ids, as it is allocated anew. -/
def growTable (nodes : List Nat) (n : Nat) : List Nat :=
  let nsize := if n * 8 < 1024 then 1024 else n * 8
  let size := nsize / 8
  (nodes ++ List.replicate size NoNode).take size

/-- `newnode` -/
def newnode (s : Store) : Store × Nat :=
  let NID := s.NID + 1
  let s := if s.NodesX ≤ NID then
      { s with NodesA := s.NodesA + 1, NodesX := (s.NodesA + 1) * MAXLEV
               Nodes := growTable s.Nodes ((s.NodesA + 1) * MAXLEV) }
    else s
  let Np := s.next
  ({ s with heap := Function.update s.heap Np { n_nid := NID }, next := s.next + 1
            Nodes := s.Nodes.set NID Np, NID := NID }, Np)

/-- The loop over the peers from `lp` on, for one with the label. -/
def findPeer (heap : Nat → Node) (label : Text) : Nat → Option Nat → Option (Option Nat)
  | _, none => some none
  | 0, some _ => none
  | n + 1, some lp =>
    if strcaseeq (heap lp).n_label label then some (some lp)
    else findPeer heap label n (heap lp).n_peer

/-- A new child of `np`, before its other children. -/
def addChild (s : Store) (np : Nat) (label : Text) : Store × Nat :=
  let child := (s.heap np).n_child
  let (s, lp) := newnode s
  let s := s.setNode lp
    { s.heap lp with n_label := label, n_parent := some np, n_peer := child }
  (s.setNode np { s.heap np with n_child := some lp }, lp)

/-- The loop of `nsearch` over the labels, from the last one on. It ends without a node where
there is none for a label, and none is to be created. -/
def descend (create : Bool) : List Text → Store → Option (Store × Option Nat)
  | [], s => some (s, some TopNode)
  | label :: labels, s =>
    match descend create labels s with
    | none => none
    | some (s, none) => some (s, none)
    | some (s, some np) =>
      match findPeer s.heap label s.next (s.heap np).n_child with
      | none => none
      | some (some lp) => some (s, some lp)
      | some none =>
        if create then
          let (s, lp) := addChild s np label
          some (s, some lp)
        else some (s, none)

/-- The labels of a name, with `lc` labels before, which take `lp` bytes of the buffer. -/
def nameLabels (lc lp : Nat) : Text → List Text
  | [] => []
  | c :: np =>
    if 511 ≤ lp then []
    else if MAXLEV ≤ lc then []
    else
      let label := (c :: np).takeWhile (· != '.')
      label.take (511 - lp) ::
        nameLabels (lc + 1) (lp + min (label.length + 1) (512 - lp))
          (((c :: np).dropWhile (· != '.')).drop 1)
termination_by np => np.length
decreasing_by
  have hdrop := (List.dropWhile_suffix (l := c :: np) (· != '.')).length_le
  simp only [List.length_drop, List.length_cons] at hdrop ⊢
  omega

/-- `nsearch`: the address of the node. -/
def nsearch (name : Text) (create : Bool) (s : Store) : Option (Store × Nat) :=
  let labels := nameLabels 0 0 name
  match if labels = [[]] then some (s, some TopNode) else descend create labels s with
  | none => none
  | some (s, none) => some (s, NoNode)
  | some (s, some np) =>
    if create then some (s.setNode np { s.heap np with leaf := true }, np) else some (s, np)

/-- `getnodename` from a node on. -/
def getnodename (heap : Nat → Node) : Nat → Nat → Option Text
  | 0, _ => none
  | n + 1, np =>
    match (heap np).n_parent with
    | none => some ((heap np).n_label ++ ['.'])
    | some pp =>
      if pp = TopNode then some (heap np).n_label
      else (getnodename heap n pp).map fun t => (heap np).n_label ++ '.' :: t

/-! ## Names and ids -/

/-- `getnode`: the node of an id. -/
def getnode (s : Store) (nid : Nat) : Nat := s.Nodes.getD nid NoNode

def DNS_putbyname (name : Text) (s : Store) : Option (Store × Nat) :=
  (nsearch name true s).map fun r => (r.1, (r.1.heap r.2).n_nid)

def DNS_getbyname (name : Text) (s : Store) : Option (Store × Nat) :=
  (nsearch name false s).map fun r => (r.1, (r.1.heap r.2).n_nid)

/-- `DNS_nodename` into a buffer of `siz` bytes. -/
def DNS_nodename (s : Store) (nid siz : Nat) : Option Text :=
  (getnodename s.heap s.next (getnode s nid)).map (·.take (siz - 1))

end delegate.dnsnode
