-- The table of named host lists (hostlist.cpp): `addHostListTab` defines a
-- list, overwrites it or appends to it, and `addHostList1` adds the
-- elements of its text one by one, with groups like `{a,b}` expanded.
import Delegate.HostCompile

open ctext delegate.vaddr

namespace delegate.hostlist

/-! ## The elements of a text -/

/-- `users@hosts`, but not `host/@class`. -/
def hostpart (hostmask : Text) : Option (Text × Text) :=
  match afterChr '@' hostmask with
  | some hosts =>
    if (beforeChr '@' hostmask).getLast? = some '/' then none
    else some (beforeChr '@' hostmask, hosts)
  | none => none

/-- A group of hosts with the operator and the users that all its elements
take. -/
structure Group where
  op : Option Char
  users : Option Text
  hosts : Text

/-- The group that `addHL` finds. An empty text has its NUL as the operator,
and is followed by the text beyond it. -/
def addHL (hostmask beyond : Text) : Option Group :=
  let (op, m) := match hostmask with
    | [] => (none, beyond)
    | c :: s => if "+!-?".toList.contains c then (some c, s) else (some '+', c :: s)
  let list := m.take 2047
  let (users, hosts) := match hostpart list with
    | some (u, h) => (some u, h)
    | none => (none, list)
  if hosts.head? = some '{' ∧ hosts.getLast? = some '}' then some ⟨op, users, hosts⟩ else none

/-- `addHL1`: one element of a group as `addHostList1` gets it. -/
def Group.elem (g : Group) (hostmask : Text) : Elem :=
  let text := match g.users with
    | some u => u ++ '@' :: hostmask
    | none => hostmask
  match g.op with
  | some c => ⟨(c :: text).take 2047, []⟩
  | none => ⟨[], text.take 2046⟩

/-- The elements that set a flag of the list. -/
def flagOf (hostmask : Text) : Option (BitVec 16) :=
  if hostmask = "/a".toList then some HL_BYADDR
  else if hostmask = "/u".toList then some HL_BYAUTH
  else if hostmask = "/R".toList then some HL_XRANDOM
  else none

/-- `!!host` is `host`, and `+!host` is `!host`. -/
def stripOps (hostmask : Text) : Text :=
  let m := match hostmask with
    | '!' :: '!' :: s => s
    | s => s
  match m with
  | '+' :: '!' :: s => '!' :: s
  | s => s

def HostList.addFlag (hl : HostList) (f : BitVec 16) : HostList :=
  { hl with hl_flags := hl.hl_flags ||| f }

def HostList.addHost (hl : HostList) (e : Host) : HostList :=
  { hl with hl_List := hl.hl_List ++ [e] }

/-- One element that is no group. Before a first element with `!` stands an
element for all hosts. -/
def addHostOne (S : Site) (listid : Text → Nat) (hl : HostList) (hostmask : Text) : HostList :=
  let hl :=
    if hl.hl_List.isEmpty && hostmask.head? = some '!' && hostmask ≠ "!*".toList then
      hl.addHost (makeHost S listid hl.hl_flags ['*'])
    else hl
  hl.addHost (makeHost S listid hl.hl_flags hostmask)

/-- `addHostList1`, with calls at most `depth` deep. A group such as
`{a}b{c}` is its own element, and no depth is enough for it. -/
def addHostList1 (S : Site) (listid : Text → Nat) : Nat → Elem → HostList → Option HostList
  | 0, _, _ => none
  | depth + 1, e, hl =>
    match flagOf e.text with
    | some f => some (hl.addFlag f)
    | none =>
      match addHL (stripOps e.text) e.beyond with
      | some g =>
        (scan_ListL ',' g.hosts).foldlM
          (fun hl x => addHostList1 S listid depth (g.elem x.text) hl) hl
      | none => some (addHostOne S listid hl (stripOps e.text))

/-! ## The table -/

/-- The named lists in the order of their ids, from 1 on. -/
abbrev Tab := List HostList

def indexOf (tab : Tab) (name : Text) : Option Nat := tab.findIdx? (fun hl => hl.hl_what = name)

/-- `strid`: the id of a name, or 0. -/
def idOf (tab : Tab) (name : Text) : Nat := (indexOf tab name).elim 0 (· + 1)

/-- One definition of a named list. -/
structure Definition where
  dname : Text
  dhostlist : Text

/-- A `-` before the name: no resolution. -/
def Definition.noresolv (d : Definition) : Bool := d.dname.head? = some '-'

def Definition.fullname (d : Definition) : Text := if d.noresolv then d.dname.drop 1 else d.dname

/-- The name before `/`. -/
def Definition.aname (d : Definition) : Text :=
  if d.fullname.contains '/' then (beforeChr '/' d.fullname).take 63 else d.fullname

/-- The letters after `/`. -/
def Definition.aflags (d : Definition) : Text := (afterChr '/' d.fullname).getD []

def Definition.apptype (d : Definition) : Bool := d.aflags.contains '+'

def Definition.applist (d : Definition) : Bool := "+,".toList.isPrefixOf d.dhostlist

def Definition.ahostlist (d : Definition) : Text :=
  if d.applist then d.dhostlist.drop 2 else d.dhostlist

/-- The flags that the definition sets. -/
def Definition.flags (d : Definition) : BitVec 16 :=
  let on (b : Bool) (f : BitVec 16) : BitVec 16 := if b then f else 0
  on (d.aflags.contains 'p') HL_PROTECT ||| on (d.aflags.contains 'c') HL_BYCLHOST |||
    on (d.aflags.contains 'i') HL_NOIDENT ||| on (d.aflags.contains 'r' || d.noresolv) HL_NORESOLV |||
    on (d.aflags.contains 'a') HL_BYADDR ||| on (d.aflags.contains 'u') HL_BYAUTH |||
    on (d.aflags.contains 'A') HL_BYAGENT

/-- What is left of a list before its new elements are added. A protected
list is only reported, and kept like a list that is appended to. -/
def Definition.base (d : Definition) (HL : HostList) : HostList :=
  if HL.has HL_PROTECT then HL
  else if HL.has HL_APPEND || d.apptype || d.applist then HL
  else { HL with hl_List := [] }

/-- The list of a name that is new. -/
def Definition.fresh (d : Definition) : HostList :=
  { hl_what := d.aname, hl_flags := if d.apptype then HL_APPEND else 0 }

/-- The end of `addHostListTab`: the flags and the elements. -/
def fill (S : Site) (depth : Nat) (listid : Text → Nat) (d : Definition) (HL : HostList) :
    Option HostList :=
  (scan_ListL ',' d.ahostlist).foldlM (fun hl e => addHostList1 S listid depth e hl)
    (HL.addFlag d.flags)

/-- `addHostListTab`. There is no table after calls that nest too deep. -/
def addHostListTab (S : Site) (depth : Nat) (tab : Tab) (d : Definition) : Option Tab :=
  match indexOf tab d.aname with
  | some i =>
    tab[i]?.bind fun HL => (fill S depth (idOf tab) d (d.base HL)).map (tab.set i)
  | none =>
    (fill S depth (idOf (tab ++ [d.fresh])) d d.fresh).map fun HL => tab ++ [HL]

/-- A run of definitions. -/
def defineAll (S : Site) (depth : Nat) (tab : Tab) (ds : List Definition) : Option Tab :=
  ds.foldlM (addHostListTab S depth) tab

/-- `init_hostListTab`: the lists that are there from the start. -/
def init_hostListTab (S : Site) (depth : Nat) : Option Tab :=
  defineAll S depth []
    [⟨".localnet".toList, "localhost,./.,-/.,.o/.".toList⟩, ⟨".RELIABLE".toList, "*".toList⟩,
      ⟨".socksdst".toList, "!.localnet".toList⟩]

end delegate.hostlist
