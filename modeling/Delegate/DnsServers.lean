-- The name servers for a node (`getns`): the configured ones, and those of the NS
-- records of the node and of its domains. `getns1` looks for room only after it
-- has stored a server, and is called for the next domain all the same.
import Delegate.DnsLookup

open ctext
open delegate.dns (TY_NS TY_A)

namespace delegate.dnsnode

/-! ## The pure model -/

/-- An address and a port. -/
structure VSAddr where
  addr : List UInt8
  port : Nat
  deriving DecidableEq, Repr

/-- What is known about a server: `rs_stat` tells that the entry is used. -/
structure ResStat where
  rs_stat : Bool
  rs_vsaddr : VSAddr
  rs_req : Nat
  rs_resp : Nat
  deriving DecidableEq, Repr

/-- The configured servers, and what `sortns` reads. -/
structure NsConf where
  NSLIST : List VSAddr
  lDNS_SORT : Bool
  resStats : List ResStat

/-- The vector of the caller, the indexes that were written, and the next index. -/
structure Servers where
  nservv : Nat → VSAddr
  written : List Nat := []
  nsx : Nat := 0

def Servers.set (v : Servers) (i : Nat) (ns : VSAddr) : Servers :=
  { v with nservv := Function.update v.nservv i ns, written := v.written ++ [i] }

/-- The loop of `getns` over the configured servers. One without a port is overwritten. -/
def configured : List VSAddr → Servers → Servers
  | [], v => v
  | ns :: nss, v =>
    let v := v.set v.nsx ns
    configured nss (if ns.port = 0 then v else { v with nsx := v.nsx + 1 })

/-- `getrs` -/
def getrs (conf : NsConf) (ns : VSAddr) : Option ResStat :=
  conf.resStats.find? fun rs => rs.rs_stat && rs.rs_vsaddr == ns

/-- `sortns`: a first server that never responded goes to the end. -/
def sortns (conf : NsConf) (v : Servers) : Servers :=
  if v.nsx ≤ 1 ∨ conf.lDNS_SORT = false then v
  else match getrs conf (v.nservv 0) with
    | some rs =>
      if 0 < rs.rs_req ∧ rs.rs_resp = 0 then
        { v with
          nservv := fun i => if i < v.nsx - 1 then v.nservv (i + 1)
            else if i = v.nsx - 1 then v.nservv 0 else v.nservv i
          written := v.written ++ List.range v.nsx }
      else v
    | none => v

/-- `DNS_getattr(nid,typemask(type),0,32,av)`: no record is too old, so the clock is not read. -/
def attrsOf (s : Store) (nid type : Nat) : List Attr :=
  (DNS_getattr nid (typemask type) 0 32 0 s).2

/-- The loop of `getns1` over the NS records. -/
def getns1Loop (s : Store) (nsc : Nat) : List Attr → Servers → Servers
  | [], v => v
  | a :: nsv, v =>
    match attrsOf s a.rr.ival TY_A with
    | [] => getns1Loop s nsc nsv v
    | aa :: _ =>
      let v := { v.set v.nsx ⟨(aa.a_data.drop 2).take 4, 53⟩ with nsx := v.nsx + 1 }
      if nsc ≤ v.nsx then v else getns1Loop s nsc nsv v

/-- `getns1`: the last record of the node comes first. -/
def getns1 (s : Store) (nid nsc : Nat) (v : Servers) : Servers :=
  getns1Loop s nsc (attrsOf s nid TY_NS).reverse v

def DNS_parent (s : Store) (nid : Nat) : Nat :=
  match (s.heap (getnode s nid)).n_parent with
  | some pp => (s.heap pp).n_nid
  | none => 0

/-- The loop of `getns` over the domains of a node, for at most `n` of them. -/
def getnsLoop (s : Store) (nsc : Nat) : Nat → Nat → Servers → Option Servers
  | _, 0, v => some v
  | 0, _ + 1, _ => none
  | n + 1, nid + 1, v =>
    getnsLoop s nsc n (DNS_parent s (nid + 1)) (getns1 s (nid + 1) nsc v)

/-- `getns` -/
def getns (s : Store) (conf : NsConf) (n nid nsc : Nat) (nservv : Nat → VSAddr) : Option Servers :=
  getnsLoop s nsc n nid (sortns conf (configured conf.NSLIST { nservv }))

/-! ## What the loops write -/

/-- The vector is written below `nsc` only, and no more than `nsc` servers are returned. -/
def InVector (nsc : Nat) (v : Servers) : Prop := (∀ i ∈ v.written, i < nsc) ∧ v.nsx ≤ nsc

/-- With no limit on the age, nothing is cleared. -/
theorem getattr_zero (s : Store) (nid ac : Nat) (mask : UInt32) (now : Int) :
    DNS_getattr nid mask 0 ac now s =
      (s, (((s.heap (getnode s nid)).n_attr.filter (·.has mask)).take (max ac 1))) := by
  unfold DNS_getattr getattr expireattr setAttrs Store.setNode
  simp

theorem configured_spec (nss : List VSAddr) (v : Servers) :
    (configured nss v).nsx = v.nsx + (nss.filter (·.port ≠ 0)).length ∧
      ∀ i ∈ (configured nss v).written, i ∈ v.written ∨ i < v.nsx + nss.length := by
  induction nss generalizing v with
  | nil => exact ⟨rfl, fun i hi => .inl hi⟩
  | cons ns nss ih =>
    unfold configured
    dsimp only
    split
    · rename_i hport
      obtain ⟨hnsx, hwritten⟩ := ih (v.set v.nsx ns)
      refine ⟨?_, ?_⟩
      · rw [hnsx]
        simp [Servers.set, hport]
      · intro i hi
        rcases hwritten i hi with hi | hi
        · rcases List.mem_append.mp hi with hi | hi
          · exact .inl hi
          · rw [List.mem_singleton.mp hi, List.length_cons]
            exact .inr (by omega)
        · simp only [Servers.set, List.length_cons] at hi ⊢
          exact .inr (by omega)
    · rename_i hport
      obtain ⟨hnsx, hwritten⟩ := ih { v.set v.nsx ns with nsx := v.nsx + 1 }
      refine ⟨?_, ?_⟩
      · simp only [Servers.set] at hnsx ⊢
        rw [hnsx]
        simp [hport]
        omega
      · intro i hi
        rcases hwritten i hi with hi | hi
        · rcases List.mem_append.mp hi with hi | hi
          · exact .inl hi
          · rw [List.mem_singleton.mp hi, List.length_cons]
            exact .inr (by omega)
        · simp only [List.length_cons] at hi ⊢
          exact .inr (by omega)

theorem sortns_spec (conf : NsConf) (v : Servers) :
    (sortns conf v).nsx = v.nsx ∧
      ∀ i ∈ (sortns conf v).written, i ∈ v.written ∨ i < v.nsx := by
  unfold sortns
  split
  · exact ⟨rfl, fun i hi => .inl hi⟩
  · split
    · split
      · refine ⟨rfl, fun i hi => ?_⟩
        rcases List.mem_append.mp hi with hi | hi
        · exact .inl hi
        · exact .inr (List.mem_range.mp hi)
      · exact ⟨rfl, fun i hi => .inl hi⟩
    · exact ⟨rfl, fun i hi => .inl hi⟩

/-- An NS record is usable if its server has an address. -/
def Attr.usable (s : Store) (a : Attr) : Bool := !(attrsOf s a.rr.ival TY_A).isEmpty

/-- How many servers `getns1` has for a node. -/
def usable (s : Store) (nid : Nat) : Nat := ((attrsOf s nid TY_NS).filter (·.usable s)).length

/-- How many of `u` servers are stored from the index `nsx` on. One is always stored. -/
def stored (nsc nsx u : Nat) : Nat := if u = 0 then 0 else max 1 (min (nsc - nsx) u)

theorem getns1Loop_spec (s : Store) (nsc : Nat) (nsv : List Attr) (v : Servers) :
    (getns1Loop s nsc nsv v).nsx = v.nsx + stored nsc v.nsx (nsv.filter (·.usable s)).length ∧
      (getns1Loop s nsc nsv v).written =
        v.written ++ List.range' v.nsx (stored nsc v.nsx (nsv.filter (·.usable s)).length) := by
  induction nsv generalizing v with
  | nil => simp [getns1Loop, stored]
  | cons a nsv ih =>
    unfold getns1Loop
    cases hattrs : attrsOf s a.rr.ival TY_A with
    | nil =>
      have hno : a.usable s = false := by simp [Attr.usable, hattrs]
      rw [List.filter_cons_of_neg (by simp [hno])]
      exact ih v
    | cons aa rest =>
      have hyes : a.usable s = true := by simp [Attr.usable, hattrs]
      rw [List.filter_cons_of_pos hyes, List.length_cons]
      generalize hu : (nsv.filter (·.usable s)).length = u at ih
      dsimp only [Servers.set]
      split
      · rename_i hfull
        have hone : stored nsc v.nsx (u + 1) = 1 := by
          unfold stored
          rw [if_neg (by omega)]
          omega
        rw [hone]
        exact ⟨rfl, rfl⟩
      · rename_i hroom
        have hmore : stored nsc v.nsx (u + 1) = 1 + stored nsc (v.nsx + 1) u := by
          unfold stored
          rw [if_neg (by omega)]
          split <;> omega
        obtain ⟨hnsx, hwritten⟩ := ih
          { nservv := Function.update v.nservv v.nsx ⟨(aa.a_data.drop 2).take 4, 53⟩
            written := v.written ++ [v.nsx], nsx := v.nsx + 1 }
        rw [hmore]
        refine ⟨?_, ?_⟩
        · rw [hnsx]
          dsimp only
          omega
        · rw [hwritten, List.append_assoc, Nat.add_comm 1, List.range'_succ]
          rfl

theorem getns1_spec (s : Store) (nid nsc : Nat) (v : Servers) :
    (getns1 s nid nsc v).nsx = v.nsx + stored nsc v.nsx (usable s nid) ∧
      (getns1 s nid nsc v).written =
        v.written ++ List.range' v.nsx (stored nsc v.nsx (usable s nid)) := by
  have hspec := getns1Loop_spec s nsc (attrsOf s nid TY_NS).reverse v
  rw [List.filter_reverse, List.length_reverse] at hspec
  exact hspec

/-! ## The domains of a node -/

/-- The nodes that the loop of `getns` goes over. -/
def domains (s : Store) : Nat → Nat → List Nat
  | _, 0 => []
  | 0, _ + 1 => []
  | n + 1, nid + 1 => (nid + 1) :: domains s n (DNS_parent s (nid + 1))

/-- With `m` servers from before, no domain has a server where those before it fill the vector. -/
def HaveRoom (nsc : Nat) : Nat → List Nat → Prop
  | _, [] => True
  | m, u :: us => (u ≠ 0 → m < nsc) ∧ HaveRoom nsc (m + u) us

theorem getnsLoop_written {s : Store} {nsc n nid : Nat} {v v' : Servers}
    (h : getnsLoop s nsc n nid v = some v') : ∀ i ∈ v.written, i ∈ v'.written := by
  induction n generalizing nid v with
  | zero =>
    cases nid with
    | zero =>
      cases h
      exact fun i hi => hi
    | succ nid => cases h
  | succ n ih =>
    cases nid with
    | zero =>
      cases h
      exact fun i hi => hi
    | succ nid =>
      intro i hi
      apply ih h
      rw [(getns1_spec s (nid + 1) nsc v).2]
      exact List.mem_append_left _ hi

/-- The vector is kept exactly if every domain with servers finds room. -/
theorem getnsLoop_inVector {s : Store} {nsc n nid m : Nat} {v v' : Servers}
    (h : getnsLoop s nsc n nid v = some v') (hv : InVector nsc v) (hm : v.nsx = min m nsc) :
    InVector nsc v' ↔ HaveRoom nsc m ((domains s n nid).map (usable s)) := by
  induction n generalizing nid v m with
  | zero =>
    cases nid with
    | zero =>
      cases h
      exact iff_of_true hv trivial
    | succ nid => cases h
  | succ n ih =>
    cases nid with
    | zero =>
      cases h
      exact iff_of_true hv trivial
    | succ nid =>
      obtain ⟨hnsx, hwritten⟩ := getns1_spec s (nid + 1) nsc v
      rw [domains, List.map_cons, HaveRoom]
      generalize usable s (nid + 1) = u at hnsx hwritten
      by_cases hroom : u ≠ 0 → m < nsc
      · have hnext : v.nsx + stored nsc v.nsx u = min (m + u) nsc := by
          unfold stored
          split
          · omega
          · rename_i hu
            have := hroom hu
            omega
        rw [hnext] at hnsx
        have hin : InVector nsc (getns1 s (nid + 1) nsc v) := by
          refine ⟨?_, by omega⟩
          intro i hi
          rw [hwritten] at hi
          rcases List.mem_append.mp hi with hi | hi
          · exact hv.1 i hi
          · have := List.mem_range'_1.mp hi
            omega
        rw [ih h hin hnsx]
        exact (and_iff_right hroom).symm
      · -- the vector is full, and a server is stored behind its end
        apply iff_of_false
        · intro hin
          obtain ⟨hu, hfull⟩ := Classical.not_imp.mp hroom
          have hlast : nsc ∈ (getns1 s (nid + 1) nsc v).written := by
            rw [hwritten]
            apply List.mem_append_right
            apply List.mem_range'_1.mpr
            unfold stored
            rw [if_neg hu]
            omega
          have hlater : nsc ∈ v'.written :=
            getnsLoop_written (show getnsLoop s nsc n _ (getns1 s (nid + 1) nsc v) = some v' from h)
              nsc hlast
          have := hin.1 nsc hlater
          omega
        · exact fun hall => hroom hall.1

/-! ## The root -/

/-- The root has no domain, and no node is put in its place. -/
structure Rooted (s : Store) : Prop where
  top : (s.heap TopNode).n_parent = none
  next : TopNode < s.next

theorem rooted_init : Rooted Store.init := ⟨rfl, by decide⟩

theorem Rooted.setNode {s : Store} (h : Rooted s) {p : Nat} {n : Node}
    (hn : n.n_parent = (s.heap p).n_parent) : Rooted (s.setNode p n) := by
  refine ⟨?_, h.next⟩
  unfold Store.setNode
  by_cases hp : TopNode = p
  · subst hp
    simp only [Function.update_self]
    rw [hn]
    exact h.top
  · simp only [Function.update_of_ne hp]
    exact h.top

theorem Rooted.setAttrs {s : Store} (h : Rooted s) (nid : Nat) (attrs : List Attr) :
    Rooted (dnsnode.setAttrs s nid attrs) :=
  h.setNode (p := getnode s nid) (n := { s.heap (getnode s nid) with n_attr := attrs }) rfl

theorem Rooted.newnode {s : Store} (h : Rooted s) : Rooted (dnsnode.newnode s).1 := by
  have hne : TopNode ≠ s.next := Nat.ne_of_lt h.next
  unfold dnsnode.newnode
  dsimp only
  split
  · refine ⟨?_, Nat.lt_succ_of_lt h.next⟩
    simp only [Function.update_of_ne hne]
    exact h.top
  · refine ⟨?_, Nat.lt_succ_of_lt h.next⟩
    simp only [Function.update_of_ne hne]
    exact h.top

theorem newnode_addr (s : Store) : (newnode s).2 = s.next := by
  unfold newnode
  dsimp only
  split <;> rfl

theorem Rooted.addChild {s : Store} (h : Rooted s) (np : Nat) (label : Text) :
    Rooted (dnsnode.addChild s np label).1 := by
  have hnew := h.newnode
  have hne : TopNode ≠ (dnsnode.newnode s).2 := by
    rw [newnode_addr]
    exact Nat.ne_of_lt h.next
  unfold dnsnode.addChild
  dsimp only
  have hchild : ∀ n, Rooted ((dnsnode.newnode s).1.setNode (dnsnode.newnode s).2 n) := by
    intro n
    refine ⟨?_, hnew.next⟩
    unfold Store.setNode
    simp only [Function.update_of_ne hne]
    exact hnew.top
  refine Rooted.setNode (hchild _) ?_
  rfl

theorem Rooted.descend {s s' : Store} {create : Bool} {labels : List Text} {np : Option Nat}
    (h : Rooted s) (hd : dnsnode.descend create labels s = some (s', np)) : Rooted s' := by
  induction labels generalizing s' np with
  | nil =>
    cases hd
    exact h
  | cons label labels ih =>
    unfold dnsnode.descend at hd
    split at hd
    · cases hd
    · rename_i hrec
      cases hd
      exact ih hrec
    · rename_i hrec
      have hrooted := ih hrec
      split at hd
      · cases hd
      · cases hd
        exact hrooted
      · split at hd
        · cases hd
          exact hrooted.addChild _ _
        · cases hd
          exact hrooted

theorem Rooted.nsearch {s s' : Store} {create : Bool} {name : Text} {np : Nat} (h : Rooted s)
    (hs : dnsnode.nsearch name create s = some (s', np)) : Rooted s' := by
  unfold dnsnode.nsearch at hs
  dsimp only at hs
  have hfound : ∀ s₁ p, (if nameLabels 0 0 name = [[]] then some (s, some TopNode)
      else dnsnode.descend create (nameLabels 0 0 name) s) = some (s₁, p) → Rooted s₁ := by
    intro s₁ p heq
    split at heq
    · cases heq
      exact h
    · exact h.descend heq
  split at hs
  · cases hs
  · rename_i heq
    cases hs
    exact hfound _ _ heq
  · rename_i heq
    have hrooted := hfound _ _ heq
    split at hs
    · cases hs
      exact hrooted.setNode rfl
    · cases hs
      exact hrooted

/-- The calls for names keep the root. -/
theorem Rooted.step {s s' : Store} {op : Op} {nid : Nat} (h : Rooted s)
    (hs : dnsnode.step s op = some (s', nid)) : Rooted s' := by
  cases op with
  | put name =>
    obtain ⟨⟨s₁, p⟩, hsearch, heq⟩ := Option.map_eq_some_iff.mp hs
    cases heq
    exact h.nsearch hsearch
  | get name =>
    obtain ⟨⟨s₁, p⟩, hsearch, heq⟩ := Option.map_eq_some_iff.mp hs
    cases heq
    exact h.nsearch hsearch

theorem Rooted.run {s s' : Store} {ops : List Op} {log : List (Op × Nat)} (h : Rooted s)
    (hr : dnsnode.run s ops = some (s', log)) : Rooted s' := by
  induction ops generalizing s log with
  | nil =>
    cases hr
    exact h
  | cons op ops ih =>
    unfold dnsnode.run at hr
    split at hr
    · cases hr
    · rename_i hstep
      obtain ⟨⟨s₁, log₁⟩, hrun, heq⟩ := Option.map_eq_some_iff.mp hr
      cases heq
      exact ih (h.step hstep) hrun

/-- So do the calls for records. -/
theorem Rooted.attrStep {s : Store} (h : Rooted s) (op : AttrOp) :
    Rooted (dnsnode.attrStep s op).1 := by
  cases op with
  | put nid flag ttl data now =>
    have hset := h.setAttrs nid
      (putattr s.records flag ttl data now (s.heap (getnode s nid)).n_attr).1
    exact ⟨hset.top, hset.next⟩
  | get nid mask lim ac now => exact h.setAttrs nid _

theorem Rooted.attrRun {s : Store} (h : Rooted s) (ops : List AttrOp) :
    Rooted (dnsnode.attrRun s ops).1 := by
  induction ops generalizing s with
  | nil => exact h
  | cons op ops ih =>
    unfold dnsnode.attrRun
    exact ih (h.attrStep op)

theorem DNS_parent_lt {s : Store} {key : Nat → List Text} (h : Index s key) (hroot : Rooted s)
    {nid : Nat} (h1 : 1 ≤ nid) (hnid : nid ≤ s.NID) : DNS_parent s nid < nid := by
  unfold DNS_parent
  rw [h.getnode hnid]
  rcases Nat.eq_or_lt_of_le h1 with h1 | h1
  · subst h1
    have hnone : (s.heap 1).n_parent = none := hroot.top
    rw [hnone]
    exact Nat.zero_lt_one
  · obtain ⟨j, hparent, hj, hlt, -⟩ := h.parent nid h1 hnid
    rw [hparent]
    dsimp only
    rw [h.nid j (by omega)]
    exact hlt

/-- The loop ends: a domain has a smaller id. -/
theorem getnsLoop_ends {s : Store} {key : Nat → List Text} (h : Index s key) (hroot : Rooted s)
    {nsc n nid : Nat} (hnid : nid ≤ s.NID) (hn : nid ≤ n) (v : Servers) :
    ∃ v', getnsLoop s nsc n nid v = some v' := by
  induction n generalizing nid v with
  | zero =>
    obtain rfl : nid = 0 := by omega
    exact ⟨v, rfl⟩
  | succ n ih =>
    cases nid with
    | zero => exact ⟨v, rfl⟩
    | succ nid =>
      have hlt : DNS_parent s (nid + 1) < nid + 1 := DNS_parent_lt h hroot (by omega) hnid
      exact @ih (DNS_parent s (nid + 1)) (by omega) (by omega) (getns1 s (nid + 1) nsc v)

/-- `getns` returns, and it stays within its vector exactly if each domain with servers has less
than `nsc` servers before it: the configured ones and those of the domains below. -/
theorem servers_within_iff (s : Store) (key : Nat → List Text) (hindex : Index s key)
    (hroot : Rooted s) (conf : NsConf) (nid nsc : Nat) (hnid : nid ≤ s.NID)
    (hconf : conf.NSLIST.length < nsc) (nservv : Nat → VSAddr) :
    ∃ v, getns s conf nid nid nsc nservv = some v ∧
      (InVector nsc v ↔ HaveRoom nsc (conf.NSLIST.filter (·.port ≠ 0)).length
        ((domains s nid nid).map (usable s))) := by
  obtain ⟨hnsx, hwritten⟩ := configured_spec conf.NSLIST { nservv }
  obtain ⟨hnsx', hwritten'⟩ := sortns_spec conf (configured conf.NSLIST { nservv })
  have hle := List.length_filter_le (fun ns : VSAddr => decide (ns.port ≠ 0)) conf.NSLIST
  dsimp only at hnsx hwritten
  rw [Nat.zero_add] at hnsx hwritten
  have hin : InVector nsc (sortns conf (configured conf.NSLIST { nservv })) := by
    refine ⟨?_, by omega⟩
    intro i hi
    rcases hwritten' i hi with hi | hi
    · rcases hwritten i hi with hi | hi
      · exact absurd hi List.not_mem_nil
      · omega
    · omega
  obtain ⟨v, hv⟩ := getnsLoop_ends hindex hroot hnid le_rfl
    (sortns conf (configured conf.NSLIST { nservv }))
  exact ⟨v, hv, getnsLoop_inVector hv hin (by omega)⟩

/-- The root with an NS record that names it, and its address. -/
def rootServer : List Attr :=
  [⟨0, typemask TY_NS, 0, 60, [2, 1, 0, 0, 0, 1]⟩, ⟨1, typemask TY_A, 0, 60, [1, 1, 10, 0, 0, 5]⟩]

theorem index_rootCache (attrs : List Attr) : Index (rootCache attrs).store fun _ => [] :=
  index_init.setNode (p := TopNode) (n := { Store.init.heap TopNode with n_attr := attrs })
    ⟨rfl, rfl, rfl, rfl, rfl⟩

theorem rooted_rootCache (attrs : List Attr) : Rooted (rootCache attrs).store :=
  rooted_init.setNode (p := TopNode) (n := { Store.init.heap TopNode with n_attr := attrs }) rfl

theorem servers_within_root :
    ∃ v, getns (rootCache rootServer).store ⟨[], false, []⟩ 1 1 1 (fun _ => ⟨[], 0⟩) = some v ∧
      (InVector 1 v ↔
        HaveRoom 1 0 ((domains (rootCache rootServer).store 1 1).map
          (usable (rootCache rootServer).store))) :=
  servers_within_iff _ _ (index_rootCache rootServer) (rooted_rootCache rootServer)
    ⟨[], false, []⟩ 1 1 le_rfl Nat.zero_lt_one _

/-- A domain below the root, with an NS record that names the root. -/
def domainStore : Store :=
  setAttrs (addChild (rootCache rootServer).store TopNode ['c', 'o', 'm']).1 2
    [⟨2, typemask TY_NS, 0, 60, [2, 1, 0, 0, 0, 1]⟩]

theorem index_setAttrs {s : Store} {key : Nat → List Text} (h : Index s key) (nid : Nat)
    (attrs : List Attr) : Index (setAttrs s nid attrs) key :=
  h.setNode (p := getnode s nid) (n := { s.heap (getnode s nid) with n_attr := attrs })
    ⟨rfl, rfl, rfl, rfl, rfl⟩

theorem index_domainStore : ∃ key, Index domainStore key := by
  obtain ⟨s', hs', -, hindex⟩ := @Index.addChild _ _ (index_rootCache rootServer) TopNode le_rfl
    le_rfl ['c', 'o', 'm'] (by simp)
  unfold domainStore
  rw [hs']
  exact ⟨_, index_setAttrs hindex 2 _⟩

theorem rooted_domainStore : Rooted domainStore := by
  have hchild := (rooted_rootCache rootServer).addChild TopNode ['c', 'o', 'm']
  exact hchild.setAttrs 2 _

/-- The servers of a domain and of the root go past the end of a vector for one server. -/
theorem servers_beyond :
    ¬ ∀ (s : Store) (key : Nat → List Text) (conf : NsConf) (nid nsc : Nat)
      (nservv : Nat → VSAddr), Index s key → Rooted s → nid ≤ s.NID → conf.NSLIST.length < nsc →
      ∃ v, getns s conf nid nid nsc nservv = some v ∧ InVector nsc v := by
  intro hall
  obtain ⟨key, hindex⟩ := index_domainStore
  obtain ⟨v, hv, hin⟩ := hall domainStore key ⟨[], false, []⟩ 2 1 (fun _ => ⟨[], 0⟩)
    hindex rooted_domainStore (by decide +kernel) Nat.zero_lt_one
  have hnsx : (getns domainStore ⟨[], false, []⟩ 2 2 1 fun _ => ⟨[], 0⟩).map Servers.nsx =
      some 2 := by
    decide +kernel
  rw [hv] at hnsx
  have hle := hin.2
  rw [Option.some.inj hnsx] at hle
  omega

end delegate.dnsnode
