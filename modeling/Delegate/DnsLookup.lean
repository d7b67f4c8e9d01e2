-- The lookup of records in the DNS cache (`lookupCache`), along the records
-- for canonical names. It ends because a record is never taken twice.
import Delegate.DnsAttr
import Delegate.DnsMessage

open ctext
open delegate.dns (TY_A TY_CNAME TY_SOA TY_PTR TY_MX TY_AAAA TY_SRV)

namespace delegate.dnsnode

/-! ## Records -/

/-- A record in the array of the caller: where its data are, and the data. -/
structure RR where
  addr : Nat
  data : List UInt8
  deriving DecidableEq, Repr

/-- `typemask`, with the count of the shift taken modulo 32. -/
def typemask (type : Nat) : UInt32 := 1 <<< UInt32.ofNat (type % 32)

def RR.type (r : RR) : Nat := (r.data.getD 0 0).toNat

/-- The four bytes after the type and the class. -/
def RR.ival (r : RR) : Nat :=
  (r.data.getD 2 0).toNat * 16777216 + (r.data.getD 3 0).toNat * 65536 +
    (r.data.getD 4 0).toNat * 256 + (r.data.getD 5 0).toNat

def Attr.rr (a : Attr) : RR := ⟨a.addr, a.a_data⟩

/-- The same record, or an A record with the same address. -/
def sameRR (r1 v1 : RR) : Bool :=
  r1.addr == v1.addr || (r1.type == TY_A && r1.data.take 6 == v1.data.take 6)

def RR_isin (v1 : RR) (rrv : List RR) : Bool := rrv.any (sameRR · v1)

/-! ## The lookup -/

/-- The cache and the counter of the lookups, which does not overflow. -/
structure Cache where
  store : Store
  Phase : Int

/-- `DNS_nodephase(nid,Phase)`: the phase before goes with the cache. -/
def nodephase (c : Cache) (nid : Nat) : Cache × Int :=
  let np := getnode c.store nid
  ({ c with store := c.store.setNode np { c.store.heap np with n_phase := c.Phase } },
    (c.store.heap np).n_phase)

/-- `DNS_getbyname` of the name of a node. A search without creation leaves the store. -/
def byName (s : Store) (nid : Nat) : Option Nat :=
  match DNS_nodename s nid 512 with
  | none => none
  | some cdname => (DNS_getbyname cdname s).map Prod.snd

/-- The loop of `lookupCache` over the records of a node. A canonical name goes on with
`follow`. -/
def lookupLoop (follow : Nat → List RR → Cache → Option (Cache × List RR)) (rrc : Nat) :
    List Attr → List RR → Cache → Option (Cache × List RR)
  | [], rrv, c => some (c, rrv)
  | a :: av, rrv, c =>
    if rrc ≤ rrv.length then some (c, rrv)
    else if RR_isin a.rr rrv then lookupLoop follow rrc av rrv c
    else if a.rr.type = TY_SOA then lookupLoop follow rrc av (rrv ++ [a.rr]) c
    else if a.rr.type = TY_SRV then lookupLoop follow rrc av rrv c
    else if a.rr.type = TY_AAAA ∨ a.rr.type = TY_A ∨ a.rr.type = TY_PTR then
      lookupLoop follow rrc av (rrv ++ [a.rr]) c
    else if a.rr.type = TY_CNAME then
      let (c', phase) := nodephase c a.rr.ival
      if phase = c.Phase then lookupLoop follow rrc av rrv c'
      else
        match byName c'.store a.rr.ival with
        | none => none
        | some cnid =>
          match follow cnid (rrv ++ [a.rr]) c' with
          | none => none
          | some (c'', rrv') => lookupLoop follow rrc av rrv' c''
    else if a.rr.type = TY_MX then lookupLoop follow rrc av (rrv ++ [a.rr]) c
    else lookupLoop follow rrc av rrv c

/-- `lookupCache`, for records of at most the age `ttl` if that is above 0, by a clock that is
read once in each call. -/
def lookupCache (ttl : Int) (clock : Int → Int) (qtype rrc : Nat) :
    Nat → Nat → List RR → Cache → Option (Cache × List RR)
  | 0, _, _, _ => none
  | n + 1, nid, rrv, c =>
    let c := { c with Phase := c.Phase + 1 }
    let (c, _) := nodephase c nid
    let (s, av) := DNS_getattr nid (typemask qtype ||| typemask TY_CNAME) ttl 128 (clock c.Phase)
      c.store
    lookupLoop (lookupCache ttl clock qtype rrc n) rrc av rrv { c with store := s }

/-! ## Masks -/

theorem typemask_and : ∀ i < 32, ∀ j < 32,
    ((typemask i ||| typemask TY_CNAME) &&& typemask j != 0) = (j == i || j == TY_CNAME) := by
  decide +kernel

theorem typemask_mod (t : Nat) : typemask (t % 32) = typemask t := by
  unfold typemask
  rw [Nat.mod_mod]

theorem mask_has {qtype t : Nat} :
    ((typemask qtype ||| typemask TY_CNAME) &&& typemask t != 0) =
      (t % 32 == qtype % 32 || t % 32 == TY_CNAME) := by
  rw [← typemask_mod qtype, ← typemask_mod t]
  exact typemask_and _ (Nat.mod_lt _ (by decide)) _ (Nat.mod_lt _ (by decide))

/-! ## Names over changes of the data -/

theorem findPeer_links {heap heap' : Nat → Node} (h : ∀ p, SameLinks (heap p) (heap' p))
    (label : Text) (n : Nat) (p : Option Nat) :
    findPeer heap' label n p = findPeer heap label n p := by
  induction n generalizing p with
  | zero => cases p <;> rfl
  | succ n ih =>
    cases p with
    | none => rfl
    | some p =>
      unfold findPeer
      rw [(h p).label, (h p).peer, ih]

theorem getnodename_links {heap heap' : Nat → Node} (h : ∀ p, SameLinks (heap p) (heap' p))
    (n p : Nat) : getnodename heap' n p = getnodename heap n p := by
  induction n generalizing p with
  | zero => rfl
  | succ n ih =>
    unfold getnodename
    rw [(h p).label, (h p).parent]
    cases (heap p).n_parent with
    | none => rfl
    | some pp => simp only [ih pp]

/-- A search without creation depends on the links only, and leaves the store. -/
theorem descend_links {s s' : Store} (h : ∀ p, SameLinks (s.heap p) (s'.heap p))
    (hnext : s'.next = s.next) (labels : List Text) :
    ∃ r : Option (Option Nat), descend false labels s = r.map (s, ·) ∧
      descend false labels s' = r.map (s', ·) := by
  induction labels with
  | nil => exact ⟨some (some TopNode), rfl, rfl⟩
  | cons label labels ih =>
    obtain ⟨r, hr, hr'⟩ := ih
    unfold descend
    rw [hr, hr']
    rcases r with _ | _ | np
    · exact ⟨none, rfl, rfl⟩
    · exact ⟨some none, rfl, rfl⟩
    · simp only [Option.map_some]
      rw [findPeer_links h, hnext, (h np).child]
      rcases findPeer s.heap label s.next (s.heap np).n_child with _ | _ | lp
      · exact ⟨none, rfl, rfl⟩
      · exact ⟨some none, rfl, rfl⟩
      · exact ⟨some (some lp), rfl, rfl⟩

theorem DNS_getbyname_links {s s' : Store} (h : ∀ p, SameLinks (s.heap p) (s'.heap p))
    (hnext : s'.next = s.next) (name : Text) :
    (DNS_getbyname name s').map Prod.snd = (DNS_getbyname name s).map Prod.snd := by
  unfold DNS_getbyname nsearch
  dsimp only
  by_cases hroot : nameLabels 0 0 name = [[]]
  · simp [hroot, (h TopNode).nid]
  · rw [if_neg hroot, if_neg hroot]
    obtain ⟨r, hr, hr'⟩ := descend_links h hnext (nameLabels 0 0 name)
    rw [hr, hr']
    rcases r with _ | _ | np
    · rfl
    · simp [(h NoNode).nid]
    · simp [(h np).nid]

/-! ## Later caches -/

/-- A record as it was, or cleared. -/
def Kept (a b : Attr) : Prop := b = a ∨ b = { a with a_flag := 0 }

theorem Kept.rr {a b : Attr} (h : Kept a b) : b.rr = a.rr := by
  rcases h with rfl | rfl <;> rfl

theorem Kept.has {a b : Attr} (h : Kept a b) {mask : UInt32} (hb : b.has mask = true) : b = a := by
  rcases h with rfl | rfl
  · rfl
  · simp [Attr.has] at hb

theorem kept_same (attrs : List Attr) : List.Forall₂ Kept attrs attrs :=
  List.forall₂_same.mpr fun _ _ => .inl rfl

theorem expireattr_kept (mask : UInt32) (ttl now : Int) (attrs : List Attr) :
    List.Forall₂ Kept attrs (expireattr mask ttl now attrs) := by
  unfold expireattr
  split
  · exact kept_same attrs
  split
  · rw [List.forall₂_map_right_iff, List.forall₂_same]
    intro a _
    split
    · exact .inr rfl
    · exact .inl rfl
  · exact kept_same attrs

theorem kept_mem {as bs : List Attr} (h : List.Forall₂ Kept as bs) {b : Attr} (hb : b ∈ bs) :
    ∃ a ∈ as, Kept a b := by
  induction h with
  | nil => cases hb
  | cons hab _ ih =>
    rcases List.mem_cons.mp hb with rfl | hb
    · exact ⟨_, List.mem_cons_self, hab⟩
    · obtain ⟨a, ha, hk⟩ := ih hb
      exact ⟨a, List.mem_cons_of_mem _ ha, hk⟩

theorem kept_count {as bs : List Attr} (h : List.Forall₂ Kept as bs) (mask : UInt32) :
    (bs.filter (·.has mask)).length ≤ (as.filter (·.has mask)).length := by
  induction h with
  | nil => exact le_rfl
  | @cons a b as bs hab _ ih =>
    by_cases hb : b.has mask = true
    · have ha : a.has mask = true := by
        rw [← hab.has hb]
        exact hb
      rw [List.filter_cons_of_pos ha, List.filter_cons_of_pos hb]
      exact Nat.succ_le_succ ih
    · rw [List.filter_cons_of_neg hb]
      exact ih.trans ((List.sublist_cons_self a as).filter _).length_le

/-- The records of a node after some calls of `expireattr`. -/
def Aged (mask : UInt32) (ttl : Int) (clock : Int → Int) (as bs : List Attr) : Prop :=
  bs = as ∨ ∃ t, bs = expireattr mask ttl (clock t) as

/-- Only the first expiry clears records. -/
theorem expireattr_twice (mask : UInt32) (ttl now now' : Int) (attrs : List Attr) :
    expireattr mask ttl now' (expireattr mask ttl now attrs) = expireattr mask ttl now attrs ∨
      expireattr mask ttl now attrs = attrs := by
  by_cases httl : ttl ≤ 0
  · right
    unfold expireattr
    rw [if_pos httl]
  by_cases hany : attrs.any (fun a => a.has mask &&
      (decide (addInt a.a_date a.a_ttl ≤ now) || decide (addInt a.a_date ttl ≤ now))) = true
  · left
    have hclear : expireattr mask ttl now attrs =
        attrs.map fun a => if a.has mask then { a with a_flag := 0 } else a := by
      unfold expireattr
      rw [if_neg httl, if_pos hany]
    have hnone := List.filter_eq_nil_iff.mp (filter_cleared mask attrs)
    rw [hclear]
    conv_lhs => unfold expireattr
    rw [if_neg httl, if_neg]
    rw [List.any_eq_true]
    rintro ⟨a, ha, h⟩
    rw [Bool.and_eq_true] at h
    exact hnone a ha h.1
  · right
    unfold expireattr
    rw [if_neg httl, if_neg hany]

section Lookup
variable {mask : UInt32} {ttl : Int} {clock : Int → Int}

theorem Aged.kept {as bs : List Attr} (h : Aged mask ttl clock as bs) : List.Forall₂ Kept as bs := by
  rcases h with rfl | ⟨t, rfl⟩
  · exact kept_same _
  · exact expireattr_kept mask ttl (clock t) as

theorem Aged.trans {as bs ds : List Attr} (h : Aged mask ttl clock as bs)
    (h' : Aged mask ttl clock bs ds) : Aged mask ttl clock as ds := by
  rcases h with rfl | ⟨t, rfl⟩
  · exact h'
  rcases h' with rfl | ⟨t', rfl⟩
  · exact .inr ⟨t, rfl⟩
  rcases expireattr_twice mask ttl (clock t) (clock t') as with heq | heq
  · exact .inr ⟨t, heq⟩
  · exact .inr ⟨t', by rw [heq]⟩

/-- A later cache in a lookup: other phases, and expired records cleared. -/
structure Later (mask : UInt32) (ttl : Int) (clock : Int → Int) (c c' : Cache) : Prop where
  next : c'.store.next = c.store.next
  Nodes : c'.store.Nodes = c.store.Nodes
  links : ∀ p, SameLinks (c.store.heap p) (c'.store.heap p)
  attrs : ∀ p, Aged mask ttl clock (c.store.heap p).n_attr (c'.store.heap p).n_attr

theorem Later.same (c : Cache) : Later mask ttl clock c c :=
  ⟨rfl, rfl, fun _ => ⟨rfl, rfl, rfl, rfl, rfl⟩, fun _ => .inl rfl⟩

theorem Later.trans {c c' c'' : Cache} (h : Later mask ttl clock c c')
    (h' : Later mask ttl clock c' c'') : Later mask ttl clock c c'' where
  next := h'.next.trans h.next
  Nodes := h'.Nodes.trans h.Nodes
  links p := ⟨(h'.links p).nid.trans (h.links p).nid, (h'.links p).label.trans (h.links p).label,
    (h'.links p).parent.trans (h.links p).parent, (h'.links p).child.trans (h.links p).child,
    (h'.links p).peer.trans (h.links p).peer⟩
  attrs p := (h.attrs p).trans (h'.attrs p)

theorem Later.getnode {c c' : Cache} (h : Later mask ttl clock c c') (nid : Nat) :
    getnode c'.store nid = getnode c.store nid := by
  unfold dnsnode.getnode
  rw [h.Nodes]

theorem Later.byName {c c' : Cache} (h : Later mask ttl clock c c') (nid : Nat) :
    byName c'.store nid = byName c.store nid := by
  unfold dnsnode.byName DNS_nodename
  rw [getnodename_links h.links, h.next, h.getnode]
  cases getnodename c.store.heap c.store.next (dnsnode.getnode c.store nid) with
  | none => rfl
  | some t => exact DNS_getbyname_links h.links h.next _

/-- A record of the mask was there before. -/
theorem Later.mem {c c' : Cache} (h : Later mask ttl clock c c') {p : Nat} {b : Attr}
    (hb : b ∈ (c'.store.heap p).n_attr) (hhas : b.has mask = true) :
    b ∈ (c.store.heap p).n_attr := by
  obtain ⟨a, ha, hk⟩ := kept_mem (h.attrs p).kept hb
  rwa [hk.has hhas]

/-- A change of the phase and the records of one node. -/
theorem later_setNode {c : Cache} {p : Nat} {phase : Int} {attrs : List Attr}
    (h : Aged mask ttl clock (c.store.heap p).n_attr attrs) (Phase : Int) :
    Later mask ttl clock c
      ⟨c.store.setNode p { c.store.heap p with n_phase := phase, n_attr := attrs }, Phase⟩ := by
  refine ⟨rfl, rfl, ?_, ?_⟩
  · intro q
    unfold Store.setNode
    by_cases hq : q = p
    · subst hq
      simp only [Function.update_self]
      exact ⟨rfl, rfl, rfl, rfl, rfl⟩
    · simp only [Function.update_of_ne hq]
      exact ⟨rfl, rfl, rfl, rfl, rfl⟩
  · intro q
    unfold Store.setNode
    by_cases hq : q = p
    · subst hq
      simpa only [Function.update_self] using h
    · simpa only [Function.update_of_ne hq] using .inl rfl

end Lookup

/-! ## What a lookup is for -/

/-- The types that are taken, next to canonical names. -/
def Taken (t : Nat) : Prop :=
  t = TY_SOA ∨ t = TY_AAAA ∨ t = TY_A ∨ t = TY_PTR ∨ t = TY_MX

/-- A record of a taken type that has the mask of the query. -/
def Wanted (qtype : Nat) (r : RR) : Prop := Taken r.type ∧ r.type % 32 = qtype % 32

/-- The nodes from `nid` on along canonical names that are in the array. -/
inductive Reached (s : Store) (nid : Nat) (rrv : List RR) : Nat → Prop
  | start : Reached s nid rrv nid
  | step {i : Nat} {a : Attr} : Reached s nid rrv i → a ∈ (s.heap i).n_attr → a.rr ∈ rrv →
      a.rr.type = TY_CNAME → Reached s nid rrv a.rr.ival

/-- The nodes from `nid` on along all canonical names that are not cleared. -/
inductive Linked (s : Store) (nid : Nat) : Nat → Prop
  | start : Linked s nid nid
  | step {i : Nat} {a : Attr} : Linked s nid i → a ∈ (s.heap i).n_attr → a.a_flag ≠ 0 →
      a.rr.type = TY_CNAME → Linked s nid a.rr.ival

/-- A record of the right type, of a node reached along the array. -/
def Found (s : Store) (nid qtype : Nat) (rrv : List RR) (r : RR) : Prop :=
  (r.type = TY_CNAME ∨ Wanted qtype r) ∧
    ∃ i, Reached s nid rrv i ∧ ∃ a ∈ (s.heap i).n_attr, a.rr = r

/-- A cache: nodes with names, and records with the flags of their types. The name of the node
of a canonical name finds the node. -/
structure Good (c : Cache) (key : Nat → List Text) : Prop where
  index : Index c.store key
  phase : ∀ i ≤ c.store.NID, (c.store.heap i).n_phase ≤ c.Phase
  flag : ∀ i ≤ c.store.NID, ∀ a ∈ (c.store.heap i).n_attr,
    a.a_flag = 0 ∨ a.a_flag = typemask a.rr.type
  addr : ∀ i ≤ c.store.NID, ∀ a ∈ (c.store.heap i).n_attr, ∀ j ≤ c.store.NID,
    ∀ b ∈ (c.store.heap j).n_attr, a.addr = b.addr → a.a_data = b.a_data
  target : ∀ i ≤ c.store.NID, ∀ a ∈ (c.store.heap i).n_attr, a.rr.type = TY_CNAME →
    a.rr.ival ≤ c.store.NID ∧ byName c.store a.rr.ival = some a.rr.ival

/-- No node has more records of the mask than the array of the lookup. -/
def Small (mask : UInt32) (c : Cache) : Prop :=
  ∀ i ≤ c.store.NID, ((c.store.heap i).n_attr.filter (·.has mask)).length ≤ 128

def qmask (qtype : Nat) : UInt32 := typemask qtype ||| typemask TY_CNAME

/-- What a lookup from `nid` on gives: records without repetition, each found along the
canonical names, and all that are wanted if there was room for them. -/
structure Answer (ttl : Int) (clock : Int → Int) (nid qtype rrc : Nat) (c c' : Cache)
    (rrv : List RR) : Prop where
  room : rrv.length ≤ rrc
  nodup : rrv.Pairwise fun r v => sameRR r v = false
  sound : ∀ r ∈ rrv, Found c.store nid qtype rrv r
  aged : ∀ i, Aged (qmask qtype) ttl clock (c.store.heap i).n_attr (c'.store.heap i).n_attr
  complete : rrv.length < rrc → Small (qmask qtype) c → ∀ i, Linked c'.store nid i →
    ∀ a ∈ (c'.store.heap i).n_attr, a.a_flag ≠ 0 → Wanted qtype a.rr → RR_isin a.rr rrv = true

/-! ## A walk -/

theorem Reached.mono {s : Store} {nid i : Nat} {rrv rrv' : List RR} (h : Reached s nid rrv i)
    (hsub : rrv ⊆ rrv') : Reached s nid rrv' i := by
  induction h with
  | start => exact .start
  | step _ ha hin htype ih => exact .step ih ha (hsub hin) htype

theorem Found.mono {s : Store} {nid qtype : Nat} {rrv rrv' : List RR} {r : RR}
    (h : Found s nid qtype rrv r) (hsub : rrv ⊆ rrv') : Found s nid qtype rrv' r := by
  obtain ⟨htype, i, hi, ha⟩ := h
  exact ⟨htype, i, hi.mono hsub, ha⟩

theorem Good.reached {c : Cache} {key : Nat → List Text} (h : Good c key) {nid i : Nat}
    {rrv : List RR} (hnid : nid ≤ c.store.NID) (hi : Reached c.store nid rrv i) :
    i ≤ c.store.NID := by
  induction hi with
  | start => exact hnid
  | step _ ha _ htype ih => exact (h.target _ ih _ ha htype).1

theorem RR_isin_mono {r : RR} {rrv rrv' : List RR} (h : RR_isin r rrv = true) (hsub : rrv ⊆ rrv') :
    RR_isin r rrv' = true := by
  unfold RR_isin at h ⊢
  rw [List.any_eq_true] at h ⊢
  obtain ⟨v, hv, hsame⟩ := h
  exact ⟨v, hsub hv, hsame⟩

theorem RR_isin_mem {r : RR} {rrv : List RR} (h : r ∈ rrv) : RR_isin r rrv = true := by
  unfold RR_isin
  rw [List.any_eq_true]
  exact ⟨r, h, by simp [sameRR]⟩

/-- The record is in the array, or its node is visited. -/
def Got (rrv : List RR) (vis : Set Nat) (r : RR) : Prop :=
  (Taken r.type → RR_isin r rrv = true) ∧ (r.type = TY_CNAME → r.ival ∈ vis)

theorem Got.mono {rrv rrv' : List RR} {vis vis' : Set Nat} {r : RR} (h : Got rrv vis r)
    (hsub : rrv ⊆ rrv') (hvis : vis ⊆ vis') : Got rrv' vis' r :=
  ⟨fun ht => RR_isin_mono (h.1 ht) hsub, fun ht => hvis (h.2 ht)⟩

/-- Nothing is left to do at a node. -/
def Closed (mask : UInt32) (c : Cache) (rrv : List RR) (vis : Set Nat) (i : Nat) : Prop :=
  ∀ b ∈ (c.store.heap i).n_attr, b.has mask = true → Got rrv vis b.rr

section Walk
variable {c₀ : Cache} {key : Nat → List Text} {ttl : Int} {clock : Int → Int} {nid₀ qtype rrc : Nat}

theorem Closed.mono {c c' : Cache} {rrv rrv' : List RR} {vis vis' : Set Nat} {i : Nat}
    (h : Closed (qmask qtype) c rrv vis i) (hlater : Later (qmask qtype) ttl clock c c')
    (hsub : rrv ⊆ rrv') (hvis : vis ⊆ vis') : Closed (qmask qtype) c' rrv' vis' i := by
  intro b hb hhas
  exact (h b (hlater.mem hb hhas) hhas).mono hsub hvis

/-- What holds at each time of a lookup from `nid₀` on in `c₀`: `vis` are the nodes that are
visited. -/
structure Walk (c₀ : Cache) (ttl : Int) (clock : Int → Int) (nid₀ qtype rrc : Nat) (c : Cache)
    (rrv : List RR) (vis : Set Nat) : Prop where
  later : Later (qmask qtype) ttl clock c₀ c
  phase : ∀ i ≤ c₀.store.NID, (c.store.heap i).n_phase ≤ c.Phase
  named : ∀ r ∈ rrv, r.type = TY_CNAME → r.ival ∈ vis
  sound : ∀ r ∈ rrv, Found c₀.store nid₀ qtype rrv r
  nodup : rrv.Pairwise fun r v => sameRR r v = false
  room : rrv.length ≤ rrc

/-- The nodes of the last phase are visited. -/
def Seen (c₀ c : Cache) (vis : Set Nat) : Prop :=
  ∀ i ≤ c₀.store.NID, (c.store.heap i).n_phase = c.Phase → i ∈ vis

/-- What a part of a lookup does. -/
structure Part (c₀ : Cache) (ttl : Int) (clock : Int → Int) (nid₀ qtype rrc : Nat) (c : Cache)
    (rrv : List RR) (vis : Set Nat) (c' : Cache) (rrv' : List RR) (vis' : Set Nat) : Prop where
  walk : Walk c₀ ttl clock nid₀ qtype rrc c' rrv' vis'
  seen : Seen c₀ c' vis'
  later : Later (qmask qtype) ttl clock c c'
  recs : rrv <+: rrv'
  visited : vis ⊆ vis'
  closed : rrv'.length < rrc → Small (qmask qtype) c₀ →
    ∀ i ∈ vis', i ∈ vis ∨ Closed (qmask qtype) c' rrv' vis' i

variable {c c' c'' : Cache} {rrv rrv' rrv'' : List RR} {vis vis' vis'' : Set Nat}

theorem Part.trans (h : Part c₀ ttl clock nid₀ qtype rrc c rrv vis c' rrv' vis')
    (h' : Part c₀ ttl clock nid₀ qtype rrc c' rrv' vis' c'' rrv'' vis'') :
    Part c₀ ttl clock nid₀ qtype rrc c rrv vis c'' rrv'' vis'' where
  walk := h'.walk
  seen := h'.seen
  later := h.later.trans h'.later
  recs := h.recs.trans h'.recs
  visited := h.visited.trans h'.visited
  closed := by
    intro hroom hsmall i hi
    rcases h'.closed hroom hsmall i hi with hi | hclosed
    · rcases h.closed (h'.recs.length_le.trans_lt hroom) hsmall i hi with hi | hclosed
      · exact .inl hi
      · exact .inr (hclosed.mono h'.later h'.recs.subset h'.visited)
    · exact .inr hclosed

theorem Walk.same (h : Walk c₀ ttl clock nid₀ qtype rrc c rrv vis) (hseen : Seen c₀ c vis) :
    Part c₀ ttl clock nid₀ qtype rrc c rrv vis c rrv vis :=
  ⟨h, hseen, .same c, List.prefix_rfl, subset_rfl, fun _ _ _ hi => .inl hi⟩

/-- One more record of a node that is reached. -/
theorem Walk.push (h : Walk c₀ ttl clock nid₀ qtype rrc c rrv vis) (hroom : rrv.length < rrc)
    {nid : Nat} (hreach : Reached c₀.store nid₀ rrv nid) {a : Attr}
    (ha : a ∈ (c₀.store.heap nid).n_attr) (hnew : RR_isin a.rr rrv = false)
    (htype : a.rr.type = TY_CNAME ∨ Wanted qtype a.rr) (hname : a.rr.type = TY_CNAME → a.rr.ival ∈ vis) :
    Walk c₀ ttl clock nid₀ qtype rrc c (rrv ++ [a.rr]) vis where
  later := h.later
  phase := h.phase
  named := by
    intro r hr
    rcases List.mem_append.mp hr with hr | hr
    · exact h.named r hr
    · rw [List.mem_singleton.mp hr]
      exact hname
  sound := by
    intro r hr
    have hsub : rrv ⊆ rrv ++ [a.rr] := List.subset_append_left _ _
    rcases List.mem_append.mp hr with hr | hr
    · exact (h.sound r hr).mono hsub
    · rw [List.mem_singleton.mp hr]
      exact ⟨htype, nid, hreach.mono hsub, a, ha, rfl⟩
  nodup := by
    rw [List.pairwise_append]
    refine ⟨h.nodup, List.pairwise_singleton _ _, ?_⟩
    intro r hr v hv
    rw [List.mem_singleton.mp hv]
    unfold RR_isin at hnew
    rw [List.any_eq_false] at hnew
    exact Bool.eq_false_iff.mpr (hnew r hr)
  room := by
    rw [List.length_append, List.length_singleton]
    exact hroom

/-! ## The loop -/

theorem lookupLoop_taken {follow : Nat → List RR → Cache → Option (Cache × List RR)} {a : Attr}
    {av : List Attr} (hroom : rrv.length < rrc) (hnew : RR_isin a.rr rrv = false)
    (ht : Taken a.rr.type) :
    lookupLoop follow rrc (a :: av) rrv c = lookupLoop follow rrc av (rrv ++ [a.rr]) c := by
  conv_lhs => unfold lookupLoop
  rw [if_neg (not_le.mpr hroom), if_neg (by rw [hnew]; exact Bool.false_ne_true)]
  rcases ht with ht | ht | ht | ht | ht <;> simp only [ht, TY_SOA, TY_AAAA, TY_A, TY_PTR, TY_MX,
    TY_SRV, TY_CNAME] <;> rfl

theorem lookupLoop_other {follow : Nat → List RR → Cache → Option (Cache × List RR)} {a : Attr}
    {av : List Attr} (hroom : rrv.length < rrc) (ht : ¬Taken a.rr.type)
    (hc : a.rr.type ≠ TY_CNAME) :
    lookupLoop follow rrc (a :: av) rrv c = lookupLoop follow rrc av rrv c := by
  conv_lhs => unfold lookupLoop
  unfold Taken at ht
  push Not at ht
  obtain ⟨h1, h2, h3, h4, h5⟩ := ht
  simp only [if_neg (not_le.mpr hroom), h1, h2, h3, h4, h5, hc, or_self, if_false, ite_self]

/-- The canonical name of a record that is in the array leads to a visited node. -/
theorem Walk.named_of_isin (hgood : Good c₀ key) (hnid₀ : nid₀ ≤ c₀.store.NID)
    (h : Walk c₀ ttl clock nid₀ qtype rrc c rrv vis) {nid : Nat} (hnid : nid ≤ c₀.store.NID)
    {a : Attr} (ha : a ∈ (c₀.store.heap nid).n_attr) (hin : RR_isin a.rr rrv = true)
    (htype : a.rr.type = TY_CNAME) : a.rr.ival ∈ vis := by
  unfold RR_isin at hin
  rw [List.any_eq_true] at hin
  obtain ⟨r, hr, hsame⟩ := hin
  unfold sameRR at hsame
  rw [Bool.or_eq_true, beq_iff_eq, Bool.and_eq_true, beq_iff_eq, beq_iff_eq] at hsame
  rcases hsame with haddr | ⟨htA, hdata⟩
  · obtain ⟨-, i, hi, b, hb, rfl⟩ := h.sound r hr
    have hdata : b.a_data = a.a_data := hgood.addr i (hgood.reached hnid₀ hi) b hb nid hnid a ha haddr
    have heq : b.rr = a.rr := RR.mk.injEq .. ▸ ⟨haddr, hdata⟩
    rw [← heq] at htype ⊢
    exact h.named b.rr hr htype
  · -- the first byte is the type
    exfalso
    have hfirst : r.type = a.rr.type := by
      unfold RR.type
      have hget := congrArg (fun l : List UInt8 => (l.getD 0 0).toNat) hdata
      simpa using hget
    rw [htA, htype] at hfirst
    cases hfirst

/-- `DNS_nodephase` with the current phase. -/
theorem Walk.mark (hgood : Good c₀ key) (h : Walk c₀ ttl clock nid₀ qtype rrc c rrv vis)
    (hseen : Seen c₀ c vis) {i : Nat} (hi : i ≤ c₀.store.NID) :
    (nodephase c i).2 = (c.store.heap i).n_phase ∧ (nodephase c i).1.Phase = c.Phase ∧
      Later (qmask qtype) ttl clock c (nodephase c i).1 ∧
      Walk c₀ ttl clock nid₀ qtype rrc (nodephase c i).1 rrv (insert i vis) ∧
      Seen c₀ (nodephase c i).1 (insert i vis) := by
  have hnode : getnode c.store i = i := by rw [h.later.getnode, hgood.index.getnode hi]
  have hphase : ∀ j, ((nodephase c i).1.store.heap j).n_phase =
      if j = i then c.Phase else (c.store.heap j).n_phase := by
    intro j
    unfold nodephase Store.setNode
    dsimp only
    rw [hnode]
    by_cases hj : j = i
    · subst hj
      simp
    · simp [hj]
  have hlater : Later (qmask qtype) ttl clock c (nodephase c i).1 := by
    unfold nodephase
    dsimp only
    rw [hnode]
    exact later_setNode (.inl rfl) _
  refine ⟨by unfold nodephase; dsimp only; rw [hnode], rfl, hlater, ?_, ?_⟩
  · refine ⟨h.later.trans hlater, ?_, fun r hr ht => .inr (h.named r hr ht), h.sound, h.nodup,
      h.room⟩
    intro j hj
    rw [hphase j]
    split
    · exact le_rfl
    · exact h.phase j hj
  · intro j hj heq
    rw [hphase j] at heq
    by_cases hji : j = i
    · exact .inl hji
    · rw [if_neg hji] at heq
      exact .inr (hseen j hj heq)

/-- The steps of the loop at a canonical name that is not in the array. -/
theorem lookupLoop_cname {follow : Nat → List RR → Cache → Option (Cache × List RR)} {a : Attr}
    {av : List Attr} (hroom : rrv.length < rrc) (hnew : RR_isin a.rr rrv = false)
    (hc : a.rr.type = TY_CNAME) :
    lookupLoop follow rrc (a :: av) rrv c =
      if (nodephase c a.rr.ival).2 = c.Phase then
        lookupLoop follow rrc av rrv (nodephase c a.rr.ival).1
      else
        match byName (nodephase c a.rr.ival).1.store a.rr.ival with
        | none => none
        | some cnid =>
          match follow cnid (rrv ++ [a.rr]) (nodephase c a.rr.ival).1 with
          | none => none
          | some (c'', rrv') => lookupLoop follow rrc av rrv' c'' := by
  conv_lhs => unfold lookupLoop
  rw [if_neg (not_le.mpr hroom), if_neg (by rw [hnew]; exact Bool.false_ne_true)]
  simp only [hc, TY_SOA, TY_AAAA, TY_A, TY_PTR, TY_SRV, TY_CNAME]
  rfl

/-- A taken record that `DNS_getattr` returns is wanted. -/
theorem Good.wanted (hgood : Good c₀ key) {nid : Nat} (hnid : nid ≤ c₀.store.NID) {a : Attr}
    (ha : a ∈ (c₀.store.heap nid).n_attr) (hhas : a.has (qmask qtype) = true)
    (ht : Taken a.rr.type) : Wanted qtype a.rr := by
  refine ⟨ht, ?_⟩
  rcases hgood.flag nid hnid a ha with h0 | hflag
  · simp [Attr.has, h0] at hhas
  · unfold Attr.has qmask at hhas
    rw [hflag, mask_has, Bool.or_eq_true, beq_iff_eq, beq_iff_eq] at hhas
    apply hhas.resolve_right
    rcases ht with ht | ht | ht | ht | ht <;> rw [ht] <;> decide

/-- What a call from a loop does: it ends with its node closed. -/
def Follows (c₀ : Cache) (ttl : Int) (clock : Int → Int) (nid₀ qtype rrc n : Nat)
    (follow : Nat → List RR → Cache → Option (Cache × List RR)) : Prop :=
  ∀ nid rrv c vis, Reached c₀.store nid₀ rrv nid → Walk c₀ ttl clock nid₀ qtype rrc c rrv vis →
    rrc - rrv.length < n →
    ∃ c' rrv' vis', follow nid rrv c = some (c', rrv') ∧
      Part c₀ ttl clock nid₀ qtype rrc c rrv vis c' rrv' vis' ∧ nid ∈ vis' ∧
      (rrv'.length < rrc → Small (qmask qtype) c₀ → Closed (qmask qtype) c' rrv' vis' nid)

theorem lookupLoop_part (hgood : Good c₀ key) (hnid₀ : nid₀ ≤ c₀.store.NID) {n : Nat}
    {follow : Nat → List RR → Cache → Option (Cache × List RR)}
    (hfollow : Follows c₀ ttl clock nid₀ qtype rrc n follow) {nid : Nat} (av : List Attr)
    (hav : ∀ a ∈ av, a ∈ (c₀.store.heap nid).n_attr ∧ a.has (qmask qtype) = true)
    (hreach : Reached c₀.store nid₀ rrv nid) (h : Walk c₀ ttl clock nid₀ qtype rrc c rrv vis)
    (hseen : Seen c₀ c vis) (hn : rrc - rrv.length ≤ n) :
    ∃ c' rrv' vis', lookupLoop follow rrc av rrv c = some (c', rrv') ∧
      Part c₀ ttl clock nid₀ qtype rrc c rrv vis c' rrv' vis' ∧
      (rrv'.length < rrc → ∀ a ∈ av, Got rrv' vis' a.rr) := by
  induction av generalizing c rrv vis with
  | nil => exact ⟨c, rrv, vis, rfl, h.same hseen, fun _ a ha => absurd ha List.not_mem_nil⟩
  | cons a av ih =>
    obtain ⟨ha, hhas⟩ := hav a List.mem_cons_self
    have hnid := hgood.reached hnid₀ hreach
    have hrest := fun b hb => hav b (List.mem_cons_of_mem _ hb)
    by_cases hroom : rrv.length < rrc
    swap
    · refine ⟨c, rrv, vis, ?_, h.same hseen, fun hlt => absurd hlt hroom⟩
      unfold lookupLoop
      rw [if_pos (not_lt.mp hroom)]
    -- once the first record is done, the rest of the loop keeps that
    have finish : ∀ {c₁ rrv₁ vis₁}, Part c₀ ttl clock nid₀ qtype rrc c rrv vis c₁ rrv₁ vis₁ →
        lookupLoop follow rrc (a :: av) rrv c = lookupLoop follow rrc av rrv₁ c₁ →
        (rrv₁.length < rrc → Got rrv₁ vis₁ a.rr) →
        ∃ c' rrv' vis', lookupLoop follow rrc (a :: av) rrv c = some (c', rrv') ∧
          Part c₀ ttl clock nid₀ qtype rrc c rrv vis c' rrv' vis' ∧
          (rrv'.length < rrc → ∀ b ∈ a :: av, Got rrv' vis' b.rr) := by
      intro c₁ rrv₁ vis₁ hpart heq hgot
      have hlen := hpart.recs.length_le
      obtain ⟨c', rrv', vis', hrun, hpart', hall⟩ := ih hrest (hreach.mono hpart.recs.subset)
        hpart.walk hpart.seen (by omega)
      refine ⟨c', rrv', vis', heq.trans hrun, hpart.trans hpart', ?_⟩
      intro hlt b hb
      rcases List.mem_cons.mp hb with rfl | hb
      · have hlt₁ := hpart'.recs.length_le.trans_lt hlt
        exact (hgot hlt₁).mono hpart'.recs.subset hpart'.visited
      · exact hall hlt b hb
    by_cases hin : RR_isin a.rr rrv = true
    · apply finish (h.same hseen)
      · conv_lhs => unfold lookupLoop
        rw [if_neg (not_le.mpr hroom), if_pos hin]
      · exact fun _ => ⟨fun _ => hin, h.named_of_isin hgood hnid₀ hnid ha hin⟩
    rw [Bool.not_eq_true] at hin
    by_cases ht : Taken a.rr.type
    · have hnc : a.rr.type ≠ TY_CNAME := by
        intro hc
        rw [hc] at ht
        revert ht
        unfold Taken
        decide
      have hpush := h.push hroom hreach ha hin (.inr (hgood.wanted hnid ha hhas ht))
        fun hc => absurd hc hnc
      have hpart : Part c₀ ttl clock nid₀ qtype rrc c rrv vis c (rrv ++ [a.rr]) vis :=
        ⟨hpush, hseen, .same c, List.prefix_append _ _, subset_rfl, fun _ _ _ hi => .inl hi⟩
      apply finish hpart (lookupLoop_taken hroom hin ht)
      exact fun _ => ⟨fun _ => RR_isin_mem (by simp), fun hc => absurd hc hnc⟩
    by_cases hc : a.rr.type = TY_CNAME
    · obtain ⟨htarget, hname⟩ := hgood.target nid hnid a ha hc
      obtain ⟨hphase, -, hlater, hmark, hseen'⟩ := h.mark hgood hseen htarget
      have hstep := @lookupLoop_cname rrc c rrv follow a av hroom hin hc
      by_cases hloop : (nodephase c a.rr.ival).2 = c.Phase
      · -- the node has the last phase, so it is visited
        have hvis : a.rr.ival ∈ vis := hseen _ htarget (hphase.symm.trans hloop)
        rw [if_pos hloop] at hstep
        have hpart : Part c₀ ttl clock nid₀ qtype rrc c rrv vis (nodephase c a.rr.ival).1 rrv
            (insert a.rr.ival vis) := by
          refine ⟨hmark, hseen', hlater, List.prefix_rfl, Set.subset_insert _ _, ?_⟩
          intro _ _ i hi
          rw [Set.insert_eq_of_mem hvis] at hi
          exact .inl hi
        exact finish hpart hstep fun _ => ⟨fun h => absurd h ht, fun _ => .inl rfl⟩
      · rw [if_neg hloop, hmark.later.byName, hname] at hstep
        have hpush := hmark.push hroom hreach ha hin (.inl hc) fun _ => .inl rfl
        have hreach' : Reached c₀.store nid₀ (rrv ++ [a.rr]) a.rr.ival :=
          .step (hreach.mono (List.subset_append_left _ _)) ha (by simp) hc
        have hfuel : rrc - (rrv ++ [a.rr]).length < n := by
          rw [List.length_append, List.length_singleton]
          omega
        obtain ⟨c₁, rrv₁, vis₁, hrun, hpart, hmem, hclosed⟩ :=
          hfollow _ _ _ _ hreach' hpush hfuel
        dsimp only at hstep
        rw [hrun] at hstep
        have hpart' : Part c₀ ttl clock nid₀ qtype rrc c rrv vis c₁ rrv₁ vis₁ := by
          refine ⟨hpart.walk, hpart.seen, hlater.trans hpart.later,
            (List.prefix_append _ _).trans hpart.recs, (Set.subset_insert _ _).trans hpart.visited, ?_⟩
          intro hlt hsmall i hi
          rcases hpart.closed hlt hsmall i hi with (rfl | hi) | hi
          · exact .inr (hclosed hlt hsmall)
          · exact .inl hi
          · exact .inr hi
        exact finish hpart' hstep fun _ => ⟨fun h => absurd h ht, fun _ => hmem⟩
    · apply finish (h.same hseen) (lookupLoop_other hroom ht hc)
      exact fun _ => ⟨fun h => absurd h ht, fun h => absurd h hc⟩

/-- `DNS_getattr` of a node: the cache after it, and the records of the mask. -/
theorem Walk.getattr (hgood : Good c₀ key) (h : Walk c₀ ttl clock nid₀ qtype rrc c rrv vis)
    (hseen : Seen c₀ c vis) {nid : Nat} (hnid : nid ≤ c₀.store.NID) (t : Int) :
    ∃ s av, DNS_getattr nid (qmask qtype) ttl 128 (clock t) c.store = (s, av) ∧
      Later (qmask qtype) ttl clock c { c with store := s } ∧
      Walk c₀ ttl clock nid₀ qtype rrc { c with store := s } rrv vis ∧
      Seen c₀ { c with store := s } vis ∧
      (∀ a ∈ av, a ∈ (s.heap nid).n_attr ∧ a.has (qmask qtype) = true) ∧
      (Small (qmask qtype) c₀ →
        ∀ a ∈ (s.heap nid).n_attr, a.has (qmask qtype) = true → a ∈ av) := by
  have hnode : dnsnode.getnode c.store nid = nid := by
    rw [h.later.getnode, hgood.index.getnode hnid]
  refine ⟨_, _, rfl, ?_⟩
  unfold setAttrs
  dsimp only
  rw [hnode]
  have hlater : Later (qmask qtype) ttl clock c
      { c with store := c.store.setNode nid { c.store.heap nid with
          n_attr := (dnsnode.getattr (qmask qtype) ttl 128 (clock t) (c.store.heap nid).n_attr).1 } } :=
    later_setNode (.inr ⟨t, rfl⟩) _
  have hphase : ∀ i, ((c.store.setNode nid { c.store.heap nid with
      n_attr := (dnsnode.getattr (qmask qtype) ttl 128 (clock t)
        (c.store.heap nid).n_attr).1 }).heap i).n_phase = (c.store.heap i).n_phase := by
    intro i
    unfold Store.setNode
    by_cases hi : i = nid
    · subst hi
      simp
    · simp [hi]
  have hattr : ((c.store.setNode nid { c.store.heap nid with
      n_attr := (dnsnode.getattr (qmask qtype) ttl 128 (clock t)
        (c.store.heap nid).n_attr).1 }).heap nid).n_attr =
      expireattr (qmask qtype) ttl (clock t) (c.store.heap nid).n_attr := by
    unfold Store.setNode dnsnode.getattr
    simp
  refine ⟨hlater, ?_, ?_, ?_, ?_⟩
  · refine ⟨h.later.trans hlater, ?_, h.named, h.sound, h.nodup, h.room⟩
    intro i hi
    rw [hphase i]
    exact h.phase i hi
  · intro i hi heq
    rw [hphase i] at heq
    exact hseen i hi heq
  · intro a ha
    rw [hattr]
    exact List.mem_filter.mp (List.mem_of_mem_take ha)
  · intro hsmall a ha hhas
    have hcount := kept_count ((h.later.trans hlater).attrs nid).kept (qmask qtype)
    dsimp only at hcount
    rw [hattr] at ha hcount
    have hle := hcount.trans (hsmall nid hnid)
    unfold dnsnode.getattr
    dsimp only
    rw [List.take_of_length_le (hle.trans (le_max_left 128 1))]
    exact List.mem_filter.mpr ⟨ha, hhas⟩

/-- A call follows the canonical names if there is fuel for the records that it can add. -/
theorem lookupCache_follows (hgood : Good c₀ key) (hnid₀ : nid₀ ≤ c₀.store.NID) (n : Nat) :
    Follows c₀ ttl clock nid₀ qtype rrc n (lookupCache ttl clock qtype rrc n) := by
  induction n with
  | zero =>
    intro nid rrv c vis hreach h hn
    omega
  | succ n ih =>
    intro nid rrv c vis hreach h hn
    have hnid := hgood.reached hnid₀ hreach
    -- no node has the new phase yet
    have hnext : Walk c₀ ttl clock nid₀ qtype rrc { c with Phase := c.Phase + 1 } rrv vis :=
      ⟨⟨h.later.next, h.later.Nodes, h.later.links, h.later.attrs⟩,
        fun i hi => (h.phase i hi).trans (Int.le_add_one le_rfl), h.named, h.sound, h.nodup, h.room⟩
    have hfresh : Seen c₀ { c with Phase := c.Phase + 1 } vis := by
      intro i hi heq
      have hle := h.phase i hi
      dsimp only at heq
      omega
    have hlater₁ : Later (qmask qtype) ttl clock c { c with Phase := c.Phase + 1 } :=
      ⟨rfl, rfl, fun _ => ⟨rfl, rfl, rfl, rfl, rfl⟩, fun _ => .inl rfl⟩
    obtain ⟨-, hPhase, hlater₂, hmark, hseen⟩ := hnext.mark hgood hfresh hnid
    obtain ⟨s, av, hget, hlater₃, hwalk, hseen₃, hav, hall⟩ :=
      hmark.getattr hgood hseen hnid (nodephase { c with Phase := c.Phase + 1 } nid).1.Phase
    obtain ⟨c', rrv', vis', hrun, hpart, hgot⟩ := lookupLoop_part hgood hnid₀ ih av
      (fun a ha => ⟨hwalk.later.mem (hav a ha).1 (hav a ha).2, (hav a ha).2⟩) hreach hwalk hseen₃
      (by omega)
    have hmem : nid ∈ vis' := hpart.visited (.inl rfl)
    have hclosed : rrv'.length < rrc → Small (qmask qtype) c₀ →
        Closed (qmask qtype) c' rrv' vis' nid := by
      intro hlt hsmall b hb hhas
      exact hgot hlt b (hall hsmall b (hpart.later.mem hb hhas) hhas)
    refine ⟨c', rrv', vis', ?_, ?_, hmem, hclosed⟩
    · unfold lookupCache
      unfold qmask at hget
      dsimp only
      rw [hget]
      exact hrun
    · refine ⟨hpart.walk, hpart.seen, hlater₁.trans (hlater₂.trans (hlater₃.trans hpart.later)),
        hpart.recs, (Set.subset_insert _ _).trans hpart.visited, ?_⟩
      intro hlt hsmall i hi
      rcases hpart.closed hlt hsmall i hi with (rfl | hi) | hi
      · exact .inr (hclosed hlt hsmall)
      · exact .inl hi
      · exact .inr hi

/-- A record that is not cleared is in the mask of a query for its type. -/
theorem Good.has (hgood : Good c₀ key) (hlater : Later (qmask qtype) ttl clock c₀ c) {i : Nat}
    (hi : i ≤ c₀.store.NID) {a : Attr} (ha : a ∈ (c.store.heap i).n_attr) (hflag : a.a_flag ≠ 0)
    (htype : a.rr.type % 32 = qtype % 32 ∨ a.rr.type = TY_CNAME) : a.has (qmask qtype) = true := by
  obtain ⟨b, hb, hkept⟩ := kept_mem (hlater.attrs i).kept ha
  have heq : a = b := by
    rcases hkept with h | h
    · exact h
    · rw [h] at hflag
      exact absurd rfl hflag
  subst heq
  have hmask := (hgood.flag i hi a hb).resolve_left hflag
  unfold Attr.has qmask
  rw [hmask, mask_has, Bool.or_eq_true, beq_iff_eq, beq_iff_eq]
  rcases htype with h | h
  · exact .inl h
  · exact .inr (by rw [h]; rfl)

end Walk

/-- A lookup in a cache ends with the answer. -/
theorem lookupCache_answer (c : Cache) (key : Nat → List Text) (hgood : Good c key) (ttl : Int)
    (clock : Int → Int) (nid qtype rrc : Nat) (hnid : nid ≤ c.store.NID) :
    ∃ c' rrv, lookupCache ttl clock qtype rrc (rrc + 1) nid [] c = some (c', rrv) ∧
      Answer ttl clock nid qtype rrc c c' rrv := by
  have hstart : Walk c ttl clock nid qtype rrc c [] ∅ :=
    ⟨.same c, hgood.phase, fun _ h => absurd h List.not_mem_nil,
      fun _ h => absurd h List.not_mem_nil, .nil, Nat.zero_le _⟩
  obtain ⟨c', rrv, vis, hrun, hpart, hmem, -⟩ :=
    lookupCache_follows hgood hnid (rrc + 1) nid [] c ∅ .start hstart (Nat.lt_succ_of_le (Nat.sub_le _ _))
  refine ⟨c', rrv, hrun, hpart.walk.room, hpart.walk.nodup, hpart.walk.sound, hpart.later.attrs, ?_⟩
  intro hlt hsmall
  have hclosed : ∀ i ∈ vis, Closed (qmask qtype) c' rrv vis i := fun i hi =>
    (hpart.closed hlt hsmall i hi).resolve_left (Set.notMem_empty i)
  have hlinked : ∀ i, Linked c'.store nid i → i ≤ c.store.NID ∧ i ∈ vis := by
    intro i hi
    induction hi with
    | start => exact ⟨hnid, hmem⟩
    | @step i a _ ha hflag htype ih =>
      have hhas := hgood.has hpart.later ih.1 ha hflag (.inr htype)
      exact ⟨(hgood.target i ih.1 a (hpart.later.mem ha hhas) htype).1,
        (hclosed i ih.2 a ha hhas).2 htype⟩
  intro i hi a ha hflag hwanted
  obtain ⟨hle, hvis⟩ := hlinked i hi
  exact (hclosed i hvis a ha (hgood.has hpart.later hle ha hflag (.inl hwanted.2))).1 hwanted.1

/-- A cache with records of the root node only. -/
def rootCache (attrs : List Attr) : Cache :=
  ⟨Store.init.setNode TopNode { Store.init.heap TopNode with n_attr := attrs }, 0⟩

theorem byName_root (attrs : List Attr) : byName (rootCache attrs).store TopNode = some TopNode := by
  have hlabels : nameLabels 0 0 ['.'] = [[]] := by
    unfold nameLabels
    simp [nameLabels, MAXLEV]
  have hname : DNS_nodename (rootCache attrs).store TopNode 512 = some ['.'] := rfl
  unfold byName
  rw [hname]
  unfold DNS_getbyname nsearch
  simp only [hlabels, if_true]
  rfl

theorem good_rootCache {attrs : List Attr}
    (hflag : ∀ a ∈ attrs, a.a_flag = 0 ∨ a.a_flag = typemask a.rr.type)
    (haddr : ∀ a ∈ attrs, ∀ b ∈ attrs, a.addr = b.addr → a.a_data = b.a_data)
    (htarget : ∀ a ∈ attrs, a.rr.type = TY_CNAME → a.rr.ival = TopNode) :
    Good (rootCache attrs) fun _ => [] := by
  have hnone : ∀ i ≤ 1, ∀ a, a ∈ ((rootCache attrs).store.heap i).n_attr → a ∈ attrs := by
    intro i hi a ha
    rcases init_id hi with rfl | rfl
    · exact absurd ha List.not_mem_nil
    · exact ha
  refine ⟨index_init.setNode ⟨rfl, rfl, rfl, rfl, rfl⟩, ?_, ?_, ?_, ?_⟩
  · intro i hi
    rcases init_id hi with rfl | rfl <;> exact le_rfl
  · exact fun i hi a ha => hflag a (hnone i hi a ha)
  · exact fun i hi a ha j hj b hb => haddr a (hnone i hi a ha) b (hnone j hj b hb)
  · intro i hi a ha hc
    rw [htarget a (hnone i hi a ha) hc]
    exact ⟨le_rfl, byName_root attrs⟩

def aRecord : Attr := ⟨0, typemask TY_A, 0, 60, [1, 1, 10, 0, 0, 5]⟩

/-- A canonical name of the root node that is the root node. -/
def selfRecord : Attr := ⟨1, typemask TY_CNAME, 0, 60, [5, 1, 0, 0, 0, 1]⟩

theorem lookupCache_answer_root :
    ∃ c' rrv, lookupCache 0 (fun _ => 0) TY_A 8 9 1 [] (rootCache [selfRecord, aRecord]) =
        some (c', rrv) ∧ Answer 0 (fun _ => 0) 1 TY_A 8 (rootCache [selfRecord, aRecord]) c' rrv :=
  lookupCache_answer _ _ (good_rootCache (by decide) (by decide) (by decide)) 0 _ 1 TY_A 8 le_rfl

def nsRecord : Attr := ⟨0, typemask delegate.dns.TY_NS, 0, 60, [2, 1, 0, 0, 0, 1]⟩

/-- An NS record is not found by a query for its type, and an A record is found by a query for
SRV. -/
theorem ns_record_left_out :
    (lookupCache 0 (fun _ => 0) delegate.dns.TY_NS 8 9 1 [] (rootCache [nsRecord])).map Prod.snd =
        some [] ∧
      (nsRecord ∈ ((rootCache [nsRecord]).store.heap 1).n_attr ∧
        nsRecord.rr.type = delegate.dns.TY_NS) ∧
      (lookupCache 0 (fun _ => 0) TY_SRV 8 9 1 [] (rootCache [aRecord])).map Prod.snd =
        some [aRecord.rr] ∧ aRecord.rr.type ≠ TY_SRV := by
  refine ⟨?_, ⟨List.mem_singleton_self _, rfl⟩, ?_, ?_⟩
  · decide +kernel
  · decide +kernel
  · decide

end delegate.dnsnode
