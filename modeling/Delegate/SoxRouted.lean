-- The multiplexer and the links: each connection of a tunnel goes the way of a link of its own, as
-- long as an id is given to a new agent only when nothing can still be sent to the old one.
import Delegate.SoxLink

namespace delegate.sox

/-! ## The table of the agents -/

section
variable {as : List Agent} {a a' x : Agent} {which : Agent → Bool} {c l : Nat}

/-- The socket and the id of each agent. -/
def ids (as : List Agent) : List (Nat × Nat) := as.map fun a => (a.sock, a.Laid)

theorem mem_ids (h : a ∈ as) : (a.sock, a.Laid) ∈ ids as := List.mem_map_of_mem h

theorem setAgent_map {β : Type} (f : Agent → β) (hf : as.find? which = some a) (h : f a' = f a) :
    (setAgent which a' as).map f = as.map f := by
  induction as with
  | nil => cases hf
  | cons b as ih =>
    rw [setAgent]
    rw [List.find?_cons] at hf
    by_cases hb : which b = true
    · rw [hb] at hf
      cases hf
      rw [if_pos hb, List.map_cons, List.map_cons, h]
    · rw [if_neg hb, List.map_cons, List.map_cons]
      rw [Bool.not_eq_true] at hb
      rw [hb] at hf
      rw [ih hf]

theorem ids_set (hf : as.find? which = some a) (hs : a'.sock = a.sock) (hl : a'.Laid = a.Laid) :
    ids (setAgent which a' as) = ids as :=
  setAgent_map (fun a => (a.sock, a.Laid)) hf (by rw [hs, hl])

theorem mem_setAgent (h : x ∈ setAgent which a' as) : x = a' ∨ x ∈ as := by
  induction as with
  | nil => cases h
  | cons b as ih =>
    rw [setAgent] at h
    split at h
    · rcases List.mem_cons.mp h with h | h
      · exact .inl h
      · exact .inr (List.mem_cons_of_mem _ h)
    · rcases List.mem_cons.mp h with h | h
      · exact .inr (h ▸ List.mem_cons_self)
      · exact (ih h).imp id (List.mem_cons_of_mem _)

/-- The agent of a socket. -/
def portOf (as : List Agent) (c : Nat) : Option Port := (as.find? (·.sock == c)).map Agent.toPort

theorem find_sock (hnd : (as.map (·.sock)).Nodup) :
    as.find? (·.sock == c) = some a ↔ a ∈ as ∧ a.sock = c := by
  constructor
  · intro h
    exact ⟨List.mem_of_find?_eq_some h, by simpa using List.find?_some h⟩
  · rintro ⟨ha, rfl⟩
    obtain ⟨x, hx⟩ := Option.isSome_iff_exists.mp
      (List.find?_isSome.mpr ⟨a, ha, by simp⟩ : (as.find? (·.sock == a.sock)).isSome)
    have hsock : x.sock = a.sock := by simpa using List.find?_some hx
    rw [hx, List.inj_on_of_nodup_map hnd (List.mem_of_find?_eq_some hx) ha hsock]

theorem portOf_mem (hnd : (as.map (·.sock)).Nodup) (ha : a ∈ as) :
    portOf as a.sock = some a.toPort := by
  rw [portOf, (find_sock hnd).mpr ⟨ha, rfl⟩]
  rfl

theorem portOf_none : portOf as c = none ↔ ∀ a ∈ as, a.sock ≠ c := by
  rw [portOf, Option.map_eq_none_iff, List.find?_eq_none]
  simp

theorem portOf_set (hnd : (as.map (·.sock)).Nodup) (hf : as.find? which = some a)
    (hs : a'.sock = a.sock) (c : Nat) :
    portOf (setAgent which a' as) c = if c = a.sock then some a'.toPort else portOf as c := by
  induction as with
  | nil => cases hf
  | cons b as ih =>
    rw [setAgent]
    rw [List.find?_cons] at hf
    rw [List.map_cons, List.nodup_cons] at hnd
    by_cases hb : which b = true
    · rw [hb] at hf
      cases hf
      rw [if_pos hb]
      by_cases hc : c = a.sock
      · simp [portOf, hs, hc]
      · have hc' : (a.sock == c) = false := by simpa using Ne.symm hc
        simp [portOf, hs, hc, hc']
    · rw [if_neg hb]
      rw [Bool.not_eq_true] at hb
      rw [hb] at hf
      have hne : b.sock ≠ a.sock := by
        intro h
        exact hnd.1 (h ▸ List.mem_map_of_mem (List.mem_of_find?_eq_some hf))
      by_cases hc : b.sock = c
      · have hc' : (b.sock == c) = true := by simpa using hc
        have hca : ¬ c = a.sock := fun h => hne (hc.trans h)
        rw [if_neg hca]
        simp [portOf, hc']
      · have hc' : (b.sock == c) = false := by simpa using hc
        have := ih hnd.2 hf
        simp only [portOf, List.find?_cons, hc'] at this ⊢
        exact this

theorem portOf_snoc (h : ∀ x ∈ as, x.sock ≠ a.sock) (c : Nat) :
    portOf (as ++ [a]) c = if c = a.sock then some a.toPort else portOf as c := by
  rw [portOf, List.find?_append]
  by_cases hc : c = a.sock
  · have hnone : as.find? (·.sock == c) = none := by
      rw [List.find?_eq_none]
      intro x hx
      simpa [hc] using h x hx
    rw [hnone, if_pos hc]
    simp [hc]
  · have hc' : (a.sock == c) = false := by simpa using Ne.symm hc
    simp [hc, hc', portOf]

/-! ### Ids -/

/-- The id `l` is that of the agent of `c`, or it is none and there is no such agent. -/
def Known (is : List (Nat × Nat)) (c l : Nat) : Prop :=
  (c, l) ∈ is ∨ l = noAid ∧ ∀ i ∈ is, i.1 ≠ c

/-- The id `l` leads to the agent of `c` and to no other. -/
def Leads (is : List (Nat × Nat)) (c l : Nat) : Prop := ∀ i ∈ is, i.1 = c ↔ i.2 = l

variable {is : List (Nat × Nat)}

theorem Known.leads (h : Known is c l) (hsocks : (is.map Prod.fst).Nodup)
    (hlaids : (is.map Prod.snd).Nodup) (hno : ∀ i ∈ is, i.2 ≠ noAid) : Leads is c l := by
  intro i hi
  rcases h with h | ⟨rfl, h⟩
  · constructor
    · intro he
      rw [List.inj_on_of_nodup_map hsocks hi h he]
    · intro he
      rw [List.inj_on_of_nodup_map hlaids hi h he]
  · exact ⟨fun he => absurd he (h i hi), fun he => absurd he (hno i hi)⟩

theorem Known.snoc {i : Nat × Nat} (h : Known is c l) (hc : i.1 ≠ c) : Known (is ++ [i]) c l := by
  rcases h with h | ⟨hl, h⟩
  · exact .inl (List.mem_append_left _ h)
  · refine .inr ⟨hl, ?_⟩
    intro j hj
    rcases List.mem_append.mp hj with hj | hj
    · exact h j hj
    · rw [List.mem_singleton.mp hj]
      exact hc

theorem Leads.snoc {i : Nat × Nat} (h : Leads is c l) (hc : i.1 ≠ c) (hl : i.2 ≠ l) :
    Leads (is ++ [i]) c l := by
  intro j hj
  rcases List.mem_append.mp hj with hj | hj
  · exact h j hj
  · rw [List.mem_singleton.mp hj]
    exact ⟨fun h => absurd h hc, fun h => absurd h hl⟩

end

/-! ## Links of a tunnel -/

/-- The packets of a connection. -/
def chanOf (comm : List (Nat × Packet)) (c : Nat) : List Body :=
  comm.filterMap fun m => if m.1 = c then some m.2.body else none

def Tunnel.link (t : Tunnel) (c : Nat) : Link :=
  ⟨fun b => portOf (t.side b).agents c, fun b => chanOf (t.comm b) c, fun b => t.got b c,
    fun b => t.put b c⟩

section
variable {comm comm' : List (Nat × Packet)} {m : Nat × Packet} {c : Nat}

@[simp] theorem chanOf_nil : chanOf [] c = [] := rfl

theorem chanOf_cons : chanOf (m :: comm) c =
    (if m.1 = c then [m.2.body] else []) ++ chanOf comm c := by
  rw [chanOf, List.filterMap_cons]
  split <;> simp_all [chanOf]

theorem chanOf_append : chanOf (comm ++ comm') c = chanOf comm c ++ chanOf comm' c :=
  List.filterMap_append

theorem mem_chanOf {body : Body} (h : body ∈ chanOf comm c) :
    ∃ pack, (c, pack) ∈ comm ∧ pack.body = body := by
  obtain ⟨m, hm, hb⟩ := List.mem_filterMap.mp h
  split at hb
  · rename_i hc
    cases hb
    exact ⟨m.2, hc ▸ hm, rfl⟩
  · cases hb

theorem chanOf_mem {pack : Packet} (h : (c, pack) ∈ comm) : pack.body ∈ chanOf comm c :=
  List.mem_filterMap.mpr ⟨(c, pack), h, if_pos rfl⟩

end

/-- A packet is taken from the channel to `b`. -/
def Tunnel.pop (t : Tunnel) (b : Bool) (comm : List (Nat × Packet)) : Tunnel :=
  { t with comm := Function.update t.comm (!b) comm }

section
variable {t : Tunnel} {b : Bool} {r : Done} {p : Port} {m : Nat × Packet}
  {comm : List (Nat × Packet)} {c : Nat}

@[simp] theorem tunnel_after_side : (t.after b r).side b = r.state := Function.update_self ..

@[simp] theorem tunnel_after_side_not : (t.after b r).side (!b) = t.side !b :=
  Function.update_of_ne (Bool.not_ne_self b) ..

@[simp] theorem tunnel_after_comm : (t.after b r).comm b =
    t.comm b ++ r.out.toList.map fun pack => (r.sock, pack) := Function.update_self ..

@[simp] theorem tunnel_after_comm_not : (t.after b r).comm (!b) = t.comm !b :=
  Function.update_of_ne (Bool.not_ne_self b) ..

@[simp] theorem tunnel_after_conns : (t.after b r).conns = t.conns := rfl

@[simp] theorem tunnel_pop_side : (t.pop b comm).side = t.side := rfl

@[simp] theorem tunnel_pop_comm : (t.pop b comm).comm b = t.comm b :=
  Function.update_of_ne (Bool.not_ne_self b).symm ..

@[simp] theorem tunnel_pop_comm_not : (t.pop b comm).comm (!b) = comm := Function.update_self ..

@[simp] theorem tunnel_pop_conns : (t.pop b comm).conns = t.conns := rfl

theorem add_apply (f : Bool → Nat → List UInt8) (b b' : Bool) (c c' : Nat) (s : List UInt8) :
    add f b c s b' c' = if b' = b ∧ c' = c then f b c ++ s else f b' c' := by
  unfold add
  by_cases hb : b' = b
  · subst hb
    rw [Function.update_self]
    by_cases hc : c' = c
    · subst hc
      rw [Function.update_self, if_pos ⟨rfl, rfl⟩]
    · rw [Function.update_of_ne hc, if_neg fun h => hc h.2]
  · rw [Function.update_of_ne hb, if_neg fun h => hb h.1]

theorem link_ext {l l' : Link} (b : Bool) (hp : l.port b = l'.port b)
    (hp' : l.port (!b) = l'.port !b) (hc : l.chan b = l'.chan b)
    (hc' : l.chan (!b) = l'.chan !b) (hg : l.got b = l'.got b) (hg' : l.got (!b) = l'.got !b)
    (hw : l.put b = l'.put b) (hw' : l.put (!b) = l'.put !b) : l = l' := by
  obtain ⟨port, chan, got, put⟩ := l
  obtain ⟨port', chan', got', put'⟩ := l'
  simp only [Link.mk.injEq]
  exact ⟨funext (forall_side b hp hp'), funext (forall_side b hc hc'),
    funext (forall_side b hg hg'), funext (forall_side b hw hw')⟩

/-- An event of the agent of a socket is one of the link of the socket. -/
theorem link_after (hport : ∀ c, portOf r.state.agents c =
      if c = r.sock then some p else portOf (t.side b).agents c) (c : Nat) :
    (t.after b r).link c =
      if c = r.sock then (t.link c).after b ⟨p, r.out.map Packet.body, r.read, r.written⟩
      else t.link c := by
  have hchan : chanOf (r.out.toList.map fun pack => (r.sock, pack)) c =
      if c = r.sock then (r.out.map Packet.body).toList else [] := by
    cases r.out with
    | none => simp
    | some pack => simp [chanOf_cons, eq_comm]
  by_cases hc : c = r.sock
  · rw [if_pos hc]
    rw [if_pos hc] at hchan
    apply link_ext b
    · rw [after_port]
      exact (congrArg (portOf · c) (congrArg Sox.agents tunnel_after_side)).trans
        ((hport c).trans (if_pos hc))
    · rw [after_port_not]
      exact congrArg (portOf · c) (congrArg Sox.agents tunnel_after_side_not)
    · rw [after_chan, ← hchan]
      exact (congrArg (chanOf · c) tunnel_after_comm).trans chanOf_append
    · rw [after_chan_not]
      exact congrArg (chanOf · c) tunnel_after_comm_not
    · rw [after_got]
      exact (add_apply ..).trans (by rw [if_pos ⟨rfl, hc⟩, ← hc]; rfl)
    · rw [after_got_not]
      exact (add_apply ..).trans (if_neg fun h => Bool.not_ne_self b h.1)
    · rw [after_put]
      exact (add_apply ..).trans (by rw [if_pos ⟨rfl, hc⟩, ← hc]; rfl)
    · rw [after_put_not]
      exact (add_apply ..).trans (if_neg fun h => Bool.not_ne_self b h.1)
  · rw [if_neg hc]
    rw [if_neg hc] at hchan
    apply link_ext b
    · exact (congrArg (portOf · c) (congrArg Sox.agents tunnel_after_side)).trans
        ((hport c).trans (if_neg hc))
    · exact congrArg (portOf · c) (congrArg Sox.agents tunnel_after_side_not)
    · simp only [Tunnel.link, tunnel_after_comm, chanOf_append, hchan, List.append_nil]
    · exact congrArg (chanOf · c) tunnel_after_comm_not
    all_goals exact (add_apply ..).trans (if_neg fun h => hc h.2)

theorem link_pop (hc : t.comm (!b) = m :: comm) (c : Nat) :
    (t.pop b comm).link c =
      if c = m.1 then (t.link c).pop b (chanOf comm c) else t.link c := by
  have hchan : (t.link c).chan (!b) = (if m.1 = c then [m.2.body] else []) ++ chanOf comm c := by
    rw [← chanOf_cons, ← hc]
    rfl
  by_cases hm : c = m.1
  · rw [if_pos hm]
    apply link_ext b
    · rfl
    · rfl
    · rw [pop_chan]
      exact congrArg (chanOf · c) tunnel_pop_comm
    · rw [pop_chan_not]
      exact congrArg (chanOf · c) tunnel_pop_comm_not
    all_goals rfl
  · rw [if_neg hm]
    rw [if_neg (Ne.symm hm), List.nil_append] at hchan
    apply link_ext b
    · rfl
    · rfl
    · exact congrArg (chanOf · c) tunnel_pop_comm
    · exact (congrArg (chanOf · c) tunnel_pop_comm_not).trans hchan.symm
    all_goals rfl

theorem link_chan (hc : t.comm (!b) = m :: comm) :
    (t.link m.1).chan (!b) = m.2.body :: chanOf comm m.1 := by
  change chanOf (t.comm !b) m.1 = _
  rw [hc, chanOf_cons, if_pos rfl]
  rfl

end

/-! ## What the ids keep -/

def Tunnel.ids (t : Tunnel) (b : Bool) : List (Nat × Nat) := sox.ids (t.side b).agents

/-- An id that is given to an agent at `b` is not one to which an answer is sent or will be sent
for what an agent before it sent. -/
def Tunnel.Free (t : Tunnel) (b : Bool) (l : Nat) : Prop :=
  (∀ m ∈ t.comm !b, ∀ n, m.2.body = .SENT n → m.2.Raid ≠ l) ∧
    ∀ a ∈ (t.side !b).agents, a.stat = .CLOSED → a.lbuf ≠ [] → a.Xaid ≠ l

/-- Sockets and ids are not used twice at a time; a packet names the agent that it is for, and the
one that an answer to it is for; an agent names its peer. -/
structure Routed (t : Tunnel) : Prop where
  socks (b : Bool) : ((t.ids b).map Prod.fst).Nodup
  laids (b : Bool) : ((t.ids b).map Prod.snd).Nodup
  active (b : Bool) : ∀ i ∈ t.ids b,
    i.1 < t.conns ∧ i.2 ≠ noAid ∧ (t.side b).aidactive i.2 = true
  nlaid (b : Bool) : (t.side b).nlaid < NSOCK
  size (b : Bool) : (t.side b).PackSize ≤ PWSIZE
  tags (b : Bool) : ∀ m ∈ t.comm b, m.1 < t.conns
  unused (b : Bool) (c : Nat) (hc : t.conns ≤ c) : t.got b c = [] ∧ t.put b c = []
  peer (b : Bool) : ∀ a ∈ (t.side b).agents, a.Opened → Known (t.ids !b) a.sock a.Xaid
  late (b : Bool) : ∀ a ∈ (t.side b).agents, a.stat = .CLOSED → a.lbuf ≠ [] →
    Leads (t.ids !b) a.sock a.Xaid
  call (b : Bool) : ∀ m ∈ t.comm b, ∀ conndata, m.2.body = .CONNECT conndata →
    m.2.Raid = noAid ∧ Known (t.ids b) m.1 m.2.Said
  ack (b : Bool) : ∀ m ∈ t.comm b, ∀ n, m.2.body = .SENT n → Leads (t.ids !b) m.1 m.2.Raid
  dest (b : Bool) : ∀ m ∈ t.comm b, (∀ conndata, m.2.body ≠ .CONNECT conndata) →
    (∀ n, m.2.body ≠ .SENT n) → Known (t.ids !b) m.1 m.2.Raid
  back (b : Bool) : ∀ m ∈ t.comm b, (∀ conndata, m.2.body ≠ .CONNECT conndata) →
    ∀ a ∈ (t.side !b).agents, a.sock = m.1 → a.stat.closing = false → Known (t.ids b) m.1 m.2.Said

/-- What a tunnel keeps. -/
structure Tunnel.Inv (t : Tunnel) : Prop where
  routed : Routed t
  links (c : Nat) : (t.link c).Inv

section
variable {t : Tunnel} {b : Bool} {a a' : Agent} {m : Nat × Packet} {comm : List (Nat × Packet)}
  {c l : Nat} {out : Option Packet} {read written : List UInt8} {which : Agent → Bool}

theorem Routed.nodup (h : Routed t) (b : Bool) : ((t.side b).agents.map (·.sock)).Nodup := by
  have := h.socks b
  rwa [Tunnel.ids, ids, List.map_map] at this

theorem Routed.leads (h : Routed t) {b : Bool} (hk : Known (t.ids b) c l) : Leads (t.ids b) c l :=
  hk.leads (h.socks b) (h.laids b) fun i hi => (h.active b i hi).2.1

theorem Routed.pop (h : Routed t) (hc : t.comm (!b) = m :: comm) : Routed (t.pop b comm) := by
  have hmem {b' : Bool} {m' : Nat × Packet} (hm : m' ∈ (t.pop b comm).comm b') :
      m' ∈ t.comm b' := by
    rcases Bool.eq_or_eq_not b' b with rfl | rfl
    · rwa [tunnel_pop_comm] at hm
    · rw [tunnel_pop_comm_not] at hm
      rw [hc]
      exact List.mem_cons_of_mem _ hm
  exact ⟨h.socks, h.laids, h.active, h.nlaid, h.size, fun b' m' hm => h.tags b' m' (hmem hm),
    h.unused, h.peer, h.late, fun b' m' hm => h.call b' m' (hmem hm),
    fun b' m' hm => h.ack b' m' (hmem hm), fun b' m' hm => h.dest b' m' (hmem hm),
    fun b' m' hm => h.back b' m' (hmem hm)⟩

/-! ### The parts of what is kept -/

/-- The sockets and the ids at `b`. -/
structure Named (t : Tunnel) (b : Bool) : Prop where
  socks : ((t.ids b).map Prod.fst).Nodup
  laids : ((t.ids b).map Prod.snd).Nodup
  active : ∀ i ∈ t.ids b, i.1 < t.conns ∧ i.2 ≠ noAid ∧ (t.side b).aidactive i.2 = true
  nlaid : (t.side b).nlaid < NSOCK
  size : (t.side b).PackSize ≤ PWSIZE

/-- A packet of `b` names the agents that it and an answer to it are for. -/
structure Addressed (t : Tunnel) (b : Bool) (m : Nat × Packet) : Prop where
  tag : m.1 < t.conns
  call : ∀ conndata, m.2.body = .CONNECT conndata → m.2.Raid = noAid ∧ Known (t.ids b) m.1 m.2.Said
  ack : ∀ n, m.2.body = .SENT n → Leads (t.ids !b) m.1 m.2.Raid
  dest : (∀ conndata, m.2.body ≠ .CONNECT conndata) → (∀ n, m.2.body ≠ .SENT n) →
    Known (t.ids !b) m.1 m.2.Raid
  back : (∀ conndata, m.2.body ≠ .CONNECT conndata) →
    ∀ a ∈ (t.side !b).agents, a.sock = m.1 → a.stat.closing = false → Known (t.ids b) m.1 m.2.Said

/-- An agent of `b` names its peer. -/
structure Peered (t : Tunnel) (b : Bool) (a : Agent) : Prop where
  peer : a.Opened → Known (t.ids !b) a.sock a.Xaid
  late : a.stat = .CLOSED → a.lbuf ≠ [] → Leads (t.ids !b) a.sock a.Xaid

theorem Routed.named (h : Routed t) (b : Bool) : Named t b :=
  ⟨h.socks b, h.laids b, h.active b, h.nlaid b, h.size b⟩

theorem Routed.addressed (h : Routed t) (hm : m ∈ t.comm b) : Addressed t b m :=
  ⟨h.tags b m hm, h.call b m hm, h.ack b m hm, h.dest b m hm, h.back b m hm⟩

theorem Routed.peered (h : Routed t) (ha : a ∈ (t.side b).agents) : Peered t b a :=
  ⟨h.peer b a ha, h.late b a ha⟩

theorem Routed.of_parts (hnamed : ∀ b, Named t b)
    (hunused : ∀ b c, t.conns ≤ c → t.got b c = [] ∧ t.put b c = [])
    (haddressed : ∀ b, ∀ m ∈ t.comm b, Addressed t b m)
    (hpeered : ∀ b, ∀ a ∈ (t.side b).agents, Peered t b a) : Routed t :=
  ⟨fun b => (hnamed b).socks, fun b => (hnamed b).laids, fun b => (hnamed b).active,
    fun b => (hnamed b).nlaid, fun b => (hnamed b).size, fun b m hm => (haddressed b m hm).tag, hunused,
    fun b a ha => (hpeered b a ha).peer, fun b a ha => (hpeered b a ha).late,
    fun b m hm => (haddressed b m hm).call, fun b m hm => (haddressed b m hm).ack,
    fun b m hm => (haddressed b m hm).dest, fun b m hm => (haddressed b m hm).back⟩

theorem Named.same {t' : Tunnel} (h : Named t b) (hconns : t.conns ≤ t'.conns) (hids : t'.ids b = t.ids b)
    (hactive : (t'.side b).aidactive = (t.side b).aidactive) (hnlaid : (t'.side b).nlaid = (t.side b).nlaid)
    (hsize : (t'.side b).PackSize = (t.side b).PackSize) : Named t' b := by
  refine ⟨hids.symm ▸ h.socks, hids.symm ▸ h.laids, ?_, hnlaid.symm ▸ h.nlaid, hsize.symm ▸ h.size⟩
  intro i hi
  rw [hids] at hi
  obtain ⟨h1, h2, h3⟩ := h.active i hi
  exact ⟨Nat.lt_of_lt_of_le h1 hconns, h2, hactive.symm ▸ h3⟩

/-- A packet is addressed as before where the agents that it names are known as before. -/
theorem Addressed.keep {t' : Tunnel} (h : Addressed t b m) (hconns : t.conns ≤ t'.conns)
    (hcall : ∀ conndata, m.2.body = .CONNECT conndata → Known (t.ids b) m.1 m.2.Said →
      Known (t'.ids b) m.1 m.2.Said)
    (hack : ∀ n, m.2.body = .SENT n → Leads (t.ids !b) m.1 m.2.Raid → Leads (t'.ids !b) m.1 m.2.Raid)
    (hdest : (∀ n, m.2.body ≠ .SENT n) → Known (t.ids !b) m.1 m.2.Raid → Known (t'.ids !b) m.1 m.2.Raid)
    (hback : ∀ x ∈ (t'.side !b).agents, x.sock = m.1 → x.stat.closing = false →
      ∃ a ∈ (t.side !b).agents, a.sock = m.1 ∧ a.stat.closing = false ∧
        (Known (t.ids b) m.1 m.2.Said → Known (t'.ids b) m.1 m.2.Said)) : Addressed t' b m := by
  constructor
  · exact Nat.lt_of_lt_of_le h.tag hconns
  · intro conndata hbody
    obtain ⟨hraid, hkn⟩ := h.call conndata hbody
    exact ⟨hraid, hcall conndata hbody hkn⟩
  · exact fun n hbody => hack n hbody (h.ack n hbody)
  · exact fun hno hsent => hdest hsent (h.dest hno hsent)
  · intro hno x hx hs hcl
    obtain ⟨a, ha, hsock, hclosing, hkn⟩ := hback x hx hs hcl
    exact hkn (h.back hno a ha hsock hclosing)

/-- What is at the sides of a tunnel, with the names of its agents, stays addressed. -/
theorem Addressed.same {t' : Tunnel} (h : Addressed t b m) (hconns : t.conns ≤ t'.conns)
    (hids : ∀ b', t'.ids b' = t.ids b')
    (hagents : ∀ x ∈ (t'.side !b).agents, x.stat.closing = false →
      ∃ a ∈ (t.side !b).agents, a.sock = x.sock ∧ a.stat.closing = false) : Addressed t' b m := by
  refine h.keep hconns ?_ ?_ ?_ ?_
  · exact fun _ _ hkn => (hids b).symm ▸ hkn
  · exact fun _ _ hle => (hids !b).symm ▸ hle
  · exact fun _ hkn => (hids !b).symm ▸ hkn
  · intro x hx hs hcl
    obtain ⟨a, ha, hsock, hclosing⟩ := hagents x hx hcl
    exact ⟨a, ha, hsock.trans hs, hclosing, fun hkn => (hids b).symm ▸ hkn⟩

/-- Of the bytes of the sockets only those of one socket change, and it has a number. -/
theorem Routed.unused_after (h : Routed t) {r : Done} (hsock : r.sock < t.conns) (b' : Bool)
    (hc : t.conns ≤ c) : (t.after b r).got b' c = [] ∧ (t.after b r).put b' c = [] := by
  have hne : ¬ (b' = b ∧ c = r.sock) := fun h => absurd (h.2 ▸ hc) (Nat.not_le.mpr hsock)
  exact ⟨(add_apply ..).trans ((if_neg hne).trans (h.unused b' c hc).1),
    (add_apply ..).trans ((if_neg hne).trans (h.unused b' c hc).2)⟩

/-- What holds of a packet that an agent of `b` sends. -/
structure Sent (t : Tunnel) (b : Bool) (m : Nat × Packet) : Prop where
  call : ∀ conndata, m.2.body ≠ .CONNECT conndata
  ack : ∀ n, m.2.body = .SENT n → Leads (t.ids !b) m.1 m.2.Raid
  dest : (∀ n, m.2.body ≠ .SENT n) → Known (t.ids !b) m.1 m.2.Raid
  back : Known (t.ids b) m.1 m.2.Said

/-- What holds of an agent of `b` after an event. -/
structure Linked (t : Tunnel) (b : Bool) (x : Agent) : Prop where
  peer : x.Opened → Known (t.ids !b) x.sock x.Xaid
  late : x.stat = .CLOSED → x.lbuf ≠ [] → Leads (t.ids !b) x.sock x.Xaid
  old : x.stat.closing = false → ∃ a ∈ (t.side b).agents, a.sock = x.sock ∧ a.stat.closing = false

theorem Routed.linked (h : Routed t) (ha : a ∈ (t.side b).agents) : Linked t b a :=
  ⟨h.peer b a ha, h.late b a ha, fun hcl => ⟨a, ha, rfl, hcl⟩⟩

/-- A packet that an agent of `b` sends. -/
theorem Sent.addressed (h : Sent t b m) (htag : m.1 < t.conns) : Addressed t b m :=
  ⟨htag, fun conndata hbody => absurd hbody (h.call conndata), h.ack, fun _ => h.dest,
    fun _ _ _ _ _ => h.back⟩

/-- An event that no socket and no id begins or ends with. -/
theorem Routed.after (h : Routed t) {r : Done} (hr : sox.ids r.state.agents = t.ids b)
    (hactive : r.state.aidactive = (t.side b).aidactive) (hnlaid : r.state.nlaid = (t.side b).nlaid)
    (hsize : r.state.PackSize = (t.side b).PackSize) (hlt : r.sock < t.conns)
    (hagent : ∀ x ∈ r.state.agents, Linked t b x)
    (hout : ∀ pack, r.out = some pack → Sent t b (r.sock, pack)) : Routed (t.after b r) := by
  have hids : ∀ b', (t.after b r).ids b' = t.ids b' := by
    refine forall_side b ?_ ?_
    · rw [Tunnel.ids, tunnel_after_side, hr]
    · rw [Tunnel.ids, tunnel_after_side_not]
      rfl
  have hagent : ∀ x ∈ ((t.after b r).side b).agents, Linked t b x := by
    rw [tunnel_after_side]
    exact hagent
  have hagent' : ∀ x ∈ ((t.after b r).side !b).agents, x ∈ (t.side !b).agents := by
    rw [tunnel_after_side_not]
    exact fun x hx => hx
  refine .of_parts ?_ (fun b' c hc => h.unused_after hlt b' hc) ?_ ?_
  · refine forall_side b ?_ ?_
    · refine (h.named b).same le_rfl (hids b) ?_ ?_ ?_ <;> rw [tunnel_after_side]
      · exact hactive
      · exact hnlaid
      · exact hsize
    · refine (h.named !b).same le_rfl (hids !b) ?_ ?_ ?_ <;> rw [tunnel_after_side_not]
  · refine forall_side b ?_ ?_
    · intro m hm
      have hold : ∀ x ∈ ((t.after b r).side !b).agents, x.stat.closing = false →
          ∃ a ∈ (t.side !b).agents, a.sock = x.sock ∧ a.stat.closing = false :=
        fun x hx hcl => ⟨x, hagent' x hx, rfl, hcl⟩
      rw [tunnel_after_comm] at hm
      rcases List.mem_append.mp hm with hm | hm
      · exact (h.addressed hm).same le_rfl hids hold
      · obtain ⟨pack, hp, rfl⟩ := List.mem_map.mp hm
        exact ((hout pack (Option.mem_toList.mp hp)).addressed hlt).same le_rfl hids hold
    · intro m hm
      rw [tunnel_after_comm_not] at hm
      refine (h.addressed hm).same le_rfl hids fun x hx hcl => ?_
      rw [Bool.not_not] at hx ⊢
      exact (hagent x hx).old hcl
  · refine forall_side b ?_ ?_
    · intro x hx
      refine ⟨fun hopened => ?_, fun hclosed hne => ?_⟩ <;> rw [hids]
      · exact (hagent x hx).peer hopened
      · exact (hagent x hx).late hclosed hne
    · intro x hx
      refine ⟨fun hopened => ?_, fun hclosed hne => ?_⟩ <;> rw [hids]
      · exact h.peer (!b) x (hagent' x hx) hopened
      · exact h.late (!b) x (hagent' x hx) hclosed hne

/-- An event of an agent: it keeps its socket and its id, and what it sends is for its peer. -/
theorem Routed.event (h : Routed t) (hf : (t.side b).agents.find? which = some a)
    (hs : a'.sock = a.sock) (hl : a'.Laid = a.Laid) (hlinked : Linked t b a')
    (hout : ∀ pack, out = some pack → Sent t b (a.sock, pack)) :
    Routed (t.after b ⟨(t.side b).set which a', a.sock, out, read, written⟩) := by
  have ha := List.mem_of_find?_eq_some hf
  refine h.after (ids_set hf hs hl) rfl rfl rfl (h.active b _ (mem_ids ha)).1 ?_ hout
  intro x hx
  rcases mem_setAgent hx with rfl | hx
  · exact hlinked
  · exact h.linked hx

/-- The names of `b` with those of a new agent, whose id is not active. -/
theorem Named.snoc {t' : Tunnel} {n : Agent} (h : Named t b) (hconns : t.conns ≤ t'.conns)
    (hlt : n.sock < t'.conns) (hsock : ∀ i ∈ t.ids b, i.1 ≠ n.sock)
    (hl : (t.side b).aidactive n.Laid = false) (hl' : n.Laid + 1 < NSOCK)
    (hids : t'.ids b = t.ids b ++ [(n.sock, n.Laid)])
    (hactive : (t'.side b).aidactive = Function.update (t.side b).aidactive n.Laid true)
    (hnlaid : (t'.side b).nlaid = n.Laid + 1) (hsize : (t'.side b).PackSize = (t.side b).PackSize) :
    Named t' b := by
  constructor
  · rw [hids, List.map_append, List.nodup_append]
    refine ⟨h.socks, List.nodup_singleton _, ?_⟩
    intro c hc c' hc' he
    obtain ⟨i, hi, rfl⟩ := List.mem_map.mp hc
    exact hsock i hi (he.trans (List.mem_singleton.mp hc'))
  · rw [hids, List.map_append, List.nodup_append]
    refine ⟨h.laids, List.nodup_singleton _, ?_⟩
    intro l hl1 l' hl2 he
    obtain ⟨i, hi, rfl⟩ := List.mem_map.mp hl1
    have hact := (h.active i hi).2.2
    rw [he.trans (List.mem_singleton.mp hl2), hl] at hact
    cases hact
  · intro i hi
    rw [hactive]
    rw [hids] at hi
    rcases List.mem_append.mp hi with hi | hi
    · obtain ⟨h1, h2, h3⟩ := h.active i hi
      refine ⟨Nat.lt_of_lt_of_le h1 hconns, h2, (Function.update_apply ..).trans ?_⟩
      split
      · rfl
      · exact h3
    · rw [List.mem_singleton.mp hi]
      refine ⟨hlt, ?_, Function.update_self ..⟩
      dsimp only [noAid]
      rw [NSOCK] at hl'
      omega
  · rw [hnlaid]
    exact hl'
  · rw [hsize]
    exact h.size

/-- A tunnel with one more agent at `b`, and the packet that it sends. -/
structure Grown (t : Tunnel) (b : Bool) (n : Agent) (pack : Packet) (t' : Tunnel) : Prop where
  conns : t.conns ≤ t'.conns
  ids : t'.ids b = t.ids b ++ [(n.sock, n.Laid)]
  ids_not : t'.ids (!b) = t.ids !b
  agents : ∀ x ∈ (t'.side b).agents, x ∈ (t.side b).agents ∨ x = n
  side_not : t'.side (!b) = t.side !b
  comm : ∀ m ∈ t'.comm b, m ∈ t.comm b ∨ m = (n.sock, pack)
  comm_not : t'.comm (!b) = t.comm !b

section
variable {t' : Tunnel} {n : Agent} {pack : Packet}

theorem Grown.known (hg : Grown t b n pack t') (h : Known (t.ids b) c l) (hc : c ≠ n.sock) :
    Known (t'.ids b) c l := by
  rw [hg.ids]
  exact h.snoc hc.symm

theorem Grown.leads (hg : Grown t b n pack t') (h : Leads (t.ids b) c l) (hc : c ≠ n.sock) (hl : l ≠ n.Laid) :
    Leads (t'.ids b) c l := by
  rw [hg.ids]
  exact h.snoc hc.symm hl.symm

/-- A packet that is for another socket is addressed as before. -/
theorem Grown.addressed (hg : Grown t b n pack t') (hm : m.1 ≠ n.sock) (h : Addressed t b m) :
    Addressed t' b m := by
  refine h.keep hg.conns ?_ ?_ ?_ ?_
  · exact fun _ _ hkn => hg.known hkn hm
  · exact fun _ _ hle => hg.ids_not.symm ▸ hle
  · exact fun _ hkn => hg.ids_not.symm ▸ hkn
  · intro x hx hs hcl
    rw [hg.side_not] at hx
    exact ⟨x, hx, hs, hcl, fun hkn => hg.known hkn hm⟩

theorem Grown.addressed_not (hg : Grown t b n pack t') (hm : m.1 ≠ n.sock)
    (hfree : ∀ k, m.2.body = .SENT k → m.2.Raid ≠ n.Laid) (h : Addressed t (!b) m) : Addressed t' (!b) m := by
  refine h.keep hg.conns ?_ ?_ ?_ ?_
  · exact fun _ _ hkn => hg.ids_not.symm ▸ hkn
  · intro k hbody hle
    rw [Bool.not_not] at hle ⊢
    exact hg.leads hle hm (hfree k hbody)
  · intro _ hkn
    rw [Bool.not_not] at hkn ⊢
    exact hg.known hkn hm
  · intro x hx hs hcl
    rw [Bool.not_not] at hx ⊢
    rcases hg.agents x hx with hx | rfl
    · exact ⟨x, hx, hs, hcl, fun hkn => hg.ids_not.symm ▸ hkn⟩
    · exact absurd hs.symm hm

/-- The packet of the new agent calls a peer, or answers its call. -/
theorem Grown.addressed_new (hg : Grown t b n pack t') (hlt : n.sock < t'.conns) (hsaid : pack.Said = n.Laid)
    (hpack : (∃ conndata, pack.body = .CONNECT conndata ∧ pack.Raid = noAid) ∨
      (∃ conndata, pack.body = .CONNECTED conndata) ∧ Known (t.ids !b) n.sock pack.Raid) :
    Addressed t' b (n.sock, pack) := by
  have hnew : Known (t'.ids b) n.sock pack.Said := by
    rw [hg.ids, hsaid]
    exact .inl (List.mem_append_right _ (List.mem_singleton.mpr rfl))
  refine ⟨hlt, ?_, ?_, ?_, fun _ _ _ _ _ => hnew⟩
  · intro conndata hbody
    rcases hpack with ⟨_, -, hraid⟩ | ⟨⟨_, hconn⟩, -⟩
    · exact ⟨hraid, hnew⟩
    · cases hconn.symm.trans hbody
  · intro k hbody
    rcases hpack with ⟨_, hconn, -⟩ | ⟨⟨_, hconn⟩, -⟩ <;> cases hconn.symm.trans hbody
  · intro hcall _
    rcases hpack with ⟨_, hconn, -⟩ | ⟨-, hkn⟩
    · exact absurd hconn (hcall _)
    · exact hg.ids_not.symm ▸ hkn

/-- The agents name their peers as before: none of them is that of the new agent. -/
theorem Grown.peered_not (hg : Grown t b n pack t') (hpeer : a.sock = n.sock → a.stat = .CONNECT)
    (hfree : a.stat = .CLOSED → a.lbuf ≠ [] → a.Xaid ≠ n.Laid) (h : Peered t (!b) a) : Peered t' (!b) a := by
  obtain ⟨hpeered, hlate⟩ := h
  rw [Bool.not_not] at hpeered hlate
  constructor
  · intro hopened
    rw [Bool.not_not]
    refine hg.known (hpeered hopened) fun hc => ?_
    rw [Port.Opened, hpeer hc] at hopened
    simp at hopened
  · intro hclosed hne
    rw [Bool.not_not]
    refine hg.leads (hlate hclosed hne) (fun hc => ?_) (hfree hclosed hne)
    rw [hpeer hc] at hclosed
    cases hclosed

end

/-- A new agent, with an id that is not active. -/
theorem Routed.create (h : Routed t) {n : Agent} {pack : Packet} {k : Nat}
    (hk : t.conns ≤ k) (hlt : n.sock < k) (hsock : ∀ i ∈ t.ids b, i.1 ≠ n.sock)
    (hl : (t.side b).aidactive n.Laid = false) (hl' : n.Laid + 1 < NSOCK)
    (hfree : t.Free b n.Laid) (hto : ∀ m ∈ t.comm !b, m.1 ≠ n.sock)
    (hfrom : ∀ m ∈ t.comm b, m.1 ≠ n.sock)
    (hpeer : ∀ a ∈ (t.side !b).agents, a.sock = n.sock → a.stat = .CONNECT)
    (hn : n.lbuf = []) (hopen : n.Opened → Known (t.ids !b) n.sock n.Xaid)
    (hsaid : pack.Said = n.Laid)
    (hpack : (∃ conndata, pack.body = .CONNECT conndata ∧ pack.Raid = noAid) ∨
      (∃ conndata, pack.body = .CONNECTED conndata) ∧ Known (t.ids !b) n.sock pack.Raid) :
    Routed { t.after b ⟨{ t.side b with
        agents := (t.side b).agents ++ [n]
        nlaid := n.Laid + 1
        aidactive := Function.update (t.side b).aidactive n.Laid true },
      n.sock, some pack, read, written⟩ with conns := k } := by
  generalize hr : (⟨{ t.side b with
      agents := (t.side b).agents ++ [n]
      nlaid := n.Laid + 1
      aidactive := Function.update (t.side b).aidactive n.Laid true },
    n.sock, some pack, read, written⟩ : Done) = r
  generalize ht' : ({ t.after b r with conns := k } : Tunnel) = t'
  have hside : t'.side b = r.state := by
    rw [← ht']
    exact tunnel_after_side
  have hconns : t'.conns = k := by rw [← ht']
  have hg : Grown t b n pack t' := by
    have hside' : t'.side (!b) = t.side !b := by
      rw [← ht']
      exact tunnel_after_side_not
    refine ⟨hconns.symm ▸ hk, ?_, by rw [Tunnel.ids, hside', Tunnel.ids], ?_, hside', ?_, ?_⟩
    · rw [Tunnel.ids, hside, ← hr]
      exact List.map_append
    · intro x hx
      rw [hside, ← hr] at hx
      exact (List.mem_append.mp hx).imp id List.mem_singleton.mp
    · intro m hm
      rw [← ht'] at hm
      change m ∈ (t.after b r).comm b at hm
      rw [tunnel_after_comm, ← hr] at hm
      exact (List.mem_append.mp hm).imp id List.mem_singleton.mp
    · rw [← ht']
      exact tunnel_after_comm_not
  refine .of_parts ?_ ?_ ?_ ?_
  · refine forall_side b ?_ ?_
    · refine (h.named b).snoc hg.conns (hconns.symm ▸ hlt) hsock hl hl' hg.ids ?_ ?_ ?_ <;> rw [hside, ← hr]
    · refine (h.named !b).same hg.conns hg.ids_not ?_ ?_ ?_ <;> rw [hg.side_not]
  · intro b' c hc
    rw [hconns] at hc
    have hne : ¬ (b' = b ∧ c = r.sock) := by
      rintro ⟨-, rfl⟩
      rw [← hr] at hc
      exact absurd hlt (Nat.not_lt.mpr hc)
    obtain ⟨h1, h2⟩ := h.unused b' c (hk.trans hc)
    rw [← ht']
    exact ⟨(add_apply ..).trans ((if_neg hne).trans h1),
      (add_apply ..).trans ((if_neg hne).trans h2)⟩
  · refine forall_side b ?_ ?_
    · intro m hm
      rcases hg.comm m hm with hm | rfl
      · exact hg.addressed (hfrom m hm) (h.addressed hm)
      · exact hg.addressed_new (hconns.symm ▸ hlt) hsaid hpack
    · intro m hm
      rw [hg.comm_not] at hm
      exact hg.addressed_not (hto m hm) (hfree.1 m hm) (h.addressed hm)
  · refine forall_side b ?_ ?_
    · intro x hx
      refine ⟨fun hopened => ?_, fun hclosed hne => ?_⟩ <;> rw [hg.ids_not] <;>
        rcases hg.agents x hx with hx | rfl
      · exact h.peer b x hx hopened
      · exact hopen hopened
      · exact h.late b x hx hclosed hne
      · exact absurd hn hne
    · intro x hx
      rw [hg.side_not] at hx
      exact hg.peered_not (hpeer x hx) (hfree.2 x hx) (h.peered hx)

end

/-! ## Agents that are removed -/

section
variable {as : List Agent} {aidactive : Nat → Bool} {time : Nat} {a : Agent} {l c : Nat}

theorem removable_CLOSED {p : Port} (h : removable time p = true) : p.stat = .CLOSED := by
  rw [removable, decide_eq_true_eq] at h
  exact h.1

theorem loop_sublist (time : Nat) (as : List Agent) (aidactive : Nat → Bool) :
    List.Sublist (sox_fdset.loop time as aidactive).1 as := by
  fun_induction sox_fdset.loop time as aidactive with
  | case1 => exact List.Sublist.refl _
  | case2 => exact List.nil_sublist _
  | case3 a aidactive h aidactive' b agents ih => exact (ih.cons_cons b).cons a
  | case4 a agents aidactive h ih => exact ih.cons_cons a

/-- Only closed agents are removed. -/
theorem loop_mem (ha : a ∈ as) :
    a ∈ (sox_fdset.loop time as aidactive).1 ∨ a.stat = .CLOSED := by
  fun_induction sox_fdset.loop time as aidactive with
  | case1 => cases ha
  | case2 x aidactive h =>
    rw [List.mem_singleton.mp ha]
    exact .inr (removable_CLOSED h)
  | case3 x aidactive h aidactive' y agents ih =>
    rcases List.mem_cons.mp ha with rfl | ha
    · exact .inr (removable_CLOSED h)
    · rcases List.mem_cons.mp ha with rfl | ha
      · exact .inl List.mem_cons_self
      · exact (ih ha).imp (List.mem_cons_of_mem _) id
  | case4 x agents aidactive h ih =>
    rcases List.mem_cons.mp ha with rfl | ha
    · exact .inl List.mem_cons_self
    · exact (ih ha).imp (List.mem_cons_of_mem _) id

theorem loop_other (hl : ∀ a ∈ as, a.Laid ≠ l) :
    (sox_fdset.loop time as aidactive).2 l = aidactive l := by
  fun_induction sox_fdset.loop time as aidactive with
  | case1 => rfl
  | case2 x aidactive h => exact Function.update_of_ne (hl x List.mem_cons_self).symm ..
  | case3 x aidactive h aidactive' y agents ih =>
    refine (ih fun a ha => hl a (List.mem_cons_of_mem _ (List.mem_cons_of_mem _ ha))).trans ?_
    exact Function.update_of_ne (hl x List.mem_cons_self).symm ..
  | case4 x agents aidactive h ih => exact ih fun a ha => hl a (List.mem_cons_of_mem _ ha)

/-- The id of an agent that stays is still active. -/
theorem loop_active (hnd : (as.map (·.Laid)).Nodup)
    (ha : a ∈ (sox_fdset.loop time as aidactive).1) :
    (sox_fdset.loop time as aidactive).2 a.Laid = aidactive a.Laid := by
  fun_induction sox_fdset.loop time as aidactive with
  | case1 => rfl
  | case2 => cases ha
  | case3 x aidactive h aidactive' y agents ih =>
    rw [List.map_cons, List.nodup_cons] at hnd
    obtain ⟨hx, hnd⟩ := hnd
    have hupd : ∀ z ∈ y :: agents, aidactive' z.Laid = aidactive z.Laid := by
      intro z hz
      have hne : z.Laid ≠ x.Laid := fun he => hx (he ▸ List.mem_map_of_mem hz)
      exact Function.update_of_ne hne ..
    rw [List.map_cons, List.nodup_cons] at hnd
    rcases List.mem_cons.mp ha with rfl | ha
    · rw [← hupd a List.mem_cons_self]
      exact loop_other fun z hz he => hnd.1 (he ▸ List.mem_map_of_mem hz)
    · rw [ih hnd.2 ha]
      exact hupd a (List.mem_cons_of_mem _ ((loop_sublist ..).subset ha))
  | case4 x agents aidactive h ih =>
    rw [List.map_cons, List.nodup_cons] at hnd
    rcases List.mem_cons.mp ha with rfl | ha
    · exact loop_other fun z hz he => hnd.1 (he ▸ List.mem_map_of_mem hz)
    · exact ih hnd.2 ha

/-- A port is what it was, or its agent is removed. -/
theorem portOf_loop (time : Nat) (aidactive : Nat → Bool) (hnd : (as.map (·.sock)).Nodup) (c : Nat) :
    portOf (sox_fdset.loop time as aidactive).1 c = portOf as c ∨
      portOf (sox_fdset.loop time as aidactive).1 c = none ∧
        ∃ p, portOf as c = some p ∧ p.stat = .CLOSED := by
  have hsub := loop_sublist time as aidactive
  have hnd' : ((sox_fdset.loop time as aidactive).1.map (·.sock)).Nodup :=
    (hsub.map _).nodup hnd
  by_cases hno : ∀ a ∈ as, a.sock ≠ c
  · left
    rw [portOf_none.mpr hno, portOf_none]
    exact fun a ha => hno a (hsub.subset ha)
  · push Not at hno
    obtain ⟨a, ha, rfl⟩ := hno
    rw [portOf_mem hnd ha]
    by_cases hk : a ∈ (sox_fdset.loop time as aidactive).1
    · exact .inl (portOf_mem hnd' hk)
    · refine .inr ⟨portOf_none.mpr ?_, a.toPort, rfl, (loop_mem ha).resolve_left hk⟩
      intro x hx he
      exact hk (List.inj_on_of_nodup_map hnd (hsub.subset hx) ha he ▸ hx)

end

theorem Known.subset {is is' : List (Nat × Nat)} {c l : Nat} (h : Known is c l) (hsub : is' ⊆ is)
    (hkeep : ∀ i ∈ is, i.1 = c → i ∈ is') : Known is' c l := by
  rcases h with h | ⟨hl, h⟩
  · exact .inl (hkeep _ h rfl)
  · exact .inr ⟨hl, fun i hi => h i (hsub hi)⟩

section
variable {t : Tunnel} {b : Bool} {c l : Nat}

/-- `sox_fdset` at one end. -/
def Tunnel.fdset (t : Tunnel) (b : Bool) : Tunnel :=
  { t with side := Function.update t.side b (sox_fdset (t.side b)) }

theorem fdset_side : (t.fdset b).side b = sox_fdset (t.side b) := Function.update_self ..

theorem fdset_side_not : (t.fdset b).side (!b) = t.side !b :=
  Function.update_of_ne (Bool.not_ne_self b) ..

theorem link_fdset (h : Routed t) (c : Nat) : (t.fdset b).link c = t.link c ∨
    (t.fdset b).link c = (t.link c).remove b ∧
      ∃ p, (t.link c).port b = some p ∧ p.stat = .CLOSED := by
  have hport : ((t.fdset b).link c).port b =
      portOf (sox_fdset.loop (t.side b).time (t.side b).agents (t.side b).aidactive).1 c :=
    congrArg (portOf · c) (congrArg Sox.agents fdset_side)
  have hport' : ((t.fdset b).link c).port (!b) = (t.link c).port !b :=
    congrArg (portOf · c) (congrArg Sox.agents fdset_side_not)
  rcases portOf_loop (t.side b).time (t.side b).aidactive (h.nodup b) c with hp | ⟨hp, p, hp', hst⟩
  · left
    refine link_ext b (hport.trans hp) hport' ?_ ?_ ?_ ?_ ?_ ?_ <;> rfl
  · right
    refine ⟨?_, p, hp', hst⟩
    refine link_ext b ?_ ?_ ?_ ?_ ?_ ?_ ?_ ?_
    · rw [remove_port]
      exact hport.trans hp
    · rw [remove_port_not]
      exact hport'
    all_goals rfl

theorem mem_fdset {x : Agent} (hx : x ∈ ((t.fdset b).side b).agents) : x ∈ (t.side b).agents := by
  rw [fdset_side] at hx
  exact (loop_sublist ..).subset hx

theorem ids_fdset : List.Sublist ((t.fdset b).ids b) (t.ids b) := by
  rw [Tunnel.ids, fdset_side]
  exact (loop_sublist ..).map _

theorem ids_fdset_not : (t.fdset b).ids (!b) = t.ids !b := by
  rw [Tunnel.ids, fdset_side_not, Tunnel.ids]

/-- An agent that is not closed stays. -/
theorem Routed.known_fdset (h : Routed t) (hkn : Known (t.ids b) c l)
    (hc : ∀ p, (t.link c).port b = some p → p.stat ≠ .CLOSED) :
    Known ((t.fdset b).ids b) c l := by
  refine hkn.subset ids_fdset.subset ?_
  intro i hi hic
  obtain ⟨a, ha, rfl⟩ := List.mem_map.mp hi
  rw [Tunnel.ids, fdset_side]
  refine List.mem_map_of_mem ((loop_mem ha).resolve_right (hc a.toPort ?_))
  rw [← hic]
  exact portOf_mem (h.nodup b) ha

/-- When an agent is closed, its peer has only acknowledgements on the way to it and will send
nothing else. -/
theorem link_closed {p : Port} (hl : (t.link c).Inv) (hp : (t.link c).port b = some p)
    (hst : p.stat = .CLOSED) : Acks ((t.link c).chan !b) ∧
      ∀ q, (t.link c).port (!b) = some q → q.stat.closing = true := by
  have hs := hl.shaped.shape (b := b) (.inl (by simp [hp]))
  rw [hp] at hs
  exact (hs.remove hst).2

/-- An agent stays while its peer is not closing. -/
theorem Routed.known_of_peer (h : Routed t) (hl : ∀ c, (t.link c).Inv) {x : Agent}
    (hx : x ∈ (t.side !b).agents) (hcl : x.stat.closing = false) (hkn : Known (t.ids b) x.sock l) :
    Known ((t.fdset b).ids b) x.sock l := by
  refine h.known_fdset hkn fun p hp hst => ?_
  have hcl' := (link_closed (hl x.sock) hp hst).2 x.toPort (portOf_mem (h.nodup !b) hx)
  rw [hcl] at hcl'
  cases hcl'

/-- The agent that asked for a connection is not closed before the answer. -/
theorem Routed.known_of_call (h : Routed t) (hl : ∀ c, (t.link c).Inv) {m : Nat × Packet}
    (hm : m ∈ t.comm b) {conndata : List UInt8} (hbody : m.2.body = .CONNECT conndata)
    (hkn : Known (t.ids b) m.1 l) : Known ((t.fdset b).ids b) m.1 l := by
  refine h.known_fdset hkn fun p hp hst => ?_
  have hs := (hl m.1).shaped.shape (b := b) (.inl (by simp [hp]))
  have hcall := chanOf_mem hm
  rw [hbody] at hcall
  obtain ⟨-, -, -, q, hq, hwait⟩ := hs.swap.call hcall
  rw [hp] at hq
  cases hq
  rw [hwait.1] at hst
  cases hst

/-- The agent that a packet is for is not closed before the packet comes, unless it is an
acknowledgement. -/
theorem Routed.known_of_sent (h : Routed t) (hl : ∀ c, (t.link c).Inv) {m : Nat × Packet}
    (hm : m ∈ t.comm !b) (hack : ∀ n, m.2.body ≠ .SENT n) (hkn : Known (t.ids b) m.1 l) :
    Known ((t.fdset b).ids b) m.1 l := by
  refine h.known_fdset hkn fun p hp hst => ?_
  obtain ⟨n, hn⟩ := (link_closed (hl m.1) hp hst).1 _ (chanOf_mem hm)
  exact hack n hn

theorem Routed.named_fdset (h : Routed t) : Named (t.fdset b) b := by
  constructor
  · exact (ids_fdset.map _).nodup (h.socks b)
  · exact (ids_fdset.map _).nodup (h.laids b)
  · intro i hi
    obtain ⟨h1, h2, h3⟩ := h.active b i (ids_fdset.subset hi)
    refine ⟨h1, h2, ?_⟩
    rw [Tunnel.ids, fdset_side] at hi
    obtain ⟨a, ha, rfl⟩ := List.mem_map.mp hi
    have hnd := h.laids b
    rw [Tunnel.ids, sox.ids, List.map_map] at hnd
    rw [fdset_side, ← h3]
    exact loop_active hnd ha
  · rw [fdset_side]
    exact h.nlaid b
  · rw [fdset_side]
    exact h.size b

theorem Routed.fdset (h : Routed t) (hl : ∀ c, (t.link c).Inv) : Routed (t.fdset b) := by
  refine .of_parts ?_ h.unused ?_ ?_
  · refine forall_side b h.named_fdset ?_
    refine (h.named !b).same le_rfl ids_fdset_not ?_ ?_ ?_ <;> rw [fdset_side_not]
  · refine forall_side b ?_ ?_
    · intro m hm
      refine (h.addressed hm).keep le_rfl ?_ ?_ ?_ ?_
      · exact fun conndata hbody hkn => h.known_of_call hl hm hbody hkn
      · exact fun n _ hle => ids_fdset_not.symm ▸ hle
      · exact fun _ hkn => ids_fdset_not.symm ▸ hkn
      · intro x hx hs hcl
        rw [fdset_side_not] at hx
        exact ⟨x, hx, hs, hcl, fun hkn => hs ▸ h.known_of_peer hl hx hcl (hs.symm ▸ hkn)⟩
    · intro m hm
      refine (h.addressed hm).keep le_rfl ?_ ?_ ?_ ?_
      · exact fun _ _ hkn => ids_fdset_not.symm ▸ hkn
      · intro n _ hle
        rw [Bool.not_not] at hle ⊢
        exact fun i hi => hle i (ids_fdset.subset hi)
      · intro hack hkn
        rw [Bool.not_not] at hkn ⊢
        exact h.known_of_sent hl hm hack hkn
      · intro x hx hs hcl
        rw [Bool.not_not] at hx ⊢
        exact ⟨x, mem_fdset hx, hs, hcl, fun hkn => ids_fdset_not.symm ▸ hkn⟩
  · refine forall_side b ?_ ?_
    · intro x hx
      refine ⟨fun hopened => ?_, fun hclosed hne => ?_⟩ <;> rw [ids_fdset_not]
      · exact h.peer b x (mem_fdset hx) hopened
      · exact h.late b x (mem_fdset hx) hclosed hne
    · intro x hx
      rw [fdset_side_not] at hx
      refine ⟨fun hopened => ?_, fun hclosed hne => ?_⟩
      · have hkn := h.peer (!b) x hx hopened
        rw [Bool.not_not] at hkn ⊢
        exact h.known_of_peer hl hx hopened.not_closing hkn
      · have hle := h.late (!b) x hx hclosed hne
        rw [Bool.not_not] at hle ⊢
        exact fun i hi => hle i (ids_fdset.subset hi)

end

end delegate.sox
