-- Every step of a tunnel is a step of the link of one connection, and leaves the other links as
-- they are; what this says of the bytes and of the closing of every connection of a run.
import Delegate.SoxRouted

namespace delegate.sox

/-! ## Careful steps -/

/-- New ids are free, and the sockets take the bytes that come with a call or its answer. In a calm
run no agent that waits for its peer takes output. -/
def Tunnel.Careful (calm : Prop) (t : Tunnel) : Bool × Act → Prop
  | (b, .accept _) => ∀ l, newlaid (t.side b) = some l → t.Free b l
  | (b, .flush sock _) => calm → ∀ a ∈ (t.side b).agents, a.sock = sock → a.stat ≠ .SENDING
  | (b, .commin accepted w1 _) => ∀ m ∈ (t.comm !b).head?,
    (∀ conndata, m.2.body = .CONNECT conndata → accepted ≠ none →
      conndata.length ≤ w1 ∧ ∀ l, newlaid (t.side b) = some l → t.Free b l) ∧
    ∀ conndata, m.2.body = .CONNECTED conndata → conndata.length ≤ w1
  | _ => True

instance decidableSent (m : Body) (P : Nat → Prop) [DecidablePred P] :
    Decidable (∀ n, m = .SENT n → P n) :=
  match m with
  | .SENT n => decidable_of_iff (P n) ⟨fun h _ hn => Body.SENT.inj hn ▸ h, fun h => h n rfl⟩
  | .CONNECT _ | .CONNECTED _ | .SEND _ | .CLOSE | .CLOSED => .isTrue fun _ h => nomatch h

instance decidableConnect (m : Body) (P : List UInt8 → Prop) [DecidablePred P] :
    Decidable (∀ conndata, m = .CONNECT conndata → P conndata) :=
  match m with
  | .CONNECT s => decidable_of_iff (P s) ⟨fun h _ hs => Body.CONNECT.inj hs ▸ h, fun h => h s rfl⟩
  | .SENT _ | .CONNECTED _ | .SEND _ | .CLOSE | .CLOSED => .isTrue fun _ h => nomatch h

instance decidableConnected (m : Body) (P : List UInt8 → Prop) [DecidablePred P] :
    Decidable (∀ conndata, m = .CONNECTED conndata → P conndata) :=
  match m with
  | .CONNECTED s =>
    decidable_of_iff (P s) ⟨fun h _ hs => Body.CONNECTED.inj hs ▸ h, fun h => h s rfl⟩
  | .SENT _ | .CONNECT _ | .SEND _ | .CLOSE | .CLOSED => .isTrue fun _ h => nomatch h

instance (t : Tunnel) (b : Bool) (l : Nat) : Decidable (t.Free b l) :=
  inferInstanceAs (Decidable ((∀ m ∈ t.comm !b, ∀ n, m.2.body = .SENT n → m.2.Raid ≠ l) ∧
    ∀ a ∈ (t.side !b).agents, a.stat = .CLOSED → a.lbuf ≠ [] → a.Xaid ≠ l))

instance (calm : Prop) [Decidable calm] (t : Tunnel) : (x : Bool × Act) → Decidable (t.Careful calm x)
  | (b, .accept _) => inferInstanceAs (Decidable (∀ l ∈ newlaid (t.side b), t.Free b l))
  | (b, .flush sock _) => inferInstanceAs
    (Decidable (calm → ∀ a ∈ (t.side b).agents, a.sock = sock → a.stat ≠ .SENDING))
  | (b, .commin accepted w1 _) => inferInstanceAs (Decidable (∀ m ∈ (t.comm !b).head?,
      (∀ conndata, m.2.body = .CONNECT conndata → accepted ≠ none →
        conndata.length ≤ w1 ∧ ∀ l ∈ newlaid (t.side b), t.Free b l) ∧
      ∀ conndata, m.2.body = .CONNECTED conndata → conndata.length ≤ w1))
  | (_, .relay1 _ _) | (_, .fdset) | (_, .clock _) | (_, .packsize _ _) => .isTrue trivial

/-! ## What each event does to its port -/

section
variable {p : Port} {q : Option Port} {c d : List Body} {PackSize time w w1 w2 : Nat}
  {data : List UInt8} {m : Body}

theorem opened_of_stat (h1 : p.stat ≠ .CONNECT) (h2 : p.stat.closing = false) : p.Opened := by
  unfold Port.Opened
  cases hst : p.stat with
  | CONNECT => exact absurd hst h1
  | CLOSE => rw [hst] at h2; cases h2
  | CLOSED => rw [hst] at h2; cases h2
  | _ => simp

theorem CLOSED_of_closing (h : p.stat.closing = true) (h' : p.stat ≠ .CLOSE) : p.stat = .CLOSED := by
  cases hst : p.stat with
  | CLOSE => exact absurd hst h'
  | CLOSED => rfl
  | _ => rw [hst] at h; cases h

/-- A port that is open, or has output left at its end. -/
def Port.Bound (p : Port) : Prop := p.Opened ∨ p.stat = .CLOSED ∧ p.lbuf ≠ []

/-- What a port becomes is open only if it was, and has output left only if it had a peer. -/
structure Follows (p p' : Port) : Prop where
  opened : p'.Opened → p.Opened
  late : p'.stat = .CLOSED → p'.lbuf ≠ [] → p.Bound
  closing : p'.stat.closing = false → p.stat.closing = false

theorem Follows.refl (p : Port) : Follows p p :=
  ⟨id, fun hst hne => .inr ⟨hst, hne⟩, id⟩

theorem follows_relay1 (PackSize time : Nat) (data : List UInt8) (hin : p.stat.input) :
    Follows p (p.relay1 PackSize time data).port ∧
      ((p.relay1 PackSize time data).out ≠ none → p.Opened) := by
  by_cases hcl : p.stat.closing = true
  · rw [relay1_closing hcl]
    exact ⟨.refl p, fun h => absurd rfl h⟩
  · have hcl : p.stat.closing = false := by simpa using hcl
    have hopened : p.Opened := opened_of_stat (fun h => by rw [h] at hin; cases hin) hcl
    refine ⟨⟨fun _ => hopened, fun hst => ?_, fun _ => hcl⟩, fun _ => hopened⟩
    by_cases hdata : data = []
    · rw [hdata, relay1_close hcl] at hst
      cases hst
    · rw [relay1_send hcl hdata] at hst
      dsimp only at hst
      split at hst <;> cases hst

theorem follows_flush (hs : Shape (some p) q c d) :
    Follows p (p.flush w).port ∧
      ∀ m, (p.flush w).out = some m → (∃ n, m = .SENT n) ∧ p.Bound := by
  rcases flush_cases p w with hf | ⟨written, rem, hne, hl, hf⟩
  · rw [hf]
    exact ⟨.refl p, fun m h => nomatch h⟩
  · have hbuf : p.lbuf ≠ [] := by
      rw [hl]
      exact fun h => hne (List.append_eq_nil_iff.mp h).1
    have hwait : ¬ (p.stat = .CLOSE ∨ p.stat = .CONNECT) := fun h => hbuf (hs.waits h)
    have hopened (hst : p.stat ≠ .CLOSED) : p.Opened := by
      refine opened_of_stat (fun h => hwait (.inr h)) ?_
      rw [← Bool.not_eq_true]
      exact fun h => hst (CLOSED_of_closing h fun h => hwait (.inl h))
    have hbound : p.Bound := by
      by_cases hst : p.stat = .CLOSED
      · exact .inr ⟨hst, hbuf⟩
      · exact .inl (hopened hst)
    rw [hf]
    refine ⟨⟨?_, fun _ _ => hbound, ?_⟩, ?_⟩
    · intro h
      refine hopened fun hst => ?_
      have := h.not_closing
      rw [if_pos hst] at this
      cases this
    · intro h
      refine (hopened fun hst => ?_).not_closing
      dsimp only at h
      rw [if_pos hst] at h
      cases h
    · intro m hm
      cases hm
      exact ⟨⟨_, rfl⟩, hbound⟩

/-- A port that has called has its call on the way, or first of all the answer to it. -/
theorem Shape.called (h : Shape (some p) q c d) (hst : p.stat = .CONNECT) :
    (∃ conndata, c = [.CONNECT conndata] ∧ d = []) ∨
      ∃ m ms, d = m :: ms ∧ ((∃ conndata, m = .CONNECTED conndata) ∨ m = .CLOSE) := by
  have hopen : ¬ p.Opened := by
    rintro (h | h | h | h) <;> rw [hst] at h <;> cases h
  have hwait {stat : Stat} (hne : stat ≠ .CONNECT) : ¬ p.Waits stat :=
    fun hp => hne (hp.1.symm.trans hst)
  have hended : ¬ Ended (some p) := by
    intro hp
    cases hst.symm.trans (hp p rfl)
  rcases h with h | h
  · cases h with
    | calling hp => exact .inl ⟨_, rfl, rfl⟩
    | refused hp => exact .inr ⟨_, _, rfl, .inr rfl⟩
    | gaveUp hp => exact absurd (hp p rfl) (hwait (by simp))
    | called hp hq hms => exact .inr ⟨_, _, rfl, .inl ⟨_, rfl⟩⟩
    | calledClosing hp hq hms => exact .inr ⟨_, _, rfl, .inl ⟨_, rfl⟩⟩
    | opened hp => exact absurd hp hopen
    | closing hp => exact absurd hp (hwait (by simp))
    | closingBoth hp => exact absurd hp (hwait (by simp))
    | answered hp => exact absurd hp (hwait (by simp))
    | ended hp => exact absurd hp hended
  · cases h with
    | called hq hp => exact absurd hp hopen
    | calledClosing hq hp => exact absurd hp (hwait (by simp))
    | opened hq hp => exact absurd hp hopen
    | closing hq hp => exact absurd hp hopen
    | closingBoth hq hp => exact absurd hp (hwait (by simp))
    | answered hq hp => exact absurd hp hended
    | ended hq hp => exact absurd hp hended

theorem Shape.awaits (h : Shape (some p) q c (m :: d)) (hst : p.stat = .CONNECT) :
    (∃ conndata, m = .CONNECTED conndata) ∨ m = .CLOSE := by
  obtain ⟨_, _, hd⟩ | ⟨_, _, hd, hm⟩ := h.called hst
  · cases hd
  · cases hd
    exact hm

/-- A packet to an agent. The answer to a call opens the agent; else it is as before. -/
theorem follows_commin (PackSize time w1 w2 : Nat) (hs : Shape (some p) q c (m :: d))
    (hm : ∀ conndata, m ≠ .CONNECT conndata) :
    ((p.commin PackSize time w1 w2 m).port.Opened →
        p.Opened ∨ (∃ conndata, m = .CONNECTED conndata) ∧ p.stat.closing = false) ∧
      ((p.commin PackSize time w1 w2 m).port.stat = .CLOSED →
        (p.commin PackSize time w1 w2 m).port.lbuf ≠ [] → p.Bound) ∧
      ((p.commin PackSize time w1 w2 m).port.stat.closing = false → p.stat.closing = false) ∧
      ((p.commin PackSize time w1 w2 m).out ≠ none → p.stat.closing = false) := by
  have hbound (hne : p.lbuf ≠ []) : p.Bound := by
    have hwait : ¬ (p.stat = .CLOSE ∨ p.stat = .CONNECT) := fun h => hne (hs.waits h)
    by_cases hst : p.stat = .CLOSED
    · exact .inr ⟨hst, hne⟩
    · refine .inl (opened_of_stat (fun h => hwait (.inr h)) ?_)
      rw [← Bool.not_eq_true]
      exact fun h => hst (CLOSED_of_closing h fun h => hwait (.inl h))
  by_cases hclose : m = .CLOSE
  · subst hclose
    refine ⟨?_, fun _ hne => hbound hne, fun h => (nomatch h), ?_⟩
    · rintro (h | h | h | h) <;> cases h
    · intro hout
      rw [← Bool.not_eq_true]
      intro hcl
      dsimp only [Port.commin] at hout
      by_cases hst : p.stat = .CLOSE
      · rw [if_pos hst] at hout
        exact hout rfl
      · obtain ⟨n, hn⟩ := (hs.remove (CLOSED_of_closing hcl hst)).2.1.head
        cases hn
  by_cases hclosed : m = .CLOSED
  · subst hclosed
    refine ⟨?_, fun _ hne => hbound hne, fun h => (nomatch h), fun h => absurd rfl h⟩
    rintro (h | h | h | h) <;> cases h
  by_cases hcl : p.stat.closing = true
  · rw [commin_ignored hcl hclose hclosed]
    exact ⟨.inl, (Follows.refl p).late, id, fun h => absurd rfl h⟩
  have hcl : p.stat.closing = false := by simpa using hcl
  refine ⟨fun _ => ?_, fun hst' _ => ?_, fun _ => hcl, fun _ => hcl⟩
  · by_cases hst : p.stat = .CONNECT
    · exact .inr ⟨(hs.awaits hst).resolve_right hclose, hcl⟩
    · exact .inl (opened_of_stat hst hcl)
  · by_cases hst : p.stat = .CONNECT
    · obtain ⟨conndata, rfl⟩ := (hs.awaits hst).resolve_right hclose
      rw [commin_CONNECTED hst] at hst'
      cases hst'
    · exact .inl (opened_of_stat hst hcl)

end

/-! ## The steps -/

section
variable {t t' : Tunnel} {b : Bool} {a : Agent} {c l : Nat} {calm : Prop}

theorem newlaid_spec {s : Sox} (h : newlaid s = some l) (hs : s.nlaid < NSOCK) :
    s.aidactive l = false ∧ l + 1 < NSOCK := by
  unfold newlaid at h
  rcases hf : (List.range' s.nlaid (NSOCK - 1 - s.nlaid)).find? fun ci => !s.aidactive ci with _ | ci
  · rw [hf, Option.none_or] at h
    have hact := List.find?_some h
    have hmem := List.mem_range.mp (List.mem_of_find?_eq_some h)
    refine ⟨by simpa using hact, ?_⟩
    omega
  · rw [hf, Option.some_or] at h
    cases h
    have hact := List.find?_some hf
    have hmem := List.mem_range'_1.mp (List.mem_of_find?_eq_some hf)
    refine ⟨by simpa using hact, ?_⟩
    omega

theorem Routed.link_fresh (h : Routed t) (hc : t.conns ≤ c) : t.link c = .fresh := by
  have hport (b : Bool) : (t.link c).port b = none := by
    refine portOf_none.mpr fun a ha he => ?_
    exact absurd (h.active b _ (mem_ids ha)).1 (Nat.not_lt.mpr (he ▸ hc))
  have hchan (b : Bool) : (t.link c).chan b = [] := by
    refine List.eq_nil_iff_forall_not_mem.mpr fun body hb => ?_
    obtain ⟨pack, hm, -⟩ := mem_chanOf hb
    exact absurd (h.tags b _ hm) (Nat.not_lt.mpr hc)
  exact link_ext true (hport _) (hport _) (hchan _) (hchan _) (h.unused _ c hc).1
    (h.unused _ c hc).1 (h.unused _ c hc).2 (h.unused _ c hc).2

/-- A link goes on, or stays as it is. -/
def Goes (calm : Prop) (l l' : Link) : Prop := l' = l ∨ Link.Step calm l l'

theorem Goes.inv {l l' : Link} (h : Goes calm l l') (hl : l.Inv) : l'.Inv := by
  rcases h with rfl | h
  · exact hl
  · exact h.inv hl

theorem goes_after {r : Done} {p : Port} (hport : ∀ c, portOf r.state.agents c =
      if c = r.sock then some p else portOf (t.side b).agents c)
    (hstep : Link.Step calm (t.link r.sock)
      ((t.link r.sock).after b ⟨p, r.out.map Packet.body, r.read, r.written⟩)) (c : Nat) :
    Goes calm (t.link c) ((t.after b r).link c) := by
  rw [link_after hport]
  split
  · rename_i hc
    rw [hc]
    exact .inr hstep
  · exact .inl rfl

theorem goes_pop {m : Nat × Packet} {comm : List (Nat × Packet)} {r : Done} {p : Port}
    (hc : t.comm (!b) = m :: comm) (hsock : r.sock = m.1)
    (hport : ∀ c, portOf r.state.agents c =
      if c = r.sock then some p else portOf (t.side b).agents c)
    (hstep : Link.Step calm (t.link m.1) (((t.link m.1).pop b (chanOf comm m.1)).after b
      ⟨p, r.out.map Packet.body, r.read, r.written⟩)) (c : Nat) :
    Goes calm (t.link c) (((t.pop b comm).after b r).link c) := by
  rw [link_after (t := t.pop b comm) hport, link_pop hc, hsock]
  split
  · rename_i hc
    rw [hc]
    exact .inr hstep
  · exact .inl rfl

/-- Time and packet sizes are nothing to a connection. -/
theorem Tunnel.Inv.same (h : t.Inv) (sox' : Sox) (hs : sox'.agents = (t.side b).agents ∧
      sox'.aidactive = (t.side b).aidactive ∧ sox'.nlaid = (t.side b).nlaid ∧
      sox'.PackSize ≤ PWSIZE) :
    Routed { t with side := Function.update t.side b sox' } ∧
      ∀ c, ({ t with side := Function.update t.side b sox' } : Tunnel).link c = t.link c := by
  have hside : ∀ b', (Function.update t.side b sox' b').agents = (t.side b').agents ∧
      (Function.update t.side b sox' b').aidactive = (t.side b').aidactive ∧
      (Function.update t.side b sox' b').nlaid = (t.side b').nlaid ∧
      (Function.update t.side b sox' b').PackSize ≤ PWSIZE := by
    refine forall_side b ?_ ?_
    · rw [Function.update_self]
      exact hs
    · rw [Function.update_of_ne (Bool.not_ne_self b)]
      exact ⟨rfl, rfl, rfl, h.routed.size !b⟩
  have hids (b' : Bool) :
      ({ t with side := Function.update t.side b sox' } : Tunnel).ids b' = t.ids b' :=
    congrArg sox.ids (hside b').1
  constructor
  · obtain ⟨h1, h2, h3, h4, h5, h6, h7, h8, h9, h10, h11, h12, h13⟩ := h.routed
    constructor
    · intro b'
      rw [hids]
      exact h1 b'
    · intro b'
      rw [hids]
      exact h2 b'
    · intro b'
      rw [hids]
      change ∀ i ∈ t.ids b', i.1 < t.conns ∧ i.2 ≠ noAid ∧
        (Function.update t.side b sox' b').aidactive i.2 = true
      rw [(hside b').2.1]
      exact h3 b'
    · intro b'
      exact (hside b').2.2.1.symm ▸ h4 b'
    · exact fun b' => (hside b').2.2.2
    · exact h6
    · exact h7
    · intro b' x hx
      rw [hids]
      exact h8 b' x ((hside b').1 ▸ hx)
    · intro b' x hx
      rw [hids]
      exact h9 b' x ((hside b').1 ▸ hx)
    · intro b'
      rw [hids]
      exact h10 b'
    · intro b'
      rw [hids]
      exact h11 b'
    · intro b'
      rw [hids]
      exact h12 b'
    · intro b' m hm hcall x hx
      rw [hids]
      exact h13 b' m hm hcall x ((hside !b').1 ▸ hx)
  · intro c
    refine link_ext b ?_ ?_ rfl rfl rfl rfl rfl rfl
    · exact congrArg (portOf · c) (hside b).1
    · exact congrArg (portOf · c) (hside !b).1

theorem set_PACKSIZE_le {exp size pwsize : Nat} (h : size ≤ PWSIZE) :
    set_PACKSIZE exp size pwsize ≤ PWSIZE := by
  unfold set_PACKSIZE
  dsimp only
  generalize (if exp ≠ 0 ∧ exp < pwsize then exp else pwsize) = n
  split
  · split
    · omega
    · exact h
  · split
    · split
      · exact Nat.le_refl _
      · omega
    · exact h

/-- What a step does to the ids and to each link. -/
def Tunnel.Stepped (calm : Prop) (t t' : Tunnel) : Prop :=
  Routed t' ∧ ∀ c, Goes calm (t.link c) (t'.link c)

theorem Tunnel.Inv.accept (h : t.Inv) {conndata : List UInt8} {r : Done}
    (hr : sox_accept1 (t.side b) t.conns conndata = some r)
    (hfree : ∀ l, newlaid (t.side b) = some l → t.Free b l) :
    Tunnel.Stepped calm t { t.after b r with conns := t.conns + 1 } := by
  obtain ⟨⟨l', s'⟩, hnew, rfl⟩ := Option.map_eq_some_iff.mp hr
  obtain ⟨l, hl, heq⟩ := Option.map_eq_some_iff.mp hnew
  cases heq
  obtain ⟨hact, hlt⟩ := newlaid_spec hl (h.routed.nlaid b)
  have hnew : ∀ a ∈ (t.side b).agents, a.sock ≠ t.conns := fun a ha =>
    Nat.ne_of_lt (h.routed.active b _ (mem_ids ha)).1
  constructor
  · refine h.routed.create
      (n := { newPort .CONNECT with Laid := l', Xaid := noAid, sock := t.conns })
      (Nat.le_succ _) (Nat.lt_succ_self _) ?_ hact hlt (hfree l' hl) ?_ ?_ ?_ rfl ?_ rfl
      (.inl ⟨conndata, rfl, rfl⟩)
    · exact fun i hi => Nat.ne_of_lt (h.routed.active b i hi).1
    · exact fun m hm => Nat.ne_of_lt (h.routed.tags (!b) m hm)
    · exact fun m hm => Nat.ne_of_lt (h.routed.tags b m hm)
    · exact fun a ha hs => absurd hs (Nat.ne_of_lt (h.routed.active (!b) _ (mem_ids ha)).1)
    · rintro (h | h | h | h) <;> cases h
  · intro c
    refine goes_after (p := newPort .CONNECT) (portOf_snoc hnew) ?_ c
    dsimp only
    rw [h.routed.link_fresh (Nat.le_refl _)]
    exact .call b conndata

/-- What an agent sends by itself goes to its peer. -/
theorem Tunnel.Inv.sent (h : t.Inv) (ha : a ∈ (t.side b).agents) (hbound : a.Bound)
    {m : Body} (hm : ∀ conndata, m ≠ .CONNECT conndata) (hack : (∃ n, m = .SENT n) ∨ a.Opened) :
    Sent t b (a.sock, ⟨a.Laid, a.Xaid, m⟩) where
  call := hm
  ack := by
    intro n hn
    rcases hbound with hopen | ⟨hst, hne⟩
    · exact h.routed.leads (h.routed.peer b a ha hopen)
    · exact h.routed.late b a ha hst hne
  dest := by
    intro hn
    rcases hack with ⟨n, rfl⟩ | hopen
    · exact absurd rfl (hn n)
    · exact h.routed.peer b a ha hopen
  back := .inl (mem_ids ha)

theorem Tunnel.Inv.linked (h : t.Inv) (ha : a ∈ (t.side b).agents) {p : Port}
    (hf : Follows a.toPort p) : Linked t b { a with toPort := p } where
  peer := fun hopen => h.routed.peer b a ha (hf.opened hopen)
  late := by
    intro hst hne
    rcases hf.late hst hne with hopen | ⟨hst, hne⟩
    · exact h.routed.leads (h.routed.peer b a ha hopen)
    · exact h.routed.late b a ha hst hne
  old := fun hcl => ⟨a, ha, rfl, hf.closing hcl⟩

theorem Tunnel.Inv.shape (h : t.Inv) (ha : a ∈ (t.side b).agents) :
    Shape (some a.toPort) ((t.link a.sock).port !b) ((t.link a.sock).chan b)
      ((t.link a.sock).chan !b) := by
  have hp : (t.link a.sock).port b = some a.toPort := portOf_mem (h.routed.nodup b) ha
  rw [← hp]
  exact (h.links a.sock).shaped.shape (.inl (by simp [hp]))

/-- An event of a socket. -/
theorem Tunnel.Inv.event (h : t.Inv) {event : Port → Option Event} {r : Done}
    (hr : (t.side b).event c event = some r)
    (hevent : ∀ a ∈ (t.side b).agents, a.sock = c → ∀ e, event a.toPort = some e →
      Follows a.toPort e.port ∧ (∀ m, e.out = some m → (∀ conndata, m ≠ .CONNECT conndata) ∧
        a.Bound ∧ ((∃ n, m = .SENT n) ∨ a.Opened)) ∧
        Link.Step calm (t.link c) ((t.link c).after b e)) :
    Tunnel.Stepped calm t (t.after b r) := by
  obtain ⟨a, hf, hr⟩ := Option.bind_eq_some_iff.mp hr
  obtain ⟨e, he, hr⟩ := Option.bind_eq_some_iff.mp hr
  cases hr
  obtain ⟨ha, rfl⟩ := (find_sock (h.routed.nodup b)).mp hf
  obtain ⟨hfollows, hout, hstep⟩ := hevent a ha rfl e he
  constructor
  · refine h.routed.event hf rfl rfl (h.linked ha hfollows) ?_
    intro pack hpack
    obtain ⟨m, hm, rfl⟩ := Option.map_eq_some_iff.mp hpack
    obtain ⟨hcall, hbound, hack⟩ := hout m hm
    exact h.sent ha hbound hcall hack
  · refine goes_after (p := e.port) (portOf_set (h.routed.nodup b) hf rfl) ?_
    dsimp only
    rw [Option.map_map]
    exact (Option.map_id' (x := e.out)).symm ▸ hstep

theorem Tunnel.Inv.relay1 (h : t.Inv) {data : List UInt8} {r : Done}
    (hr : sox_relay1 (t.side b) c data = some r) : Tunnel.Stepped calm t (t.after b r) := by
  refine h.event hr ?_
  intro a ha hsock e he
  split at he
  · rename_i hguard
    cases he
    obtain ⟨hfollows, hopened⟩ := follows_relay1 (t.side b).PackSize (t.side b).time data
      hguard.1
    refine ⟨hfollows, ?_, ?_⟩
    · intro m hm
      have hopen := hopened (by rw [hm]; simp)
      refine ⟨?_, .inl hopen, .inr hopen⟩
      rintro conndata rfl
      exact (relay1_bytes ..).2.1 _ (Option.mem_toList.mpr hm)
    · refine .relay1 _ ?_ hguard.1 (h.routed.size b) hguard.2 (PNat.ne_zero _)
      rw [← hsock]
      exact portOf_mem (h.routed.nodup b) ha
  · cases he

theorem Tunnel.Inv.flush (h : t.Inv) {w : Nat} {r : Done}
    (hr : sox_flush (t.side b) c w = some r)
    (hcalm : calm → ∀ a ∈ (t.side b).agents, a.sock = c → a.stat ≠ .SENDING) :
    Tunnel.Stepped calm t (t.after b r) := by
  refine h.event hr ?_
  intro a ha hsock e he
  cases he
  obtain ⟨hfollows, hout⟩ := follows_flush (w := w) (h.shape ha)
  refine ⟨hfollows, ?_, ?_⟩
  · intro m hm
    obtain ⟨⟨n, rfl⟩, hbound⟩ := hout m hm
    exact ⟨by simp, hbound, .inl ⟨n, rfl⟩⟩
  · refine .flush w ?_ fun hc => hcalm hc a ha hsock
    rw [← hsock]
    exact portOf_mem (h.routed.nodup b) ha

/-- A message that no port sends. -/
def Link.say (l : Link) (b : Bool) (out : Option Body) : Link :=
  { l with chan := Function.update l.chan b (l.chan b ++ out.toList) }

theorem say_none (l : Link) (b : Bool) : l.say b none = l := by
  unfold Link.say
  rw [Option.toList_none, List.append_nil, Function.update_eq_self]

theorem say_chan (l : Link) (b : Bool) (out : Option Body) :
    (l.say b out).chan b = l.chan b ++ out.toList := Function.update_self ..

theorem say_chan_not (l : Link) (b : Bool) (out : Option Body) :
    (l.say b out).chan (!b) = l.chan !b := Function.update_of_ne (Bool.not_ne_self b) ..

theorem link_say {r : Done} (hagents : r.state.agents = (t.side b).agents) (hread : r.read = [])
    (hwritten : r.written = []) (c : Nat) :
    (t.after b r).link c =
      if c = r.sock then (t.link c).say b (r.out.map Packet.body) else t.link c := by
  have hchan : ((t.after b r).link c).chan b = (t.link c).chan b ++
      (if c = r.sock then (r.out.map Packet.body).toList else []) := by
    refine (congrArg (chanOf · c) tunnel_after_comm).trans (chanOf_append.trans ?_)
    congr 1
    cases r.out with
    | none => simp
    | some pack => simp [chanOf_cons, eq_comm]
  have hbytes (f : Bool → Nat → List UInt8) (b' : Bool) : add f b r.sock [] b' c = f b' c := by
    rw [add_apply, List.append_nil]
    split
    · rename_i h
      rw [h.1, h.2]
    · rfl
  have hgot (b' : Bool) : ((t.after b r).link c).got b' = (t.link c).got b' := by
    refine Eq.trans ?_ (hbytes t.got b')
    rw [← hread]
    rfl
  have hput (b' : Bool) : ((t.after b r).link c).put b' = (t.link c).put b' := by
    refine Eq.trans ?_ (hbytes t.put b')
    rw [← hwritten]
    rfl
  have hport : ((t.after b r).link c).port b = (t.link c).port b :=
    congrArg (portOf · c) ((congrArg Sox.agents tunnel_after_side).trans hagents)
  have hport' : ((t.after b r).link c).port (!b) = (t.link c).port !b :=
    congrArg (portOf · c) (congrArg Sox.agents tunnel_after_side_not)
  have hchan' : ((t.after b r).link c).chan (!b) = (t.link c).chan !b :=
    congrArg (chanOf · c) tunnel_after_comm_not
  split
  · rename_i hc
    rw [if_pos hc] at hchan
    refine link_ext b hport hport' ?_ ?_ (hgot _) (hgot _) (hput _) (hput _)
    · exact hchan.trans (say_chan ..).symm
    · exact hchan'.trans (say_chan_not ..).symm
  · rename_i hc
    rw [if_neg hc, List.append_nil] at hchan
    exact link_ext b hport hport' hchan hchan' (hgot _) (hgot _) (hput _) (hput _)

/-- A packet for which there is no agent: it is passed over, or it is a call that is refused. -/
theorem Tunnel.Inv.alone (h : t.Inv) {m : Nat × Packet} {comm : List (Nat × Packet)}
    {out : Option Packet} (hc : t.comm (!b) = m :: comm)
    (hout : ∀ pack, out = some pack → Sent t b (m.1, pack))
    (hstep : Link.Step calm (t.link m.1)
      (((t.link m.1).pop b (chanOf comm m.1)).say b (out.map Packet.body))) :
    Tunnel.Stepped calm t ((t.pop b comm).after b ⟨t.side b, m.1, out, [], []⟩) := by
  have hlt : m.1 < t.conns := h.routed.tags (!b) m (hc ▸ List.mem_cons_self)
  have hpop := h.routed.pop hc
  constructor
  · refine hpop.after rfl rfl rfl rfl hlt (fun x hx => hpop.linked hx) ?_
    intro pack hpack
    obtain ⟨h1, h2, h3, h4⟩ := hout pack hpack
    exact ⟨h1, h2, h3, h4⟩
  · intro c
    rw [link_say (t := t.pop b comm) rfl rfl rfl, link_pop hc]
    split
    · rename_i hm
      rw [hm]
      exact .inr hstep
    · exact .inl rfl

/-- A call: it is refused, or a new agent is its peer. -/
theorem Tunnel.Inv.called (h : t.Inv) {accepted : Option (List UInt8)} {w1 w2 : Nat}
    {m : Nat × Packet} {comm : List (Nat × Packet)} {r : Done} {conndata : List UInt8}
    (hc : t.comm (!b) = m :: comm) (hbody : m.2.body = .CONNECT conndata)
    (hr : sox_COMMIN (t.side b) m.1 accepted w1 w2 m.2 = some r)
    (hconn : accepted ≠ none → conndata.length ≤ w1 ∧
      ∀ l, newlaid (t.side b) = some l → t.Free b l) :
    Tunnel.Stepped calm t ((t.pop b comm).after b r) := by
  have hm : m ∈ t.comm !b := hc ▸ List.mem_cons_self
  have hchan : (t.link m.1).chan (!b) = .CONNECT conndata :: chanOf comm m.1 :=
    hbody ▸ link_chan hc
  obtain ⟨hport, hnone, hone, q, hq, hwait⟩ :=
    ((h.links m.1).shaped.shape (b := b) (.inr (by simp [hchan]))).call
      (by rw [hchan]; exact List.mem_cons_self)
  obtain ⟨hraid, hknown⟩ := h.routed.call (!b) m hm conndata hbody
  have hnoport : ∀ a ∈ (t.side b).agents, a.sock ≠ m.1 := portOf_none.mp hport
  have hfind : (t.side b).agents.find? (·.Laid == m.2.Raid) = none := by
    rw [hraid, List.find?_eq_none]
    intro a ha
    simpa using (h.routed.active b _ (mem_ids ha)).2.1
  unfold sox_COMMIN at hr
  rw [hbody, hfind] at hr
  dsimp only [Option.any_none] at hr
  rw [if_neg (by decide)] at hr
  cases accepted with
  | none =>
    cases hr
    refine h.alone hc ?_ ?_
    · intro pack hpack
      cases hpack
      refine ⟨by simp, by simp, fun _ => hknown, .inr ⟨rfl, ?_⟩⟩
      intro i hi
      obtain ⟨a, ha, rfl⟩ := List.mem_map.mp hi
      exact hnoport a ha
    · exact .refuse hchan
  | some conndata' =>
    obtain ⟨hfull, hfree⟩ := hconn (by simp)
    obtain ⟨⟨l', s'⟩, hnew, rfl⟩ := Option.map_eq_some_iff.mp hr
    obtain ⟨l, hl, heq⟩ := Option.map_eq_some_iff.mp hnew
    cases heq
    obtain ⟨hact, hlt⟩ := newlaid_spec hl (h.routed.nlaid b)
    have hpop := h.routed.pop hc
    have hrest : chanOf comm m.1 = [] := by
      rw [hchan] at hone
      exact (List.cons.inj hone).2
    constructor
    · refine hpop.create (k := t.conns)
        (n := { newPort .CONNECTED with Laid := l', Xaid := m.2.Said, sock := m.1 })
        (Nat.le_refl _) (h.routed.tags (!b) m hm) ?_ hact hlt ?_ ?_ ?_ ?_ rfl ?_ rfl
        (.inr ⟨⟨conndata', rfl⟩, hknown⟩)
      · intro i hi
        obtain ⟨a, ha, rfl⟩ := List.mem_map.mp hi
        exact hnoport a ha
      · obtain ⟨h1, h2⟩ := hfree l' hl
        refine ⟨fun m' hm' => h1 m' ?_, h2⟩
        rw [tunnel_pop_comm_not] at hm'
        rw [hc]
        exact List.mem_cons_of_mem _ hm'
      · intro m' hm' he
        rw [tunnel_pop_comm_not] at hm'
        have he : m'.1 = m.1 := he
        have : m'.2.body ∈ chanOf comm m.1 := chanOf_mem (he ▸ hm')
        rw [hrest] at this
        cases this
      · intro m' hm' he
        rw [tunnel_pop_comm] at hm'
        have he : m'.1 = m.1 := he
        have : m'.2.body ∈ (t.link m.1).chan b := chanOf_mem (he ▸ hm')
        rw [hnone] at this
        cases this
      · intro a ha he
        have hpeer := portOf_mem (h.routed.nodup !b) ha
        rw [he] at hpeer
        cases hq.symm.trans hpeer
        exact hwait.1
      · exact fun _ => hknown
    · refine goes_pop (p := newPort .CONNECTED) hc rfl (portOf_snoc hnoport) ?_
      dsimp only
      rw [List.take_of_length_le hfull]
      exact .accept conndata' hchan

/-- The id of the peer, which the answer to a call tells. -/
def Agent.heard (a : Agent) (Said : Nat) (m : Body) : Nat :=
  match m with
  | .CONNECTED _ => if a.stat.closing then a.Xaid else Said
  | _ => a.Xaid

theorem sox_COMMIN_some {s : Sox} (accepted : Option (List UInt8)) (w1 w2 : Nat) (pack : Packet)
    (hf : s.agents.find? (·.Laid == pack.Raid) = some a)
    (hcall : ∀ conndata, pack.body ≠ .CONNECT conndata) :
    sox_COMMIN s c accepted w1 w2 pack = some
      ⟨s.set (·.Laid == pack.Raid)
          { a with
            toPort := (a.toPort.commin s.PackSize s.time w1 w2 pack.body).port
            Xaid := a.heard pack.Said pack.body },
        a.sock,
        (a.toPort.commin s.PackSize s.time w1 w2 pack.body).out.map fun reply =>
          ⟨pack.Raid, pack.Said, reply⟩,
        (a.toPort.commin s.PackSize s.time w1 w2 pack.body).read,
        (a.toPort.commin s.PackSize s.time w1 w2 pack.body).written⟩ := by
  unfold sox_COMMIN
  cases hbody : pack.body with
  | CONNECT conndata => exact absurd hbody (hcall conndata)
  | _ =>
    rw [hf]
    rfl

theorem sox_COMMIN_none {s : Sox} {accepted : Option (List UInt8)} {w1 w2 : Nat} {pack : Packet}
    (hf : s.agents.find? (·.Laid == pack.Raid) = none)
    (hcall : ∀ conndata, pack.body ≠ .CONNECT conndata) (hclose : pack.body ≠ .CLOSE) :
    sox_COMMIN s c accepted w1 w2 pack = some ⟨s, c, none, [], []⟩ := by
  unfold sox_COMMIN
  cases hbody : pack.body with
  | CONNECT conndata => exact absurd hbody (hcall conndata)
  | CLOSE => exact absurd hbody hclose
  | _ => rw [hf]

/-- A packet of a connection that is already called. -/
theorem Tunnel.Inv.commin (h : t.Inv) {accepted : Option (List UInt8)} {w1 w2 : Nat}
    {m : Nat × Packet} {comm : List (Nat × Packet)} {r : Done} (hc : t.comm (!b) = m :: comm)
    (hr : sox_COMMIN (t.side b) m.1 accepted w1 w2 m.2 = some r)
    (hcall : ∀ conndata, m.2.body ≠ .CONNECT conndata)
    (hfull : ∀ conndata, m.2.body = .CONNECTED conndata → conndata.length ≤ w1) :
    Tunnel.Stepped calm t ((t.pop b comm).after b r) := by
  have hm : m ∈ t.comm !b := hc ▸ List.mem_cons_self
  have hchan : (t.link m.1).chan (!b) = m.2.body :: chanOf comm m.1 := link_chan hc
  have hleads : Leads (t.ids b) m.1 m.2.Raid := by
    by_cases hack : ∃ n, m.2.body = .SENT n
    · obtain ⟨n, hn⟩ := hack
      have := h.routed.ack (!b) m hm n hn
      rwa [Bool.not_not] at this
    · have := h.routed.dest (!b) m hm hcall fun n hn => hack ⟨n, hn⟩
      rw [Bool.not_not] at this
      exact h.routed.leads this
  cases hf : (t.side b).agents.find? (·.Laid == m.2.Raid) with
  | none =>
    have hport : (t.link m.1).port b = none := by
      refine portOf_none.mpr fun a ha he => ?_
      have hlaid : a.Laid = m.2.Raid := (hleads _ (mem_ids ha)).mp he
      exact List.find?_eq_none.mp hf a ha (by simp [hlaid])
    have hs := (h.links m.1).shaped.shape (b := b) (.inr (by simp [hchan]))
    rw [hport, hchan] at hs
    have hclose := (hs.lost hcall).1
    rw [sox_COMMIN_none hf hcall hclose] at hr
    cases hr
    refine h.alone hc (fun pack hpack => nomatch hpack) ?_
    rw [Option.map_none, say_none]
    exact .lost hport hchan hcall hclose
  | some a =>
    have ha := List.mem_of_find?_eq_some hf
    have hlaid : a.Laid = m.2.Raid := by simpa using List.find?_some hf
    have hsock : a.sock = m.1 := (hleads _ (mem_ids ha)).mpr hlaid
    have hs := h.shape ha
    rw [hsock, hchan] at hs
    obtain ⟨hopened, hlate, hclosing, hout⟩ := follows_commin (t.side b).PackSize (t.side b).time w1 w2
      hs hcall
    have hback (hcl : a.stat.closing = false) : Known (t.ids !b) m.1 m.2.Said :=
      h.routed.back (!b) m hm hcall a (by rwa [Bool.not_not]) hsock hcl
    have hXaid : (∃ conndata, m.2.body = .CONNECTED conndata) ∧ a.Waits .CONNECT ∧
          a.heard m.2.Said m.2.body = m.2.Said ∨
        (∀ conndata, m.2.body ≠ .CONNECTED conndata) ∧
          a.heard m.2.Said m.2.body = a.Xaid := by
      cases hbody : m.2.body with
      | CONNECTED conndata =>
        rw [hbody] at hs
        have hwait := hs.connected
        refine .inl ⟨⟨conndata, rfl⟩, hwait, if_neg ?_⟩
        rw [hwait.1]
        decide
      | _ => exact .inr ⟨fun _ h => (nomatch h), rfl⟩
    rw [sox_COMMIN_some _ _ _ _ hf hcall] at hr
    cases hr
    constructor
    · refine (h.routed.pop hc).event hf rfl rfl ⟨?_, ?_, ?_⟩ ?_
      · intro hopen
        rcases hXaid with ⟨-, hwait, hX⟩ | ⟨hno, hX⟩
        · dsimp only
          rw [hX, hsock]
          exact hback (by rw [hwait.1]; rfl)
        · dsimp only
          rw [hX]
          refine h.routed.peer b a ha ((hopened hopen).resolve_right ?_)
          rintro ⟨⟨conndata, hconn⟩, -⟩
          exact hno conndata hconn
      · intro hst hne
        dsimp only
        rcases hXaid with ⟨-, hwait, -⟩ | ⟨-, hX⟩
        · rcases hlate hst hne with hopen | ⟨hst, -⟩
          · rcases hopen with h | h | h | h <;> cases hwait.1.symm.trans h
          · cases hwait.1.symm.trans hst
        · rw [hX]
          rcases hlate hst hne with hopen | ⟨hst, hne⟩
          · exact h.routed.leads (h.routed.peer b a ha hopen)
          · exact h.routed.late b a ha hst hne
      · exact fun hcl => ⟨a, ha, rfl, hclosing hcl⟩
      · intro pack hpack
        obtain ⟨reply, hreply, rfl⟩ := Option.map_eq_some_iff.mp hpack
        have hknown := hback (hout (by rw [hreply]; simp))
        rw [← hsock] at hknown
        refine ⟨?_, fun _ _ => h.routed.leads hknown, fun _ => hknown, .inl ?_⟩
        · rintro conndata rfl
          exact (commin_bytes ..).2.2 _ (Option.mem_toList.mpr hreply)
        · rw [← hlaid]
          exact mem_ids ha
    · refine goes_pop (p := (a.toPort.commin (t.side b).PackSize (t.side b).time w1 w2
        m.2.body).port) hc hsock (portOf_set (h.routed.nodup b) hf rfl) ?_
      dsimp only
      rw [Option.map_map]
      have hport : (t.link m.1).port b = some a.toPort := by
        rw [← hsock]
        exact portOf_mem (h.routed.nodup b) ha
      exact (Option.map_id' (x := (a.toPort.commin _ _ w1 w2 m.2.body).out)).symm ▸
        .commin _ w2 hport hchan hcall hfull (h.routed.size b)

/-! ### Any step -/

/-- A careful step keeps the ids in order, and is a step of one link or of none. -/
theorem Tunnel.Inv.step (h : t.Inv) {x : Bool × Act} (hstep : t.step x = some t')
    (hcare : t.Careful calm x) : Tunnel.Stepped calm t t' := by
  obtain ⟨b, act⟩ := x
  cases act with
  | accept conndata =>
    obtain ⟨r, hr, rfl⟩ := Option.map_eq_some_iff.mp hstep
    exact h.accept hr hcare
  | relay1 sock data =>
    obtain ⟨r, hr, rfl⟩ := Option.map_eq_some_iff.mp hstep
    exact h.relay1 hr
  | flush sock w =>
    obtain ⟨r, hr, rfl⟩ := Option.map_eq_some_iff.mp hstep
    exact h.flush hr hcare
  | commin accepted w1 w2 =>
    dsimp only [Tunnel.step] at hstep
    split at hstep
    · cases hstep
    · rename_i c pack comm hc
      obtain ⟨r, hr, rfl⟩ := Option.map_eq_some_iff.mp hstep
      obtain ⟨hconn, hfull⟩ := hcare (c, pack) (by rw [hc]; rfl)
      by_cases hcall : ∃ conndata, pack.body = .CONNECT conndata
      · obtain ⟨conndata, hbody⟩ := hcall
        exact h.called hc hbody hr (hconn conndata hbody)
      · exact h.commin hc hr (fun conndata hbody => hcall ⟨conndata, hbody⟩) hfull
  | fdset =>
    cases hstep
    refine ⟨h.routed.fdset h.links, fun c => ?_⟩
    rcases link_fdset (b := b) h.routed c with hl | ⟨hl, p, hp, hst⟩
    · exact .inl hl
    · exact .inr (hl ▸ .remove hp hst)
  | clock time =>
    cases hstep
    obtain ⟨hrouted, hlink⟩ := h.same (b := b) { t.side b with time := time }
      ⟨rfl, rfl, rfl, h.routed.size b⟩
    exact ⟨hrouted, fun c => .inl (hlink c)⟩
  | packsize exp pwsize =>
    cases hstep
    obtain ⟨hrouted, hlink⟩ := h.same (b := b)
      { t.side b with PackSize := set_PACKSIZE exp (t.side b).PackSize pwsize }
      ⟨rfl, rfl, rfl, set_PACKSIZE_le (h.routed.size b)⟩
    exact ⟨hrouted, fun c => .inl (hlink c)⟩

theorem Tunnel.Inv.next (h : t.Inv) {x : Bool × Act} (hstep : t.step x = some t')
    (hcare : t.Careful calm x) : t'.Inv :=
  ⟨(h.step hstep hcare).1, fun c => ((h.step hstep hcare).2 c).inv (h.links c)⟩

end

/-! ## Runs -/

theorem inv_start (reserved : Bool → Fin NSOCK) (time : Bool → ℕ+) :
    (Tunnel.start reserved time).Inv := by
  have hlink (c : Nat) : (Tunnel.start reserved time).link c = .fresh := rfl
  constructor
  · constructor
    · exact fun _ => List.nodup_nil
    · exact fun _ => List.nodup_nil
    · exact fun _ i hi => nomatch hi
    · exact fun b => (reserved b).isLt
    · exact fun _ => (by decide : 512 ≤ PWSIZE)
    · exact fun _ i hi => nomatch hi
    · exact fun _ _ _ => ⟨rfl, rfl⟩
    · exact fun _ i hi => nomatch hi
    · exact fun _ i hi => nomatch hi
    · exact fun _ i hi => nomatch hi
    · exact fun _ i hi => nomatch hi
    · exact fun _ i hi => nomatch hi
    · exact fun _ i hi => nomatch hi
  · intro c
    rw [hlink]
    exact inv_fresh

end delegate.sox
