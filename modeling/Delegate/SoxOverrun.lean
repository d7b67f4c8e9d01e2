-- Output that is taken while an agent waits for its peer lets the agent take input again: with it
-- the flow control of the multiplexer has no bound.
import Delegate.SoxSteps

namespace delegate.sox

/-! ## A tunnel with one connection -/

/-- The agent of the only connection. -/
def only (p : Port) : Agent := { p with Laid := 2, Xaid := 2, sock := 0 }

def onlyPacket (body : Body) : Nat × Packet := (0, ⟨2, 2, body⟩)

/-- The ports at `b` and at the other side, and the messages on their way from each. -/
structure View (t : Tunnel) (b : Bool) (p q : Port) (c d : List Body) : Prop where
  near : (t.side b).agents = [only p]
  far : (t.side !b).agents = [only q]
  sent : t.comm b = c.map onlyPacket
  coming : t.comm (!b) = d.map onlyPacket
  size : (t.side b).PackSize = 512
  size' : (t.side !b).PackSize = 512

section
variable {t : Tunnel} {b : Bool} {p q : Port} {c d : List Body} {e : Event}
  {data : List UInt8} {m : Body}

theorem View.swap (h : View t b p q c d) : View t (!b) q p d c :=
  ⟨h.far, by rw [Bool.not_not]; exact h.near, h.coming, by rw [Bool.not_not]; exact h.sent,
    h.size', by rw [Bool.not_not]; exact h.size⟩

theorem View.after (h : View t b p q c d) {r : Done} (hagents : r.state.agents = [only e.port])
    (hsize : r.state.PackSize = 512) (hsock : r.sock = 0)
    (hout : r.out = e.out.map fun body => ⟨2, 2, body⟩) :
    View (t.after b r) b e.port q (c ++ e.out.toList) d where
  near := by rw [tunnel_after_side, hagents]
  far := by rw [tunnel_after_side_not, h.far]
  sent := by
    rw [tunnel_after_comm, h.sent, hsock, hout, List.map_append]
    cases e.out <;> rfl
  coming := by rw [tunnel_after_comm_not, h.coming]
  size := by rw [tunnel_after_side, hsize]
  size' := by rw [tunnel_after_side_not, h.size']

/-- An event of the socket. -/
theorem View.event (h : View t b p q c d) (event : Port → Option Event)
    (he : event p = some e) : ∃ r, (t.side b).event 0 event = some r ∧
      View (t.after b r) b e.port q (c ++ e.out.toList) d := by
  have hf : (t.side b).agents.find? (·.sock == 0) = some (only p) := by
    rw [h.near]
    rfl
  refine ⟨_, Option.bind_eq_some_iff.mpr ⟨only p, hf, Option.bind_eq_some_iff.mpr ⟨e, he, rfl⟩⟩,
    h.after ?_ h.size rfl rfl⟩
  change setAgent _ _ (t.side b).agents = _
  rw [h.near]
  rfl

theorem View.relay1 (h : View t b p q c d) (data : List UInt8) (hin : p.stat.input = true)
    (hlen : data.length ≤ 504)
    (he : p.relay1 512 (t.side b).time data = e) :
    ∃ t', t.step (b, .relay1 0 data) = some t' ∧ View t' b e.port q (c ++ e.out.toList) d := by
  obtain ⟨r, hr, hview⟩ := h.event (e := e) (fun p =>
      if p.stat.input ∧ data.length ≤ (t.side b).PackSize - PHSIZE then
        some (p.relay1 (t.side b).PackSize (t.side b).time data)
      else none) (by
    rw [h.size, he]
    exact if_pos ⟨hin, hlen⟩)
  exact ⟨_, congrArg (Option.map (t.after b)) hr, hview⟩

theorem View.flush (h : View t b p q c d) {w : Nat} (he : p.flush w = e) :
    ∃ t', t.step (b, .flush 0 w) = some t' ∧ View t' b e.port q (c ++ e.out.toList) d := by
  obtain ⟨r, hr, hview⟩ := h.event (fun p => some (p.flush w)) (congrArg some he)
  exact ⟨_, congrArg (Option.map (t.after b)) hr, hview⟩

theorem View.commin (h : View t b p q c (m :: d)) (w1 w2 : Nat)
    (hm : (∃ data, m = .SEND data) ∨ ∃ n, m = .SENT n)
    (he : p.commin 512 (t.side b).time w1 w2 m = e) :
    ∃ t', t.step (b, .commin none w1 w2) = some t' ∧
      View t' b e.port q (c ++ e.out.toList) d := by
  have hf : (t.side b).agents.find? (·.Laid == 2) = some (only p) := by
    rw [h.near]
    rfl
  have hcall : ∀ conndata, m ≠ .CONNECT conndata := by
    rintro conndata rfl
    rcases hm with ⟨data, hm⟩ | ⟨n, hm⟩ <;> cases hm
  have hheard : (only p).heard 2 m = 2 := by
    rcases hm with ⟨data, rfl⟩ | ⟨n, rfl⟩ <;> rfl
  have hr := sox_COMMIN_some (c := 0) none w1 w2 ⟨2, 2, m⟩ hf hcall
  rw [hheard, h.size] at hr
  change sox_COMMIN (t.side b) 0 none w1 w2 ⟨2, 2, m⟩ = some
    ⟨(t.side b).set (·.Laid == 2) (only (p.commin 512 (t.side b).time w1 w2 m).port), 0,
      (p.commin 512 (t.side b).time w1 w2 m).out.map fun reply => ⟨2, 2, reply⟩,
      (p.commin 512 (t.side b).time w1 w2 m).read,
      (p.commin 512 (t.side b).time w1 w2 m).written⟩ at hr
  rw [he] at hr
  have hpop : View (t.pop b (d.map onlyPacket)) b p q c d :=
    ⟨h.near, h.far, by rw [tunnel_pop_comm, h.sent], by rw [tunnel_pop_comm_not], h.size, h.size'⟩
  refine ⟨(t.pop b (d.map onlyPacket)).after b ⟨(t.side b).set (·.Laid == 2) (only e.port), 0,
    e.out.map fun reply => ⟨2, 2, reply⟩, e.read, e.written⟩, ?_, hpop.after ?_ h.size rfl rfl⟩
  · dsimp only [Tunnel.step]
    rw [h.coming]
    exact congrArg (Option.map _) hr
  · change setAgent _ _ (t.side b).agents = _
    rw [h.near]
    rfl

end

/-! ## One more packet -/

/-- A port that takes input. -/
structure Port.Ready (p : Port) : Prop where
  opened : p.Opened
  input : p.stat ≠ .SENDING

theorem Port.Ready.stat_input {p : Port} (h : p.Ready) : p.stat.input = true := by
  rcases h.opened with hst | hst | hst | hst
  · rw [hst]
    rfl
  · rw [hst]
    rfl
  · exact absurd hst h.input
  · rw [hst]
    rfl

/-- Both ports take input, the first has no output left and `n` bytes are in the buffer of the
second, which has nothing on its way. -/
def Filled (t : Tunnel) (n : Nat) : Prop :=
  ∃ p q : Port, View t true p q [] [] ∧ p.Ready ∧ p.lbuf = [] ∧ q.Ready ∧ q.rpend = 0 ∧
    q.lbuf.length = n

def packet : List UInt8 := List.replicate 504 0

theorem packet_length : packet.length = 504 := List.length_replicate

theorem packet_ne : packet ≠ [] := by
  intro h
  have := packet_length
  rw [h, List.length_nil] at this
  omega

/-- The second sends a byte, which the socket of the first does not take at once. The first sends
a packet, which the socket of the second does not take, and then its own socket takes the byte. -/
def round : List (Bool × Act) :=
  [(false, .relay1 0 [0]), (true, .commin none 0 0), (true, .relay1 0 packet),
    (false, .commin none 0 0), (true, .flush 0 1), (false, .commin none 0 0)]

section
variable {t : Tunnel} {b : Bool} {p q : Port} {c d : List Body} {m : Body} {PackSize time n : Nat}
  {data : List UInt8}

/-- Data for a socket that takes nothing is kept. -/
theorem commin_kept (h : p.Opened) : p.commin PackSize time 0 0 (.SEND data) =
    ⟨{ p with lbuf := p.lbuf ++ data }, none, [], []⟩ := by
  have hwriteb : writeb p.lbuf data 0 0 = ([], p.lbuf ++ data) := by
    unfold writeb
    split
    · rfl
    · rename_i hnot
      have hnil : p.lbuf = [] := by
        by_contra hne
        exact hnot ⟨hne, List.length_pos_of_ne_nil hne⟩
      rw [hnil]
      rfl
  dsimp only [Port.commin]
  rw [if_neg (by simp [h.not_closing]), hwriteb]
  rfl

/-- A packet that is not a call is taken in any run. -/
theorem View.careful (h : View t b p q c (m :: d)) (w1 w2 : Nat)
    (hm : (∃ data, m = .SEND data) ∨ ∃ n, m = .SENT n) :
    t.Careful False (b, .commin none w1 w2) := by
  intro m' hm'
  rw [h.coming] at hm'
  cases hm'
  rcases hm with ⟨data, rfl⟩ | ⟨n, rfl⟩
  · exact ⟨fun _ hb => (nomatch hb), fun _ hb => (nomatch hb)⟩
  · exact ⟨fun _ hb => (nomatch hb), fun _ hb => (nomatch hb)⟩

theorem filled_round (h : Filled t n) :
    ∃ t', runs.Run Tunnel.step (Tunnel.Careful False) t round t' ∧ Filled t' (n + 504) := by
  obtain ⟨p, q, hview, hp, hpbuf, hq, hrpend, hlen⟩ := h
  -- a byte from the second
  have hq' : Port.Opened { q with rpend := 1, stat := .SEND } := .inr (.inl rfl)
  obtain ⟨t1, hstep1, hview⟩ := hview.swap.relay1 [0]
    (e := ⟨{ q with rpend := 1, stat := .SEND }, some (.SEND [0]), [0], []⟩) hq.stat_input
    (by decide) (by
      rw [relay1_send hq.opened.not_closing (by simp), hrpend]
      rfl)
  have hcare2 := hview.swap.careful 0 0 (.inl ⟨[0], rfl⟩)
  obtain ⟨t2, hstep2, hview⟩ := hview.swap.commin 0 0 (.inl ⟨[0], rfl⟩) (commin_kept hp.opened)
  -- a packet from the first
  have hopen : Port.Opened { p with lbuf := p.lbuf ++ [0] } := hp.opened
  obtain ⟨t3, hstep3, hview⟩ := hview.relay1 packet hp.stat_input (Nat.le_of_eq packet_length)
    (relay1_send hopen.not_closing packet_ne)
  have hcare4 := hview.swap.careful 0 0 (.inl ⟨packet, rfl⟩)
  obtain ⟨t4, hstep4, hview⟩ := hview.swap.commin 0 0 (.inl ⟨packet, rfl⟩) (commin_kept hq')
  -- the byte is written
  generalize hrp : wrap (p.rpend + packet.length) = r at hview
  have hst : (if 512 * PqueSize < r then Stat.SENDING else .SEND) ≠ .CLOSED := by
    split <;> simp
  obtain ⟨t5, hstep5, hview⟩ := hview.swap.flush (w := 1)
    (e := ⟨{ p with rpend := r, lbuf := [], stat := .SENT }, some (.SENT 1), [], [0]⟩) (by
      simp [Port.flush, writeb, hpbuf, hst])
  have hcare6 := hview.swap.careful 0 0 (.inr ⟨1, rfl⟩)
  -- and is answered for
  obtain ⟨t6, hstep6, hview⟩ := hview.swap.commin 0 0 (.inr ⟨1, rfl⟩)
    (commin_SENT (Port.Opened.not_closing (.inr (.inl rfl))))
  refine ⟨t6, ?_, ?_⟩
  · exact .cons hstep1 trivial (.cons hstep2 hcare2 (.cons hstep3 trivial (.cons hstep4 hcare4
      (.cons hstep5 (fun h => h.elim) (.cons hstep6 hcare6 (.nil t6))))))
  · refine ⟨_, _, hview.swap, ⟨.inr (.inr (.inr rfl)), by simp⟩, rfl, ⟨?_, ?_⟩, ?_, ?_⟩
    · exact .inr (.inr (.inr rfl))
    · exact fun h => nomatch h
    · rfl
    · change (q.lbuf ++ packet).length = n + 504
      rw [List.length_append, packet_length, hlen]

end

/-! ## The buffer of the second -/

/-- A call and its answer. -/
theorem filled_start : ∃ t, runs.Run Tunnel.step (Tunnel.Careful False)
    (Tunnel.start (fun _ => 2) fun _ => 1)
    [(true, .accept []), (false, .commin (some []) 0 0), (true, .commin none 0 0)] t ∧
    Filled t 0 := by
  refine ⟨_, .cons rfl ?_ (.cons rfl ?_ (.cons rfl ?_ (.nil _))), newPort .CONNECTED,
    newPort .CONNECTED, ⟨rfl, rfl, rfl, rfl, rfl, rfl⟩, ⟨.inl rfl, by decide⟩, rfl,
    ⟨.inl rfl, by decide⟩, rfl, rfl⟩
  · exact fun l _ => ⟨fun m hm => (nomatch hm), fun a ha => (nomatch ha)⟩
  · rintro m ⟨⟩
    refine ⟨?_, fun conndata h => (nomatch h)⟩
    rintro conndata ⟨⟩ -
    refine ⟨Nat.le_refl _, fun l hl => ⟨?_, ?_⟩⟩
    · intro m hm n hn
      cases List.mem_singleton.mp hm
      cases hn
    · intro a ha hst
      cases List.mem_singleton.mp ha
      cases hst
  · rintro m ⟨⟩
    refine ⟨fun conndata h => (nomatch h), fun conndata h => ?_⟩
    cases h
    exact Nat.le_refl _

/-- There is no bound to the output that an agent keeps for its socket. -/
theorem run_overruns (n : Nat) : ∃ acts t, runs.Run Tunnel.step (Tunnel.Careful False)
    (Tunnel.start (fun _ => 2) fun _ => 1) acts t ∧
    ∃ a ∈ (t.side false).agents, n ≤ a.lbuf.length := by
  have hrounds : ∀ k, ∃ acts t, runs.Run Tunnel.step (Tunnel.Careful False)
      (Tunnel.start (fun _ => 2) fun _ => 1) acts t ∧ Filled t (504 * k) := by
    intro k
    induction k with
    | zero => exact ⟨_, filled_start⟩
    | succ k ih =>
      obtain ⟨acts, t, hrun, hfilled⟩ := ih
      obtain ⟨t', hround, hfilled⟩ := filled_round hfilled
      exact ⟨acts ++ round, t', hrun.append hround, hfilled⟩
  obtain ⟨acts, t, hrun, p, q, hview, -, -, -, -, hlen⟩ := hrounds n
  refine ⟨acts, t, hrun, only q, ?_, ?_⟩
  · have hfar : (t.side false).agents = [only q] := hview.far
    rw [hfar]
    exact List.mem_singleton.mpr rfl
  · change n ≤ q.lbuf.length
    omega

end delegate.sox
