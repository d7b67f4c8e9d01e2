-- What holds in every state of a run of the multiplexer: each connection is a link of its own, no
-- byte is lost or changed on its way, the buffers do not run over, and a close is answered.
import Delegate.SoxSteps
import Delegate.SoxFlow

namespace delegate.sox

/-! ## A run -/

/-- Two connections, one from each end, with data both ways; then the caller of the first closes,
and the second goes on. -/
def talk : List (Bool × Act) :=
  [(true, .accept [1]), (false, .accept [6]), (false, .commin (some [2]) 1 0),
    (true, .commin (some []) 1 0), (true, .commin none 1 0), (false, .commin none 0 0),
    (true, .relay1 0 [3, 4]), (true, .relay1 1 [7]), (false, .relay1 0 [5]),
    (false, .relay1 1 [8, 9]), (false, .commin none 0 1), (false, .commin none 0 1),
    (true, .commin none 0 1), (true, .commin none 0 1), (false, .flush 0 9), (true, .relay1 0 []),
    (true, .flush 1 9), (true, .commin none 0 0), (true, .commin none 0 0),
    (false, .commin none 0 0), (false, .commin none 0 0), (false, .commin none 0 0),
    (true, .relay1 1 [10]), (false, .commin none 0 0), (false, .commin none 0 1)]

/-- Each socket is given what was read from the one at its other end. -/
example : (runs.exec Tunnel.step (Tunnel.start (fun _ => 2) fun _ => 1) talk).map (fun t =>
    [(t.got true 0, t.put false 0), (t.got false 0, t.put true 0), (t.got true 1, t.put false 1),
      (t.got false 1, t.put true 1)]) =
    some [([1, 3, 4], [1, 3, 4]), ([2, 5], [2, 5]), ([7, 10], [7, 10]), ([6, 8, 9], [6, 8, 9])] := by
  decide +kernel

theorem talk_careful : runs.Meets Tunnel.step (Tunnel.Careful False)
    (Tunnel.start (fun _ => 2) fun _ => 1) talk := by
  decide +kernel

theorem talk_calm : runs.Meets Tunnel.step (Tunnel.Careful True)
    (Tunnel.start (fun _ => 2) fun _ => 1) talk := by
  decide +kernel

section
variable {calm : Prop} {t t' : Tunnel} {acts : List (Bool × Act)} {b : Bool} {a : Agent} {c : Nat}

/-! ## Runs -/

/-- The steps keep what the tunnel keeps. -/
theorem always_inv {P : Tunnel → Prop} (hP : ∀ t, t.Inv → P t) (ht : t.Inv)
    (h : runs.Meets Tunnel.step (Tunnel.Careful calm) t acts) :
    runs.Always Tunnel.step P t acts :=
  runs.always_of_meets (fun _ _ _ hinv hcare hstep => hinv.next hstep hcare) hP ht h

theorem Goes.reaches {l l' l₀ : Link} (hl : Relation.ReflTransGen (Link.Step calm) l₀ l)
    (h : Goes calm l l') : Relation.ReflTransGen (Link.Step calm) l₀ l' := by
  rcases h with rfl | h
  · exact hl
  · exact hl.tail h

/-- Whatever the other connections do, the ports, the packets and the bytes of a connection are
those of a link of its own. -/
theorem tunnel_refines_links (reserved : Bool → Fin NSOCK) (time : Bool → ℕ+)
    (hcare : runs.Meets Tunnel.step (Tunnel.Careful calm) (Tunnel.start reserved time) acts) :
    runs.Always Tunnel.step
      (fun t => ∀ c, Relation.ReflTransGen (Link.Step calm) .fresh (t.link c))
      (Tunnel.start reserved time) acts := by
  have hkeep : ∀ (t : Tunnel) x t',
      (t.Inv ∧ ∀ c, Relation.ReflTransGen (Link.Step calm) .fresh (t.link c)) →
      t.Careful calm x → t.step x = some t' →
      t'.Inv ∧ ∀ c, Relation.ReflTransGen (Link.Step calm) .fresh (t'.link c) := by
    rintro t x t' ⟨hinv, hlinks⟩ hcare hstep
    exact ⟨hinv.next hstep hcare, fun c => ((hinv.step hstep hcare).2 c).reaches (hlinks c)⟩
  refine runs.always_of_meets hkeep (fun _ h => h.2) ⟨inv_start reserved time, fun c => ?_⟩ hcare
  exact .refl

theorem tunnel_refines_links_talk : runs.Always Tunnel.step
    (fun t => ∀ c, Relation.ReflTransGen (Link.Step True) .fresh (t.link c))
    (Tunnel.start (fun _ => 2) fun _ => 1) talk := tunnel_refines_links _ _ talk_calm

/-! ## The bytes -/

theorem Tunnel.Inv.port (h : t.Inv) (ha : a ∈ (t.side b).agents) :
    (t.link a.sock).port b = some a.toPort := portOf_mem (h.routed.nodup b) ha

/-- What a socket of a connection is given is the first of what was read from the socket at the
other end, and as long as the socket has not ended its side, the rest of it is in the buffer of the
agent and, behind that, in packets on their way. -/
def Tunnel.Delivered (t : Tunnel) : Prop :=
  ∀ b c, t.put b c <+: t.got (!b) c ∧
    ∀ a ∈ (t.side b).agents, a.sock = c → a.ltCLOSED = 0 →
      t.got (!b) c = t.put b c ++ a.lbuf ++ bytes (chanOf (t.comm !b) c)

theorem run_delivered (reserved : Bool → Fin NSOCK) (time : Bool → ℕ+)
    (hcare : runs.Meets Tunnel.step (Tunnel.Careful False) (Tunnel.start reserved time) acts) :
    runs.Always Tunnel.step Tunnel.Delivered (Tunnel.start reserved time) acts := by
  refine always_inv (fun t h b c => ⟨((h.links c).kept b).written, ?_⟩) (inv_start _ _) hcare
  rintro a ha rfl hlt
  exact ((h.links a.sock).kept b).exact (h.port ha) hlt

theorem run_delivered_talk : runs.Always Tunnel.step Tunnel.Delivered
    (Tunnel.start (fun _ => 2) fun _ => 1) talk := run_delivered _ _ talk_careful

/-- The data in the buffer of an agent and on its way to it is less than what the buffer has room
for by more than a packet. -/
def Tunnel.Fits (t : Tunnel) : Prop :=
  ∀ b, ∀ a ∈ (t.side b).agents,
    a.lbuf.length + sendLen (chanOf (t.comm !b) a.sock) + PWSIZE + PHSIZE ≤ MAXBUFSIZE

theorem run_fits (reserved : Bool → Fin NSOCK) (time : Bool → ℕ+)
    (hcare : runs.Meets Tunnel.step (Tunnel.Careful True) (Tunnel.start reserved time) acts) :
    runs.Always Tunnel.step Tunnel.Fits (Tunnel.start reserved time) acts := by
  have hkeep : ∀ (t : Tunnel) x t', (t.Inv ∧ ∀ c b, (t.link c).Held b) → t.Careful True x →
      t.step x = some t' → t'.Inv ∧ ∀ c b, (t'.link c).Held b := by
    rintro t x t' ⟨hinv, hheld⟩ hcare hstep
    refine ⟨hinv.next hstep hcare, fun c => ?_⟩
    rcases (hinv.step hstep hcare).2 c with hl | hl
    · rw [hl]
      exact hheld c
    · exact hl.held trivial (hinv.links c) (hheld c)
  refine runs.always_of_meets hkeep ?_ ⟨inv_start reserved time, fun c b => held_fresh b⟩ hcare
  rintro t ⟨hinv, hheld⟩ b a ha
  have hbound := (hheld a.sock !b).bound
  rw [Bool.not_not, hinv.port ha, bufLen_some] at hbound
  have hroom : most + PWSIZE + PHSIZE ≤ MAXBUFSIZE := by decide
  change a.lbuf.length + sendLen ((t.link a.sock).chan !b) + PWSIZE + PHSIZE ≤ MAXBUFSIZE
  omega

theorem run_fits_talk : runs.Always Tunnel.step Tunnel.Fits
    (Tunnel.start (fun _ => 2) fun _ => 1) talk := run_fits _ _ talk_calm

/-! ## Opening and closing -/

section
variable {p : Port} {q : Option Port} {c d : List Body}

/-- A port that has closed has its close or an answer on the way. -/
theorem Shape.answered (h : Shape (some p) q c d) (hst : p.stat = .CLOSE) :
    .CLOSE ∈ c ∨ .CLOSE ∈ d ∨ .CLOSED ∈ d := by
  have hopen : ¬ p.Opened := by
    rintro (h | h | h | h) <;> cases hst.symm.trans h
  have hwait {stat : Stat} (hne : stat ≠ .CLOSE) : ¬ p.Waits stat :=
    fun hp => hne (hp.1.symm.trans hst)
  have hended : ¬ Ended (some p) := fun hp => nomatch hst.symm.trans (hp p rfl)
  rcases h with h | h
  · cases h with
    | calling hp => exact absurd hp (hwait (by simp))
    | refused hp => exact absurd hp (hwait (by simp))
    | gaveUp hp => exact absurd (hp p rfl) (hwait (by simp))
    | called hp => exact absurd hp (hwait (by simp))
    | calledClosing hp => exact absurd hp (hwait (by simp))
    | opened hp => exact absurd hp hopen
    | closing hp => exact .inl (by simp)
    | closingBoth hp => exact .inl (by simp)
    | answered hp hq hd hm has =>
      rcases hm with rfl | rfl
      · exact .inr (.inl (by simp))
      · exact .inr (.inr (by simp))
    | ended hp => exact absurd hp hended
  · cases h with
    | called hq hp => exact absurd hp hopen
    | calledClosing hq hp => exact .inl (by simp)
    | opened hq hp => exact absurd hp hopen
    | closing hq hp => exact absurd hp hopen
    | closingBoth hq hp => exact .inl (by simp)
    | answered hq hp => exact absurd hp hended
    | ended hq hp => exact absurd hp hended

/-- A port that is open has a peer. -/
theorem Shape.peer (h : Shape (some p) q c d) (hopen : p.Opened) : q ≠ none := by
  have hwait {stat : Stat} (hne : stat = .CONNECT ∨ stat = .CLOSE ∨ stat = .CLOSED) :
      ¬ p.Waits stat := by
    rintro ⟨rfl, -⟩
    rcases hopen with h | h | h | h <;> rw [h] at hne <;> simp at hne
  have hended : ¬ Ended (some p) := by
    intro hp
    rcases hopen with h | h | h | h <;> cases h.symm.trans (hp p rfl)
  rcases h with h | h
  · cases h with
    | calling hp => exact absurd hp (hwait (by simp))
    | refused hp => exact absurd hp (hwait (by simp))
    | gaveUp hp => exact absurd (hp p rfl) (hwait (by simp))
    | called hp => simp
    | calledClosing hp => simp
    | opened hp => simp
    | closing hp => simp
    | closingBoth hp => simp
    | answered hp => exact absurd hp (hwait (by simp))
    | ended hp => exact absurd hp hended
  · cases h with
    | called hq hp => simp
    | calledClosing hq hp => simp
    | opened hq hp => simp
    | closing hq hp => simp
    | closingBoth hq hp => simp
    | answered hq hp => simp
    | ended hq hp => exact absurd hp hended

end

/-- An open agent has its peer, by its id; one that has called or closed has this or an answer to
it on the way; and a packet is for an agent that is there, but for a call, for an answer to one
that was refused, and for what counts bytes. -/
def Tunnel.Answered (t : Tunnel) : Prop :=
  ∀ b,
    (∀ a ∈ (t.side b).agents,
      (a.Opened → ∃ a' ∈ (t.side !b).agents, a'.sock = a.sock ∧ a'.Laid = a.Xaid) ∧
      (a.stat = .CONNECT → (∃ conndata, .CONNECT conndata ∈ chanOf (t.comm b) a.sock) ∨
        (∃ conndata, .CONNECTED conndata ∈ chanOf (t.comm !b) a.sock) ∨
        .CLOSE ∈ chanOf (t.comm !b) a.sock) ∧
      (a.stat = .CLOSE → .CLOSE ∈ chanOf (t.comm b) a.sock ∨
        .CLOSE ∈ chanOf (t.comm !b) a.sock ∨ .CLOSED ∈ chanOf (t.comm !b) a.sock)) ∧
    ∀ m ∈ t.comm b, (∀ conndata, m.2.body ≠ .CONNECT conndata) → (∀ n, m.2.body ≠ .SENT n) →
      (∃ a ∈ (t.side !b).agents, a.sock = m.1 ∧ a.Laid = m.2.Raid) ∨
        m.2.Raid = noAid ∧ ∀ a ∈ (t.side !b).agents, a.sock ≠ m.1

theorem run_answered (reserved : Bool → Fin NSOCK) (time : Bool → ℕ+)
    (hcare : runs.Meets Tunnel.step (Tunnel.Careful False) (Tunnel.start reserved time) acts) :
    runs.Always Tunnel.step Tunnel.Answered (Tunnel.start reserved time) acts := by
  have hknown {t : Tunnel} {b : Bool} {c l : Nat} (hk : Known (t.ids b) c l) :
      (∃ a ∈ (t.side b).agents, a.sock = c ∧ a.Laid = l) ∨
        l = noAid ∧ ∀ a ∈ (t.side b).agents, a.sock ≠ c := by
    rcases hk with hk | ⟨hl, hk⟩
    · obtain ⟨a, ha, he⟩ := List.mem_map.mp hk
      cases he
      exact .inl ⟨a, ha, rfl, rfl⟩
    · exact .inr ⟨hl, fun a ha => hk _ (mem_ids ha)⟩
  refine always_inv (fun t h b => ⟨fun a ha => ?_, fun m hm hcall hack => ?_⟩)
    (inv_start _ _) hcare
  · have hs := h.shape ha
    refine ⟨fun hopen => ?_, fun hst => ?_, hs.answered⟩
    · refine (hknown (h.routed.peer b a ha hopen)).resolve_right ?_
      rintro ⟨-, hno⟩
      exact hs.peer hopen (portOf_none.mpr hno)
    · obtain ⟨conndata, hc, -⟩ | ⟨m, ms, hd, hm⟩ := hs.called hst
      · exact .inl ⟨conndata, by simp [show chanOf (t.comm b) a.sock = _ from hc]⟩
      · have hd : chanOf (t.comm !b) a.sock = m :: ms := hd
        obtain ⟨conndata, rfl⟩ | rfl := hm
        · exact .inr (.inl ⟨conndata, by simp [hd]⟩)
        · exact .inr (.inr (by simp [hd]))
  · exact hknown (h.routed.dest b m hm hcall hack)

theorem run_answered_talk : runs.Always Tunnel.step Tunnel.Answered
    (Tunnel.start (fun _ => 2) fun _ => 1) talk := run_answered _ _ talk_careful

end

end delegate.sox
