-- The flow control of a link: what is on its way to a socket and in the buffer before it stays
-- within a bound, if no port that waits for its peer takes output.
import Delegate.SoxLink

namespace delegate.sox

/-! ## Counting bytes -/

def Body.sendLen : Body → Nat
  | .SEND data => data.length
  | _ => 0

def Body.sentLen : Body → Nat
  | .SENT n => n
  | _ => 0

/-- The bytes of data on their way. -/
def sendLen (ms : List Body) : Nat := (ms.map Body.sendLen).sum

/-- The bytes that the answers on their way count. -/
def sentLen (ms : List Body) : Nat := (ms.map Body.sentLen).sum

def bufLen (p : Option Port) : Nat := (p.map fun p => p.lbuf.length).getD 0

/-- What a port may have on its way when it takes input, and what more than that one packet is. -/
def limit : Nat := PWSIZE * PqueSize

def most : Nat := limit + (PWSIZE - PHSIZE)

section
variable {ms ms' : List Body} {m : Body} {p : Port}

@[simp] theorem sendLen_nil : sendLen [] = 0 := rfl

@[simp] theorem sentLen_nil : sentLen [] = 0 := rfl

@[simp] theorem sendLen_cons : sendLen (m :: ms) = m.sendLen + sendLen ms := rfl

@[simp] theorem sentLen_cons : sentLen (m :: ms) = m.sentLen + sentLen ms := rfl

@[simp] theorem sendLen_append : sendLen (ms ++ ms') = sendLen ms + sendLen ms' := by
  rw [sendLen, List.map_append, List.sum_append]
  rfl

@[simp] theorem sentLen_append : sentLen (ms ++ ms') = sentLen ms + sentLen ms' := by
  rw [sentLen, List.map_append, List.sum_append]
  rfl

@[simp] theorem bufLen_none : bufLen none = 0 := rfl

@[simp] theorem bufLen_some : bufLen (some p) = p.lbuf.length := rfl

theorem wrap_of_lt {n : Nat} (h : n < 2 ^ 32) : wrap n = n := by
  unfold wrap
  omega

theorem most_lt : most < 2 ^ 32 := by decide

end

/-! ## What is held -/

/-- The bytes that `b` sent and that are not answered for, as far as they can still be, and what
`b` knows of them. -/
structure Link.Held (l : Link) (b : Bool) : Prop where
  pend {p : Port} (hp : l.port b = some p) (hcl : p.stat.closing = false) :
    sendLen (l.chan b) + bufLen (l.port !b) + sentLen (l.chan !b) ≤ p.rpend
  rpend {p : Port} (hp : l.port b = some p) (hcl : p.stat.closing = false) :
    p.rpend ≤ most ∧ (p.stat ≠ .SENDING → p.rpend ≤ limit)
  bound : sendLen (l.chan b) + bufLen (l.port !b) ≤ most

section
variable {l : Link} {b : Bool} {e : Event} {p : Port} {ms : List Body}
  {PackSize time w w1 w2 : Nat} {data conndata : List UInt8} {m : Body}

/-- An event, seen from the other side: what leaves the buffer is answered for at most once. -/
theorem Link.Held.after_not (h : l.Held (!b)) (hp : l.port b = some p)
    (hpop : sendLen ms + e.port.lbuf.length + sentLen e.out.toList ≤
      sendLen (l.chan !b) + p.lbuf.length) : ((l.pop b ms).after b e).Held (!b) where
  pend := by
    intro q hq hcl
    rw [after_port_not, pop_port] at hq
    have := h.pend hq hcl
    rw [Bool.not_not, hp, bufLen_some] at this
    rw [after_chan_not, pop_chan_not, Bool.not_not, after_port, after_chan, pop_chan, bufLen_some,
      sentLen_append]
    omega
  rpend := by
    intro q hq hcl
    rw [after_port_not, pop_port] at hq
    exact h.rpend hq hcl
  bound := by
    have := h.bound
    rw [Bool.not_not, hp, bufLen_some] at this
    rw [after_chan_not, pop_chan_not, Bool.not_not, after_port, bufLen_some]
    omega

/-- An event, seen from its own side. -/
theorem Link.Held.after (h : l.Held b) (hp : l.port b = some p)
    (hcl : e.port.stat.closing = false → p.stat.closing = false)
    (hpend : e.port.stat.closing = false →
      sendLen (l.chan b) + bufLen (l.port !b) + sentLen (l.chan !b) ≤ p.rpend →
      sendLen (l.chan b) + sendLen e.out.toList + bufLen (l.port !b) + sentLen ms ≤ e.port.rpend)
    (hrpend : e.port.stat.closing = false → e.port.rpend ≤ most ∧
      (e.port.stat ≠ .SENDING → e.port.rpend ≤ limit))
    (hbound : e.port.stat.closing = true → sendLen e.out.toList = 0) :
    ((l.pop b ms).after b e).Held b where
  pend := by
    intro q hq hq'
    rw [after_port] at hq
    cases hq
    rw [after_chan, pop_chan, after_port_not, pop_port, after_chan_not, pop_chan_not,
      sendLen_append]
    exact hpend hq' (h.pend hp (hcl hq'))
  rpend := by
    intro q hq hq'
    rw [after_port] at hq
    cases hq
    exact hrpend hq'
  bound := by
    rw [after_chan, pop_chan, after_port_not, pop_port, sendLen_append]
    cases hst : e.port.stat.closing with
    | false =>
      have h1 := hpend hst (h.pend hp (hcl hst))
      have h2 := (hrpend hst).1
      omega
    | true =>
      have h1 := hbound hst
      have h2 := h.bound
      omega

theorem held_fresh (b : Bool) : Link.fresh.Held b where
  pend := fun hp => nomatch hp
  rpend := fun hp => nomatch hp
  bound := Nat.zero_le _

theorem held_call (b : Bool) (conndata : List UInt8) (b' : Bool) :
    (Link.fresh.after b ⟨newPort .CONNECT, some (.CONNECT conndata), conndata, []⟩).Held b' := by
  refine forall_side b ?_ ?_ b'
  · constructor
    · intro p hp _
      rw [after_port] at hp
      cases hp
      simp [Link.fresh, Body.sendLen]
    · intro p hp _
      rw [after_port] at hp
      cases hp
      exact ⟨Nat.zero_le _, fun _ => Nat.zero_le _⟩
    · simp [Link.fresh, Body.sendLen]
  · constructor
    · intro p hp
      rw [after_port_not] at hp
      cases hp
    · intro p hp
      rw [after_port_not] at hp
      cases hp
    · simp [Link.fresh, newPort]

theorem Link.Inv.held_accept (hi : l.Inv) (h : ∀ b, l.Held b)
    (hc : l.chan (!b) = .CONNECT conndata :: ms) (conndata' : List UInt8) (b' : Bool) :
    ((l.pop b ms).after b
      ⟨newPort .CONNECTED, some (.CONNECTED conndata'), conndata', conndata⟩).Held b' := by
  have hs := hi.shaped.shape (b := b) (.inr (by simp [hc]))
  obtain ⟨hp, hc', hd, q, hq, hwait⟩ := hs.call (by rw [hc]; exact List.mem_cons_self)
  cases hc.symm.trans hd
  refine forall_side b ?_ ?_ b'
  · constructor
    · intro p hp _
      rw [after_port] at hp
      cases hp
      simp [hc', hq, hwait.2, Body.sendLen]
    · intro p hp _
      rw [after_port] at hp
      cases hp
      exact ⟨Nat.zero_le _, fun _ => Nat.zero_le _⟩
    · simp [hc', hq, hwait.2, Body.sendLen]
  · constructor
    · intro p hp _
      simp [hc', newPort, Body.sentLen]
    · intro p hp
      rw [after_port_not, pop_port] at hp
      exact (h !b).rpend hp
    · simp [newPort]

theorem Link.Inv.held_refuse (hi : l.Inv) (h : ∀ b, l.Held b)
    (hc : l.chan (!b) = .CONNECT conndata :: ms) (b' : Bool) : ((l.pop b ms).refuse b).Held b' := by
  have hs := hi.shaped.shape (b := b) (.inr (by simp [hc]))
  obtain ⟨hp, hc', hd, q, hq, hwait⟩ := hs.call (by rw [hc]; exact List.mem_cons_self)
  cases hc.symm.trans hd
  refine forall_side b ?_ ?_ b'
  · constructor
    · intro p hp'
      exact absurd (hp'.symm.trans hp) (by simp)
    · intro p hp'
      exact absurd (hp'.symm.trans hp) (by simp)
    · simp [hc', hq, hwait.2, Body.sendLen]
  · constructor
    · intro p hp' _
      simp [hp, hc', Body.sentLen]
    · exact (h !b).rpend
    · simp [hp]

theorem Link.Inv.held_relay1 (h : ∀ b, l.Held b) (hp : l.port b = some p)
    (hin : p.stat.input) (hsize : PackSize ≤ PWSIZE) (hlen : data.length ≤ PackSize - PHSIZE)
    (b' : Bool) : (l.after b (p.relay1 PackSize time data)).Held b' := by
  rw [← pop_self l b]
  by_cases hcl : p.stat.closing = true
  · rw [relay1_closing hcl]
    refine forall_side b ?_ ?_ b'
    · exact (h b).after hp id (fun _ => id) ((h b).rpend hp) (fun _ => rfl)
    · exact (h !b).after_not hp (Nat.le_refl _)
  have hcl : p.stat.closing = false := by simpa using hcl
  by_cases hdata : data = []
  · rw [hdata, relay1_close hcl]
    refine forall_side b ?_ ?_ b'
    · exact (h b).after hp (fun _ => hcl) (fun h => nomatch h) (fun h => nomatch h) (fun _ => rfl)
    · exact (h !b).after_not hp (Nat.add_le_add_left (Nat.zero_le _) _)
  · rw [relay1_send hcl hdata]
    obtain ⟨-, hlimit⟩ := (h b).rpend hp hcl
    have hlimit := hlimit fun hst => by
      rw [hst] at hin
      cases hin
    have hmost : p.rpend + data.length ≤ most := by
      unfold most
      omega
    have hwrap : wrap (p.rpend + data.length) = p.rpend + data.length := by
      rw [← Nat.cast_add]
      exact wrap_of_lt (Nat.lt_of_le_of_lt hmost most_lt)
    refine forall_side b ?_ ?_ b'
    · refine (h b).after hp (fun _ => hcl) (fun _ hpend => ?_) (fun _ => ?_) (fun hst => ?_)
      · dsimp only
        rw [hwrap]
        simp only [Option.toList_some, sendLen_cons, sendLen_nil, Body.sendLen]
        omega
      · dsimp only
        rw [hwrap]
        refine ⟨hmost, fun hst => ?_⟩
        split at hst
        · exact absurd rfl hst
        · have hle : PackSize * PqueSize ≤ limit := Nat.mul_le_mul_right _ hsize
          omega
      · dsimp only at hst
        split at hst <;> cases hst
    · exact (h !b).after_not hp (Nat.le_refl _)

theorem Link.Inv.held_flush (hi : l.Inv) (h : ∀ b, l.Held b) (hp : l.port b = some p)
    (hcalm : p.stat ≠ .SENDING) (b' : Bool) : (l.after b (p.flush w)).Held b' := by
  rw [← pop_self l b]
  rcases flush_cases p w with hf | ⟨written, rem, hne, hl, hf⟩
  · rw [hf]
    refine forall_side b ?_ ?_ b'
    · exact (h b).after hp id (fun _ => id) ((h b).rpend hp) (fun _ => rfl)
    · exact (h !b).after_not hp (Nat.le_refl _)
  have hs := hi.shaped.shape (b := b) (.inl (by simp [hp]))
  rw [hp] at hs
  have hopen (hst : p.stat ≠ .CLOSED) : p.stat.closing = false := by
    cases hst' : p.stat with
    | CLOSE =>
      have := hs.waits (.inl hst')
      rw [hl] at this
      exact absurd (List.append_eq_nil_iff.mp this).1 hne
    | CLOSED => exact absurd hst' hst
    | _ => rfl
  have hcl (hst : (if p.stat = .CLOSED then Stat.CLOSED else .SENT).closing = false) :
      p.stat.closing = false := by
    refine hopen fun h => ?_
    rw [if_pos h] at hst
    cases hst
  rw [hf]
  refine forall_side b ?_ ?_ b'
  · refine (h b).after hp hcl (fun _ hpend => hpend) (fun hst => ?_) (fun _ => rfl)
    obtain ⟨h1, h2⟩ := (h b).rpend hp (hcl hst)
    exact ⟨h1, fun _ => h2 hcalm⟩
  · refine (h !b).after_not hp ?_
    simp only [hl, List.length_append, Option.toList_some, sentLen_cons, sentLen_nil, Body.sentLen]
    omega

theorem Link.Inv.held_commin (hi : l.Inv) (h : ∀ b, l.Held b) (hp : l.port b = some p)
    (hc : l.chan (!b) = m :: ms) (hm : ∀ conndata, m ≠ .CONNECT conndata)
    (hsize : PackSize ≤ PWSIZE) (b' : Bool) :
    ((l.pop b ms).after b (p.commin PackSize time w1 w2 m)).Held b' := by
  have hs := hi.shaped.shape (b := b) (.inl (by simp [hp]))
  rw [hp, hc] at hs
  have hsend : sendLen (l.chan !b) = m.sendLen + sendLen ms := by rw [hc, sendLen_cons]
  have hsent : sentLen (l.chan !b) = m.sentLen + sentLen ms := by rw [hc, sentLen_cons]
  -- a port that passes the message over
  have hignored : ∀ b', ((l.pop b ms).after b ⟨p, none, [], []⟩).Held b' := by
    refine forall_side b ?_ ?_
    · refine (h b).after hp id (fun _ hpend => ?_) ((h b).rpend hp) (fun _ => rfl)
      dsimp only [Option.toList_none, sendLen_nil]
      omega
    · refine (h !b).after_not hp ?_
      dsimp only [Option.toList_none, sentLen_nil]
      omega
  -- one that is closed by it
  have hclosed {e : Event} (hst : e.port.stat = .CLOSED) (hbuf : e.port.lbuf = p.lbuf)
      (hout : sendLen e.out.toList = 0 ∧ sentLen e.out.toList = 0) (b' : Bool) :
      ((l.pop b ms).after b e).Held b' := by
    have hcl : ¬ e.port.stat.closing = false := by rw [hst]; decide
    refine forall_side b ?_ ?_ b'
    · exact (h b).after hp (fun h => absurd h hcl) (fun h => absurd h hcl)
        (fun h => absurd h hcl) (fun _ => hout.1)
    · refine (h !b).after_not hp ?_
      rw [hbuf, hout.2]
      omega
  cases m with
  | CONNECT conndata => exact absurd rfl (hm conndata)
  | CONNECTED conndata =>
    have hwait := hs.connected
    have hcl : p.stat.closing = false := by rw [hwait.1]; rfl
    have hlimit := ((h b).rpend hp hcl).2 (by rw [hwait.1]; decide)
    rw [commin_CONNECTED hwait.1]
    refine forall_side b ?_ ?_ b'
    · refine (h b).after hp (fun _ => hcl) (fun _ hpend => ?_)
        (fun _ => ⟨((h b).rpend hp hcl).1, fun _ => hlimit⟩) (fun _ => rfl)
      dsimp only [Option.toList_none, sendLen_nil]
      omega
    · refine (h !b).after_not hp ?_
      dsimp only [Option.toList_none, sentLen_nil]
      omega
  | SEND data =>
    by_cases hcl : p.stat.closing = true
    · rw [commin_ignored hcl (by simp) (by simp)]
      exact hignored b'
    have hcl : p.stat.closing = false := by simpa using hcl
    obtain ⟨written, rem, happ, he⟩ := commin_SEND PackSize time w1 w2 data hcl
    have hlen : written.length + rem.length = p.lbuf.length + data.length := by
      rw [← List.length_append, happ, List.length_append]
    have hout : sendLen (if written = [] then none else some (Body.SENT written.length)).toList = 0 ∧
        sentLen (if written = [] then none else some (Body.SENT written.length)).toList =
          written.length := by
      split
      · rename_i hw
        rw [hw]
        exact ⟨rfl, rfl⟩
      · exact ⟨rfl, rfl⟩
    rw [he]
    refine forall_side b ?_ ?_ b'
    · refine (h b).after hp (fun _ => hcl) (fun _ hpend => ?_)
        (fun _ => (h b).rpend (p := p) hp hcl) (fun _ => hout.1)
      dsimp only
      rw [hout.1]
      omega
    · refine (h !b).after_not hp ?_
      dsimp only
      rw [hout.2, hsend, Body.sendLen]
      omega
  | SENT n =>
    by_cases hcl : p.stat.closing = true
    · rw [commin_ignored hcl (by simp) (by simp)]
      exact hignored b'
    have hcl : p.stat.closing = false := by simpa using hcl
    have hpend := (h b).pend hp hcl
    rw [hsent, Body.sentLen] at hpend
    obtain ⟨hmost, hlimit⟩ := (h b).rpend hp hcl
    have hwrap : wrap ((p.rpend : Int) - n) = p.rpend - n := by
      rw [← Int.natCast_sub (by omega)]
      exact wrap_of_lt (Nat.lt_of_le_of_lt (Nat.sub_le _ _) (Nat.lt_of_le_of_lt hmost most_lt))
    rw [commin_SENT hcl, hwrap]
    refine forall_side b ?_ ?_ b'
    · refine (h b).after hp (fun _ => hcl) (fun _ _ => ?_) (fun _ => ?_) (fun _ => rfl)
      · dsimp only [Option.toList_none, sendLen_nil]
        omega
      · dsimp only
        refine ⟨by omega, fun hst => ?_⟩
        split at hst
        · rename_i hlt
          have hle : PackSize * PqueSize ≤ limit := Nat.mul_le_mul_right _ hsize
          omega
        · have := hlimit hst
          omega
    · refine (h !b).after_not hp ?_
      dsimp only [Option.toList_none, sentLen_nil]
      omega
  | CLOSE =>
    refine hclosed (e := p.commin PackSize time w1 w2 .CLOSE) rfl rfl ?_ b'
    dsimp only [Port.commin]
    split
    · exact ⟨rfl, rfl⟩
    · exact ⟨rfl, rfl⟩
  | CLOSED => exact hclosed (e := p.commin PackSize time w1 w2 .CLOSED) rfl rfl ⟨rfl, rfl⟩ b'

theorem Link.Inv.held_lost (h : ∀ b, l.Held b) (hp : l.port b = none) (hc : l.chan (!b) = m :: ms)
    (b' : Bool) : (l.pop b ms).Held b' := by
  refine forall_side b ?_ ?_ b'
  · constructor
    · intro p hp'
      exact absurd (hp'.symm.trans hp) (by simp)
    · intro p hp'
      exact absurd (hp'.symm.trans hp) (by simp)
    · rw [pop_chan]
      exact (h b).bound
  · have hpop : sendLen ms ≤ sendLen (l.chan !b) := by
      rw [hc, sendLen_cons]
      omega
    constructor
    · intro p hp' hcl
      have := (h !b).pend hp' hcl
      rw [Bool.not_not] at this ⊢
      rw [pop_chan_not, pop_chan, pop_port]
      omega
    · exact (h !b).rpend
    · have := (h !b).bound
      rw [pop_chan_not, pop_port]
      omega

theorem Link.Inv.held_remove (h : ∀ b, l.Held b) (b' : Bool) : (l.remove b).Held b' := by
  refine forall_side b ?_ ?_ b'
  · constructor
    · intro p hp
      rw [remove_port] at hp
      cases hp
    · intro p hp
      rw [remove_port] at hp
      cases hp
    · rw [remove_port_not]
      exact (h b).bound
  · constructor
    · intro p hp hcl
      rw [remove_port_not] at hp
      have := (h !b).pend hp hcl
      rw [Bool.not_not] at this ⊢
      rw [remove_chan, remove_port, bufLen_none]
      omega
    · intro p hp
      rw [remove_port_not] at hp
      exact (h !b).rpend hp
    · have := (h !b).bound
      rw [Bool.not_not] at this ⊢
      rw [remove_chan, remove_port, bufLen_none]
      omega

end

theorem Link.Step.held {l l' : Link} {calm : Prop} (hcalm : calm) (hstep : Link.Step calm l l')
    (hi : l.Inv) (h : ∀ b, l.Held b) : ∀ b, l'.Held b := by
  cases hstep with
  | call b conndata => exact held_call b conndata
  | accept conndata' hc => exact hi.held_accept h hc conndata'
  | refuse hc => exact hi.held_refuse h hc
  | relay1 time hp hin hsize hlen htime => exact Link.Inv.held_relay1 h hp hin hsize hlen
  | flush w hp hcalm' => exact hi.held_flush h hp (hcalm' hcalm)
  | commin time w2 hp hc hm hfull hsize => exact hi.held_commin h hp hc hm hsize
  | lost hp hc hm hm' => exact Link.Inv.held_lost h hp hc
  | remove hp hst => exact Link.Inv.held_remove h

end delegate.sox
