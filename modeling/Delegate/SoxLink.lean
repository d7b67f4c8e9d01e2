-- One connection as if it had two channels for itself: the same events at its two ports, and no
-- ids. How far the opening and the closing are, and which bytes are where.
import Delegate.Sox

namespace delegate.sox

/-! ## Links -/

structure Link where
  port : Bool → Option Port
  chan : Bool → List Body
  got : Bool → List UInt8
  put : Bool → List UInt8

def Link.fresh : Link := ⟨fun _ => none, fun _ => [], fun _ => [], fun _ => []⟩

def Link.after (l : Link) (b : Bool) (e : Event) : Link :=
  ⟨Function.update l.port b (some e.port), Function.update l.chan b (l.chan b ++ e.out.toList),
    Function.update l.got b (l.got b ++ e.read), Function.update l.put b (l.put b ++ e.written)⟩

/-- A message is taken from the channel to `b`. -/
def Link.pop (l : Link) (b : Bool) (ms : List Body) : Link :=
  { l with chan := Function.update l.chan (!b) ms }

def Link.refuse (l : Link) (b : Bool) : Link :=
  { l with chan := Function.update l.chan b (l.chan b ++ [.CLOSE]) }

def Link.remove (l : Link) (b : Bool) : Link := { l with port := Function.update l.port b none }

/-- The steps of a link. A calm one takes no output in `SENDING`. -/
inductive Link.Step (calm : Prop) : Link → Link → Prop
  | call (b : Bool) (conndata : List UInt8) :
    Step calm .fresh
      (Link.fresh.after b ⟨newPort .CONNECT, some (.CONNECT conndata), conndata, []⟩)
  | accept {l : Link} {b : Bool} {conndata : List UInt8} {ms : List Body}
    (conndata' : List UInt8) (hc : l.chan (!b) = .CONNECT conndata :: ms) :
    Step calm l ((l.pop b ms).after b
      ⟨newPort .CONNECTED, some (.CONNECTED conndata'), conndata', conndata⟩)
  | refuse {l : Link} {b : Bool} {conndata : List UInt8} {ms : List Body}
    (hc : l.chan (!b) = .CONNECT conndata :: ms) : Step calm l ((l.pop b ms).refuse b)
  | relay1 {l : Link} {b : Bool} {p : Port} {PackSize : Nat} {data : List UInt8} (time : Nat)
    (hp : l.port b = some p) (hin : p.stat.input) (hsize : PackSize ≤ PWSIZE)
    (hlen : data.length ≤ PackSize - PHSIZE) (htime : time ≠ 0) :
    Step calm l (l.after b (p.relay1 PackSize time data))
  | flush {l : Link} {b : Bool} {p : Port} (w : Nat) (hp : l.port b = some p)
    (hcalm : calm → p.stat ≠ .SENDING) : Step calm l (l.after b (p.flush w))
  | commin {l : Link} {b : Bool} {p : Port} {m : Body} {ms : List Body} {PackSize w1 : Nat}
    (time w2 : Nat) (hp : l.port b = some p) (hc : l.chan (!b) = m :: ms)
    (hm : ∀ conndata, m ≠ .CONNECT conndata)
    (hfull : ∀ conndata, m = .CONNECTED conndata → conndata.length ≤ w1)
    (hsize : PackSize ≤ PWSIZE) :
    Step calm l ((l.pop b ms).after b (p.commin PackSize time w1 w2 m))
  | lost {l : Link} {b : Bool} {m : Body} {ms : List Body} (hp : l.port b = none)
    (hc : l.chan (!b) = m :: ms) (hm : ∀ conndata, m ≠ .CONNECT conndata) (hm' : m ≠ .CLOSE) :
    Step calm l (l.pop b ms)
  | remove {l : Link} {b : Bool} {p : Port} (hp : l.port b = some p) (hst : p.stat = .CLOSED) :
    Step calm l (l.remove b)

/-! ## How far a connection is -/

/-- Both sides have answered: data goes both ways. -/
def Port.Opened (p : Port) : Prop :=
  p.stat = .CONNECTED ∨ p.stat = .SEND ∨ p.stat = .SENDING ∨ p.stat = .SENT

/-- A port that waits for an answer. It has no output. -/
def Port.Waits (p : Port) (stat : Stat) : Prop := p.stat = stat ∧ p.lbuf = []

def Ended (p : Option Port) : Prop := ∀ q, p = some q → q.stat = .CLOSED

def Acks (ms : List Body) : Prop := ∀ m ∈ ms, ∃ n, m = .SENT n

def Flow (ms : List Body) : Prop := ∀ m ∈ ms, (∃ data, m = .SEND data) ∨ ∃ n, m = .SENT n

/-- What the two ports and the channels from them may be together, seen from the side that called
or that closed first. -/
inductive Half : Option Port → Option Port → List Body → List Body → Prop
  | calling {p : Port} {conndata : List UInt8} (hp : p.Waits .CONNECT) :
    Half (some p) none [.CONNECT conndata] []
  | refused {p : Port} (hp : p.Waits .CONNECT) : Half (some p) none [] [.CLOSE]
  | gaveUp {p : Option Port} (hp : ∀ q, p = some q → q.Waits .CLOSED) :
    Half p none [.CLOSED] []
  | called {p q : Port} {conndata : List UInt8} {ms : List Body} (hp : p.Waits .CONNECT)
    (hq : q.Opened) (hms : Flow ms) : Half (some p) (some q) [] (.CONNECTED conndata :: ms)
  | calledClosing {p q : Port} {conndata : List UInt8} {ms : List Body} (hp : p.Waits .CONNECT)
    (hq : q.Waits .CLOSE) (hms : Flow ms) :
    Half (some p) (some q) [] (.CONNECTED conndata :: (ms ++ [.CLOSE]))
  | opened {p q : Port} {c d : List Body} (hp : p.Opened) (hq : q.Opened) (hc : Flow c)
    (hd : Flow d) : Half (some p) (some q) c d
  | closing {p q : Port} {c d : List Body} (hp : p.Waits .CLOSE) (hq : q.Opened) (hc : Flow c)
    (hd : Flow d) : Half (some p) (some q) (c ++ [.CLOSE]) d
  | closingBoth {p q : Port} {c d : List Body} (hp : p.Waits .CLOSE) (hq : q.Waits .CLOSE)
    (hc : Flow c) (hd : Flow d) : Half (some p) (some q) (c ++ [.CLOSE]) (d ++ [.CLOSE])
  | answered {p : Port} {q : Option Port} {m : Body} {d as : List Body} (hp : p.Waits .CLOSE)
    (hq : Ended q) (hd : Flow d) (hm : m = .CLOSE ∨ m = .CLOSED) (has : Acks as) :
    Half (some p) q [] (d ++ m :: as)
  | ended {p q : Option Port} {c d : List Body} (hp : Ended p) (hq : Ended q) (hc : Acks c)
    (hd : Acks d) : Half p q c d

def Shape (p q : Option Port) (c d : List Body) : Prop := Half p q c d ∨ Half q p d c

theorem Shape.swap {p q : Option Port} {c d : List Body} (h : Shape p q c d) : Shape q p d c :=
  Or.symm h

/-! ### Lists of messages -/

section
variable {ms ms' : List Body} {m : Body}

theorem acks_nil : Acks [] := fun _ h => absurd h List.not_mem_nil

theorem flow_nil : Flow [] := fun _ h => absurd h List.not_mem_nil

theorem Acks.append (h : Acks ms) (h' : Acks ms') : Acks (ms ++ ms') := by
  intro m hm
  rcases List.mem_append.mp hm with hm | hm
  · exact h m hm
  · exact h' m hm

theorem Flow.append (h : Flow ms) (h' : Flow ms') : Flow (ms ++ ms') := by
  intro m hm
  rcases List.mem_append.mp hm with hm | hm
  · exact h m hm
  · exact h' m hm

theorem flow_SEND (data : List UInt8) : Flow [.SEND data] :=
  fun _ hm => .inl ⟨data, List.mem_singleton.mp hm⟩

theorem acks_SENT (n : Nat) : Acks [.SENT n] := fun _ hm => ⟨n, List.mem_singleton.mp hm⟩

theorem flow_SENT (n : Nat) : Flow [.SENT n] := fun _ hm => .inr ⟨n, List.mem_singleton.mp hm⟩

theorem Acks.tail (h : Acks (m :: ms)) : Acks ms := fun m' hm => h m' (List.mem_cons_of_mem _ hm)

theorem Flow.tail (h : Flow (m :: ms)) : Flow ms := fun m' hm => h m' (List.mem_cons_of_mem _ hm)

theorem Acks.head (h : Acks (m :: ms)) : ∃ n, m = .SENT n := h m List.mem_cons_self

theorem Flow.head (h : Flow (m :: ms)) : (∃ data, m = .SEND data) ∨ ∃ n, m = .SENT n :=
  h m List.mem_cons_self

end

/-! ### What the events do -/

section
variable {p : Port} {PackSize time w w1 w2 n : Nat} {data conndata : List UInt8} {m : Body}

theorem Port.Opened.not_closing (h : p.Opened) : p.stat.closing = false := by
  rcases h with h | h | h | h <;> rw [h] <;> rfl

theorem Port.Waits.closing (h : p.Waits .CLOSE) : p.stat.closing = true := by rw [h.1]; rfl

theorem closing_of_CLOSED (h : p.stat = .CLOSED) : p.stat.closing = true := by rw [h]; rfl

theorem relay1_closing (h : p.stat.closing = true) :
    p.relay1 PackSize time data = ⟨p, none, [], []⟩ := by
  rw [Port.relay1, if_pos h]

theorem relay1_close (h : p.stat.closing = false) :
    p.relay1 PackSize time [] =
      ⟨{ p with stat := .CLOSE, lbuf := [], ltCLOSED := time }, some .CLOSE, [], []⟩ := by
  rw [Port.relay1, if_neg (by simp [h]), if_pos rfl]

theorem relay1_send (h : p.stat.closing = false) (hdata : data ≠ []) :
    p.relay1 PackSize time data =
      ⟨{ p with
          rpend := wrap (p.rpend + data.length)
          stat := if PackSize * PqueSize < wrap (p.rpend + data.length) then .SENDING
            else .SEND },
        some (.SEND data), data, []⟩ := by
  rw [Port.relay1, if_neg (by simp [h]), if_neg hdata]

/-- Input of an open port is sent, or its end is. -/
theorem relay1_opened (h : p.Opened) :
    ((p.relay1 PackSize time data).port.Waits .CLOSE ∧
        (p.relay1 PackSize time data).out.toList = [.CLOSE]) ∨
      (p.relay1 PackSize time data).port.Opened ∧
        Flow (p.relay1 PackSize time data).out.toList := by
  by_cases hdata : data = []
  · left
    rw [hdata, relay1_close h.not_closing]
    exact ⟨⟨rfl, rfl⟩, rfl⟩
  · right
    rw [relay1_send h.not_closing hdata]
    refine ⟨?_, flow_SEND data⟩
    dsimp only [Port.Opened]
    split
    · exact .inr (.inr (.inl rfl))
    · exact .inr (.inl rfl)

theorem writeb_append (b_buf buf : List UInt8) (w1 w2 : Nat) :
    (writeb b_buf buf w1 w2).1 ++ (writeb b_buf buf w1 w2).2 = b_buf ++ buf := by
  unfold writeb
  split
  · rw [← List.append_assoc, List.take_append_drop]
  · rw [List.append_assoc, List.take_append_drop]

/-- Output is taken: nothing, or a part of the buffer that is answered for. -/
theorem flush_cases (p : Port) (w : Nat) :
    (p.flush w = ⟨p, none, [], []⟩) ∨
      ∃ written rem, written ≠ [] ∧ p.lbuf = written ++ rem ∧
        p.flush w = ⟨{ p with lbuf := rem, stat := if p.stat = .CLOSED then .CLOSED else .SENT },
          some (.SENT written.length), [], written⟩ := by
  have happ := writeb_append p.lbuf [] w 0
  rcases hwb : writeb p.lbuf [] w 0 with ⟨written, rem⟩
  rw [hwb, List.append_nil] at happ
  have hlen : p.lbuf.length - rem.length = written.length := by
    rw [← happ, List.length_append, Nat.add_sub_cancel]
  by_cases hw : written = []
  · left
    have hrem : rem = p.lbuf := by rw [← happ, hw]; rfl
    unfold Port.flush
    rw [hwb]
    simp [hw, hrem]
  · right
    refine ⟨written, rem, hw, happ.symm, ?_⟩
    have h0 : written.length ≠ 0 := fun h => hw (List.length_eq_zero_iff.mp h)
    unfold Port.flush
    rw [hwb]
    simp only [hlen, if_neg h0]

theorem flush_empty (h : p.lbuf = []) : p.flush w = ⟨p, none, [], []⟩ := by
  rcases flush_cases p w with h' | ⟨written, rem, hw, hl, -⟩
  · exact h'
  · rw [h] at hl
    exact absurd (List.append_eq_nil_iff.mp hl.symm).1 hw

theorem flush_opened (h : p.Opened) :
    (p.flush w).port.Opened ∧ Flow (p.flush w).out.toList := by
  rcases flush_cases p w with hf | ⟨written, rem, -, -, hf⟩
  · rw [hf]
    exact ⟨h, flow_nil⟩
  · have hst : p.stat ≠ .CLOSED := fun hst => by simpa [hst, Stat.closing] using h.not_closing
    rw [hf]
    exact ⟨.inr (.inr (.inr (if_neg hst))), flow_SENT written.length⟩

theorem flush_ended (h : p.stat = .CLOSED) :
    (p.flush w).port.stat = .CLOSED ∧ Acks (p.flush w).out.toList := by
  rcases flush_cases p w with hf | ⟨written, rem, -, -, hf⟩
  · rw [hf]
    exact ⟨h, acks_nil⟩
  · rw [hf]
    exact ⟨if_pos h, acks_SENT written.length⟩

theorem commin_SEND (PackSize time w1 w2 : Nat) (data : List UInt8)
    (h : p.stat.closing = false) :
    ∃ written rem, written ++ rem = p.lbuf ++ data ∧
      p.commin PackSize time w1 w2 (.SEND data) =
        ⟨{ p with lbuf := rem }, if written = [] then none else some (.SENT written.length), [],
          written⟩ := by
  have happ := writeb_append p.lbuf data w1 w2
  rcases hwb : writeb p.lbuf data w1 w2 with ⟨written, rem⟩
  rw [hwb] at happ
  refine ⟨written, rem, happ, ?_⟩
  dsimp only [Port.commin]
  rw [if_neg (by simp [h]), hwb]

/-- In a port that is closing only the answers count. -/
theorem commin_ignored (h : p.stat.closing = true) (h1 : m ≠ .CLOSE) (h2 : m ≠ .CLOSED) :
    p.commin PackSize time w1 w2 m = ⟨p, none, [], []⟩ := by
  cases m with
  | CONNECT conndata => rfl
  | CONNECTED conndata => exact if_pos h
  | SEND data => exact if_pos h
  | SENT sent => exact if_pos h
  | CLOSE => exact absurd rfl h1
  | CLOSED => exact absurd rfl h2

theorem commin_SENT (h : p.stat.closing = false) :
    p.commin PackSize time w1 w2 (.SENT n) =
      ⟨{ p with
          rpend := wrap (p.rpend - n)
          stat := if wrap (p.rpend - n) < PackSize * PqueSize then .SENT else p.stat },
        none, [], []⟩ := by
  dsimp only [Port.commin]
  rw [if_neg (by simp [h])]

theorem commin_CONNECTED (h : p.stat = .CONNECT) :
    p.commin PackSize time w1 w2 (.CONNECTED conndata) =
      ⟨{ p with stat := .CONNECTED }, none, [], conndata.take w1⟩ := by
  dsimp only [Port.commin]
  rw [if_neg (by rw [h]; decide)]

/-- Data and its answers keep a port open. -/
theorem commin_opened (PackSize time w1 w2 : Nat) (h : p.Opened)
    (hm : (∃ data, m = .SEND data) ∨ ∃ n, m = .SENT n) :
    (p.commin PackSize time w1 w2 m).port.Opened ∧
      Flow (p.commin PackSize time w1 w2 m).out.toList := by
  rcases hm with ⟨data, rfl⟩ | ⟨n, rfl⟩
  · obtain ⟨written, rem, -, he⟩ := commin_SEND PackSize time w1 w2 data h.not_closing
    rw [he]
    refine ⟨h, ?_⟩
    dsimp only
    split
    · exact flow_nil
    · exact flow_SENT written.length
  · rw [commin_SENT h.not_closing]
    refine ⟨?_, flow_nil⟩
    dsimp only [Port.Opened]
    split
    · exact .inr (.inr (.inr rfl))
    · exact h

theorem commin_flow_closing (h : p.stat.closing = true)
    (hm : (∃ data, m = .SEND data) ∨ ∃ n, m = .SENT n) :
    p.commin PackSize time w1 w2 m = ⟨p, none, [], []⟩ := by
  rcases hm with ⟨data, rfl⟩ | ⟨n, rfl⟩
  · exact commin_ignored h (by simp) (by simp)
  · exact commin_ignored h (by simp) (by simp)

end

/-! ### Each step keeps the shape -/

section
variable {p : Port} {q : Option Port} {c d : List Body} {PackSize time w w1 w2 : Nat}
  {data conndata : List UInt8} {m : Body}

theorem waits_newPort (stat : Stat) : (newPort stat).Waits stat := ⟨rfl, rfl⟩

theorem opened_newPort : (newPort .CONNECTED).Opened := .inl rfl

theorem ended_none : Ended none := fun _ h => nomatch h

theorem ended_some (h : p.stat = .CLOSED) : Ended (some p) := by
  intro q hq
  cases hq
  exact h

theorem Half.relay1 (h : Half (some p) q c d) (hin : p.stat.input) :
    Half (some (p.relay1 PackSize time data).port) q
      (c ++ (p.relay1 PackSize time data).out.toList) d := by
  cases h with
  | calling hp => rw [hp.1] at hin; cases hin
  | refused hp => rw [hp.1] at hin; cases hin
  | called hp => rw [hp.1] at hin; cases hin
  | calledClosing hp => rw [hp.1] at hin; cases hin
  | gaveUp hp =>
    rw [relay1_closing (closing_of_CLOSED (hp p rfl).1)]
    exact .gaveUp hp
  | opened hp hq hc hd =>
    rcases relay1_opened hp with ⟨hp', hout⟩ | ⟨hp', hout⟩
    · rw [hout]
      exact .closing hp' hq hc hd
    · exact .opened hp' hq (hc.append hout) hd
  | closing hp hq hc hd =>
    rw [relay1_closing hp.closing]
    simpa using Half.closing hp hq hc hd
  | closingBoth hp hq hc hd =>
    rw [relay1_closing hp.closing]
    simpa using Half.closingBoth hp hq hc hd
  | answered hp hq hd hm has =>
    rw [relay1_closing hp.closing]
    exact .answered hp hq hd hm has
  | ended hp hq hc hd =>
    rw [relay1_closing (closing_of_CLOSED (hp p rfl))]
    simpa using Half.ended hp hq hc hd

theorem Half.relay1_snd (h : Half q (some p) d c) :
    Shape (some (p.relay1 PackSize time data).port) q
      (c ++ (p.relay1 PackSize time data).out.toList) d := by
  cases h with
  | called hq hp hms =>
    rcases relay1_opened hp with ⟨hp', hout⟩ | ⟨hp', hout⟩
    · rw [hout]
      exact .inr (.calledClosing hq hp' hms)
    · exact .inr (.called hq hp' (hms.append hout))
  | calledClosing hq hp hms =>
    rw [relay1_closing hp.closing]
    exact .inr (by simpa using Half.calledClosing hq hp hms)
  | opened hq hp hd hc =>
    rcases relay1_opened hp with ⟨hp', hout⟩ | ⟨hp', hout⟩
    · rw [hout]
      exact .inl (.closing hp' hq hc hd)
    · exact .inr (.opened hq hp' hd (hc.append hout))
  | closing hq hp hd hc =>
    rcases relay1_opened hp with ⟨hp', hout⟩ | ⟨hp', hout⟩
    · rw [hout]
      exact .inr (.closingBoth hq hp' hd hc)
    · exact .inr (.closing hq hp' hd (hc.append hout))
  | closingBoth hq hp hd hc =>
    rw [relay1_closing hp.closing]
    exact .inr (by simpa using Half.closingBoth hq hp hd hc)
  | answered hq hp hd hm has =>
    rw [relay1_closing (closing_of_CLOSED (hp p rfl))]
    exact .inr (by simpa using Half.answered hq hp hd hm has)
  | ended hq hp hd hc =>
    rw [relay1_closing (closing_of_CLOSED (hp p rfl))]
    exact .inr (by simpa using Half.ended hq hp hd hc)

theorem Shape.relay1 (h : Shape (some p) q c d) (hin : p.stat.input) :
    Shape (some (p.relay1 PackSize time data).port) q
      (c ++ (p.relay1 PackSize time data).out.toList) d := by
  rcases h with h | h
  · exact .inl (h.relay1 hin)
  · exact h.relay1_snd

theorem Half.flush (h : Half (some p) q c d) :
    Half (some (p.flush w).port) q (c ++ (p.flush w).out.toList) d := by
  by_cases hl : p.lbuf = []
  · rw [flush_empty hl]
    simpa using h
  cases h with
  | calling hp => exact absurd hp.2 hl
  | refused hp => exact absurd hp.2 hl
  | gaveUp hp => exact absurd (hp p rfl).2 hl
  | called hp => exact absurd hp.2 hl
  | calledClosing hp => exact absurd hp.2 hl
  | opened hp hq hc hd =>
    obtain ⟨hp', hout⟩ := flush_opened (w := w) hp
    exact .opened hp' hq (hc.append hout) hd
  | closing hp => exact absurd hp.2 hl
  | closingBoth hp => exact absurd hp.2 hl
  | answered hp => exact absurd hp.2 hl
  | ended hp hq hc hd =>
    obtain ⟨hp', hout⟩ := flush_ended (w := w) (hp p rfl)
    exact .ended (ended_some hp') hq (hc.append hout) hd

theorem Half.flush_snd (h : Half q (some p) d c) :
    Half q (some (p.flush w).port) d (c ++ (p.flush w).out.toList) := by
  by_cases hl : p.lbuf = []
  · rw [flush_empty hl]
    simpa using h
  cases h with
  | called hq hp hms =>
    obtain ⟨hp', hout⟩ := flush_opened (w := w) hp
    exact .called hq hp' (hms.append hout)
  | calledClosing hq hp => exact absurd hp.2 hl
  | opened hq hp hd hc =>
    obtain ⟨hp', hout⟩ := flush_opened (w := w) hp
    exact .opened hq hp' hd (hc.append hout)
  | closing hq hp hd hc =>
    obtain ⟨hp', hout⟩ := flush_opened (w := w) hp
    exact .closing hq hp' hd (hc.append hout)
  | closingBoth hq hp => exact absurd hp.2 hl
  | answered hq hp hd hm has =>
    obtain ⟨hp', hout⟩ := flush_ended (w := w) (hp p rfl)
    rw [List.append_assoc, List.cons_append]
    exact .answered hq (ended_some hp') hd hm (has.append hout)
  | ended hq hp hd hc =>
    obtain ⟨hp', hout⟩ := flush_ended (w := w) (hp p rfl)
    exact .ended hq (ended_some hp') hd (hc.append hout)

theorem Shape.flush (h : Shape (some p) q c d) :
    Shape (some (p.flush w).port) q (c ++ (p.flush w).out.toList) d := by
  rcases h with h | h
  · exact .inl h.flush
  · exact .inr h.flush_snd

theorem Half.commin (h : Half (some p) q c (m :: d)) :
    Shape (some (p.commin PackSize time w1 w2 m).port) q
      (c ++ (p.commin PackSize time w1 w2 m).out.toList) d := by
  generalize hmd : m :: d = d' at h
  cases h with
  | calling hp => cases hmd
  | refused hp =>
    cases hmd
    refine .inl ?_
    dsimp only [Port.commin]
    rw [if_neg (by rw [hp.1]; decide)]
    refine .gaveUp ?_
    intro q hq
    cases hq
    exact ⟨rfl, hp.2⟩
  | gaveUp hp => cases hmd
  | called hp hq hms =>
    cases hmd
    rw [commin_CONNECTED hp.1]
    exact .inl (.opened (.inl rfl) hq flow_nil hms)
  | calledClosing hp hq hms =>
    cases hmd
    rw [commin_CONNECTED hp.1]
    exact .inr (.closing hq (.inl rfl) hms flow_nil)
  | opened hp hq hc hd =>
    subst hmd
    obtain ⟨hp', hout⟩ := commin_opened PackSize time w1 w2 hp hd.head
    exact .inl (.opened hp' hq (hc.append hout) hd.tail)
  | closing hp hq hc hd =>
    subst hmd
    rw [commin_flow_closing hp.closing hd.head]
    exact .inl (by simpa using Half.closing hp hq hc hd.tail)
  | closingBoth hp hq hc hd =>
    rcases List.cons_eq_append_iff.mp hmd with ⟨rfl, hd'⟩ | ⟨ds, rfl, rfl⟩
    · cases hd'
      dsimp only [Port.commin]
      rw [if_pos hp.1]
      exact .inr (by simpa using Half.answered hq (ended_some rfl) hc (.inl rfl) acks_nil)
    · rw [commin_flow_closing hp.closing hd.head]
      exact .inl (by simpa using Half.closingBoth hp hq hc hd.tail)
  | answered hp hq hd hm has =>
    rcases List.cons_eq_append_iff.mp hmd with ⟨rfl, hd'⟩ | ⟨ds, rfl, rfl⟩
    · cases hd'
      rcases hm with rfl | rfl
      · dsimp only [Port.commin]
        rw [if_pos hp.1]
        exact .inl (.ended (ended_some rfl) hq acks_nil has)
      · exact .inl (.ended (ended_some rfl) hq acks_nil has)
    · rw [commin_flow_closing hp.closing hd.head]
      exact .inl (.answered hp hq hd.tail hm has)
  | ended hp hq hc hd =>
    subst hmd
    rw [commin_flow_closing (closing_of_CLOSED (hp p rfl)) (.inr hd.head)]
    exact .inl (by simpa using Half.ended hp hq hc hd.tail)

theorem Half.commin_snd (h : Half q (some p) (m :: d) c) :
    Shape (some (p.commin PackSize time w1 w2 m).port) q
      (c ++ (p.commin PackSize time w1 w2 m).out.toList) d := by
  generalize hmd : m :: d = d' at h
  cases h with
  | called => cases hmd
  | calledClosing => cases hmd
  | opened hq hp hd hc =>
    subst hmd
    obtain ⟨hp', hout⟩ := commin_opened PackSize time w1 w2 hp hd.head
    exact .inr (.opened hq hp' hd.tail (hc.append hout))
  | closing hq hp hd hc =>
    rcases List.cons_eq_append_iff.mp hmd with ⟨rfl, hd'⟩ | ⟨ds, rfl, rfl⟩
    · cases hd'
      dsimp only [Port.commin]
      rw [if_neg fun hst => by simpa [hst, Stat.closing] using hp.not_closing]
      exact .inr (.answered hq (ended_some rfl) hc (.inr rfl) acks_nil)
    · obtain ⟨hp', hout⟩ := commin_opened PackSize time w1 w2 hp hd.head
      exact .inr (.closing hq hp' hd.tail (hc.append hout))
  | closingBoth hq hp hd hc =>
    rcases List.cons_eq_append_iff.mp hmd with ⟨rfl, hd'⟩ | ⟨ds, rfl, rfl⟩
    · cases hd'
      dsimp only [Port.commin]
      rw [if_pos hp.1]
      exact .inr (by simpa using Half.answered hq (ended_some rfl) hc (.inl rfl) acks_nil)
    · rw [commin_flow_closing hp.closing hd.head]
      exact .inr (by simpa using Half.closingBoth hq hp hd.tail hc)
  | answered => cases hmd
  | ended hq hp hd hc =>
    subst hmd
    rw [commin_flow_closing (closing_of_CLOSED (hp p rfl)) (.inr hd.head)]
    exact .inr (by simpa using Half.ended hq hp hd.tail hc)

theorem Shape.commin (h : Shape (some p) q c (m :: d)) :
    Shape (some (p.commin PackSize time w1 w2 m).port) q
      (c ++ (p.commin PackSize time w1 w2 m).out.toList) d := by
  rcases h with h | h
  · exact h.commin
  · exact h.commin_snd

theorem Flow.not_call (h : Flow c) : .CONNECT conndata ∉ c := by
  intro hm
  rcases h _ hm with ⟨data, h⟩ | ⟨n, h⟩ <;> cases h

theorem Acks.not_call (h : Acks c) : .CONNECT conndata ∉ c := by
  intro hm
  obtain ⟨n, h⟩ := h _ hm
  cases h

/-- A call on its way is the only message of its connection, and finds no port. -/
theorem Shape.call {p : Option Port} (h : Shape p q c d) (hcall : .CONNECT conndata ∈ d) :
    p = none ∧ c = [] ∧ d = [.CONNECT conndata] ∧ ∃ q', q = some q' ∧ q'.Waits .CONNECT := by
  rcases h with h | h
  · cases h with
    | calling hp => simp at hcall
    | refused hp => simp at hcall
    | gaveUp hp => simp at hcall
    | called hp hq hms => simp [hms.not_call] at hcall
    | calledClosing hp hq hms => simp [hms.not_call] at hcall
    | opened hp hq hc hd => exact absurd hcall hd.not_call
    | closing hp hq hc hd => exact absurd hcall hd.not_call
    | closingBoth hp hq hc hd => simp [hd.not_call] at hcall
    | answered hp hq hd hm has =>
      rcases hm with rfl | rfl <;> simp [hd.not_call, has.not_call] at hcall
    | ended hp hq hc hd => exact absurd hcall hd.not_call
  · cases h with
    | calling hq =>
      cases List.mem_singleton.mp hcall
      exact ⟨rfl, rfl, rfl, _, rfl, hq⟩
    | refused hq => simp at hcall
    | gaveUp hq => simp at hcall
    | called hq hp hms => simp at hcall
    | calledClosing hq hp hms => simp at hcall
    | opened hq hp hd hc => exact absurd hcall hd.not_call
    | closing hq hp hd hc => simp [hd.not_call] at hcall
    | closingBoth hq hp hd hc => simp [hd.not_call] at hcall
    | answered hq hp hd hm has => simp at hcall
    | ended hq hp hd hc => exact absurd hcall hd.not_call

/-- What reaches a side without a port is not a close, and changes nothing. -/
theorem Shape.lost (h : Shape none q c (m :: d)) (hm : ∀ conndata, m ≠ .CONNECT conndata) :
    m ≠ .CLOSE ∧ Shape none q c d := by
  generalize hmd : m :: d = d' at h
  rcases h with h | h
  · cases h with
    | gaveUp hp => cases hmd
    | ended hp hq hc hd =>
      subst hmd
      obtain ⟨n, rfl⟩ := hd.head
      exact ⟨by simp, .inl (.ended hp hq hc hd.tail)⟩
  · cases h with
    | calling hq =>
      cases hmd
      exact absurd rfl (hm _)
    | refused hq => cases hmd
    | gaveUp hq =>
      cases hmd
      exact ⟨by simp, .inr (.ended (fun q hq' => (hq q hq').1) ended_none acks_nil acks_nil)⟩
    | answered hq hp hd hm has => cases hmd
    | ended hq hp hd hc =>
      subst hmd
      obtain ⟨n, rfl⟩ := hd.head
      exact ⟨by simp, .inr (.ended hq hp hd.tail hc)⟩

/-- A port is removed where only answers can still reach it, and no peer waits for it. -/
theorem Shape.remove (h : Shape (some p) q c d) (hst : p.stat = .CLOSED) :
    Shape none q c d ∧ Acks d ∧ ∀ q', q = some q' → q'.stat.closing = true := by
  have hopen : ¬ p.Opened := fun hp => by simpa [hst, Stat.closing] using hp.not_closing
  have hwait {stat : Stat} (hne : stat ≠ .CLOSED) : ¬ p.Waits stat :=
    fun hp => hne (hp.1.symm.trans hst)
  rcases h with h | h
  · cases h with
    | calling hp => exact absurd hp (hwait (by simp))
    | refused hp => exact absurd hp (hwait (by simp))
    | gaveUp hp => exact ⟨.inl (.gaveUp fun q h => nomatch h), acks_nil, fun q' h => nomatch h⟩
    | called hp => exact absurd hp (hwait (by simp))
    | calledClosing hp => exact absurd hp (hwait (by simp))
    | opened hp => exact absurd hp hopen
    | closing hp => exact absurd hp (hwait (by simp))
    | closingBoth hp => exact absurd hp (hwait (by simp))
    | answered hp => exact absurd hp (hwait (by simp))
    | ended hp hq hc hd =>
      refine ⟨.inl (.ended ended_none hq hc hd), hd, ?_⟩
      intro q' hq'
      exact closing_of_CLOSED (hq q' hq')
  · cases h with
    | called hq hp => exact absurd hp hopen
    | calledClosing hq hp => exact absurd hp (hwait (by simp))
    | opened hq hp => exact absurd hp hopen
    | closing hq hp => exact absurd hp hopen
    | closingBoth hq hp => exact absurd hp (hwait (by simp))
    | answered hq hp hd hm has =>
      refine ⟨.inr (.answered hq ended_none hd hm has), acks_nil, ?_⟩
      intro q' hq'
      cases hq'
      exact hq.closing
    | ended hq hp hd hc =>
      refine ⟨.inr (.ended hq ended_none hd hc), hd, ?_⟩
      intro q' hq'
      exact closing_of_CLOSED (hq q' hq')

end

/-! ### The shape of a link -/

/-- Nothing has happened, or the connection is somewhere between its call and its end. -/
def Link.Shaped (l : Link) : Prop :=
  l = .fresh ∨ ∀ b, Shape (l.port b) (l.port !b) (l.chan b) (l.chan !b)

theorem Shape.shaped {l : Link} (b : Bool)
    (h : Shape (l.port b) (l.port !b) (l.chan b) (l.chan !b)) : l.Shaped := by
  refine .inr fun b' => ?_
  rcases Bool.eq_or_eq_not b' b with rfl | rfl
  · exact h
  · rw [Bool.not_not]
    exact h.swap

section
variable {l : Link} {b : Bool} {e : Event} {ms : List Body}

@[simp] theorem after_port : (l.after b e).port b = some e.port := Function.update_self ..

@[simp] theorem after_port_not : (l.after b e).port (!b) = l.port !b :=
  Function.update_of_ne (Bool.not_ne_self b) ..

@[simp] theorem after_chan : (l.after b e).chan b = l.chan b ++ e.out.toList :=
  Function.update_self ..

@[simp] theorem after_chan_not : (l.after b e).chan (!b) = l.chan !b :=
  Function.update_of_ne (Bool.not_ne_self b) ..

@[simp] theorem after_got : (l.after b e).got b = l.got b ++ e.read := Function.update_self ..

@[simp] theorem after_got_not : (l.after b e).got (!b) = l.got !b :=
  Function.update_of_ne (Bool.not_ne_self b) ..

@[simp] theorem after_put : (l.after b e).put b = l.put b ++ e.written := Function.update_self ..

@[simp] theorem after_put_not : (l.after b e).put (!b) = l.put !b :=
  Function.update_of_ne (Bool.not_ne_self b) ..

@[simp] theorem pop_port : (l.pop b ms).port = l.port := rfl

@[simp] theorem pop_got : (l.pop b ms).got = l.got := rfl

@[simp] theorem pop_put : (l.pop b ms).put = l.put := rfl

@[simp] theorem pop_chan : (l.pop b ms).chan b = l.chan b :=
  Function.update_of_ne (Bool.not_ne_self b).symm ..

@[simp] theorem pop_chan_not : (l.pop b ms).chan (!b) = ms := Function.update_self ..

@[simp] theorem refuse_port : (l.refuse b).port = l.port := rfl

@[simp] theorem refuse_got : (l.refuse b).got = l.got := rfl

@[simp] theorem refuse_put : (l.refuse b).put = l.put := rfl

@[simp] theorem refuse_chan : (l.refuse b).chan b = l.chan b ++ [.CLOSE] :=
  Function.update_self ..

@[simp] theorem refuse_chan_not : (l.refuse b).chan (!b) = l.chan !b :=
  Function.update_of_ne (Bool.not_ne_self b) ..

@[simp] theorem remove_port : (l.remove b).port b = none := Function.update_self ..

@[simp] theorem remove_port_not : (l.remove b).port (!b) = l.port !b :=
  Function.update_of_ne (Bool.not_ne_self b) ..

@[simp] theorem remove_chan : (l.remove b).chan = l.chan := rfl

@[simp] theorem remove_got : (l.remove b).got = l.got := rfl

@[simp] theorem remove_put : (l.remove b).put = l.put := rfl

/-- A side with a port or with something on its way to it is not fresh. -/
theorem Link.Shaped.shape (h : l.Shaped) (hne : l.port b ≠ none ∨ l.chan (!b) ≠ []) :
    Shape (l.port b) (l.port !b) (l.chan b) (l.chan !b) := by
  rcases h with rfl | h
  · rcases hne with hne | hne
    · exact absurd rfl hne
    · exact absurd rfl hne
  · exact h b

end

theorem Link.Step.shaped {calm : Prop} {l l' : Link} (hstep : Link.Step calm l l')
    (h : l.Shaped) : l'.Shaped := by
  cases hstep with
  | call b conndata =>
    refine Shape.shaped b ?_
    rw [after_port, after_port_not, after_chan, after_chan_not]
    exact .inl (.calling (waits_newPort _))
  | @accept _ b conndata ms conndata' hc =>
    have hs := h.shape (b := b) (.inr (by simp [hc]))
    obtain ⟨hp, hc', hd, q, hq, hwait⟩ := hs.call (by rw [hc]; exact List.mem_cons_self)
    cases hc.symm.trans hd
    refine Shape.shaped b ?_
    rw [after_port, after_port_not, after_chan, after_chan_not, pop_port, pop_chan, pop_chan_not,
      hq, hc']
    exact .inr (.called hwait opened_newPort flow_nil)
  | @refuse _ b conndata ms hc =>
    have hs := h.shape (b := b) (.inr (by simp [hc]))
    obtain ⟨hp, hc', hd, q, hq, hwait⟩ := hs.call (by rw [hc]; exact List.mem_cons_self)
    cases hc.symm.trans hd
    refine Shape.shaped b ?_
    rw [refuse_port, refuse_chan, refuse_chan_not, pop_port, pop_chan, pop_chan_not, hp, hq, hc']
    exact .inr (.refused hwait)
  | @relay1 _ b p PackSize data time hp hin hsize hlen htime =>
    have hs := h.shape (b := b) (.inl (by simp [hp]))
    rw [hp] at hs
    refine Shape.shaped b ?_
    rw [after_port, after_port_not, after_chan, after_chan_not]
    exact hs.relay1 hin
  | @flush _ b p w hp hcalm =>
    have hs := h.shape (b := b) (.inl (by simp [hp]))
    rw [hp] at hs
    refine Shape.shaped b ?_
    rw [after_port, after_port_not, after_chan, after_chan_not]
    exact hs.flush
  | @commin _ b p m ms PackSize w1 time w2 hp hc hm hfull hsize =>
    have hs := h.shape (b := b) (.inl (by simp [hp]))
    rw [hp, hc] at hs
    refine Shape.shaped b ?_
    rw [after_port, after_port_not, after_chan, after_chan_not, pop_port, pop_chan, pop_chan_not]
    exact hs.commin
  | @lost _ b m ms hp hc hm hm' =>
    have hs := h.shape (b := b) (.inr (by simp [hc]))
    rw [hp, hc] at hs
    refine Shape.shaped b ?_
    rw [pop_port, pop_chan, pop_chan_not, hp]
    exact (hs.lost hm).2
  | @remove _ b p hp hst =>
    have hs := h.shape (b := b) (.inl (by simp [hp]))
    rw [hp] at hs
    refine Shape.shaped b ?_
    rw [remove_port, remove_port_not, remove_chan]
    exact (hs.remove hst).1

/-! ## Where the bytes are -/

def Body.bytes : Body → List UInt8
  | .CONNECT conndata => conndata
  | .CONNECTED conndata => conndata
  | .SEND data => data
  | _ => []

def bytes (ms : List Body) : List UInt8 := ms.flatMap Body.bytes

@[simp] theorem bytes_nil : bytes [] = [] := rfl

@[simp] theorem bytes_cons (m : Body) (ms : List Body) : bytes (m :: ms) = m.bytes ++ bytes ms :=
  List.flatMap_cons

@[simp] theorem bytes_append (ms ms' : List Body) : bytes (ms ++ ms') = bytes ms ++ bytes ms' :=
  List.flatMap_append

/-- Where the socket of `b` has not ended its side, each byte that was read at the other side was
written to it, or is in the buffer, or is on its way, in this order. -/
structure Link.Kept (l : Link) (b : Bool) : Prop where
  written : l.put b <+: l.got !b
  exact {p : Port} (hp : l.port b = some p) (hlt : p.ltCLOSED = 0) :
    l.got (!b) = l.put b ++ p.lbuf ++ bytes (l.chan !b)
  ended {p : Port} (hp : l.port b = some p) (hst : p.stat = .CLOSE) : p.ltCLOSED ≠ 0
  halted {p : Port} (hp : l.port b = some p) (hlt : p.ltCLOSED ≠ 0) :
    p.stat.closing = true ∧ p.lbuf = []
  called {conndata : List UInt8} (hcall : .CONNECT conndata ∈ l.chan !b) :
    l.put b = [] ∧ l.got (!b) = conndata

/-- What a link keeps. -/
structure Link.Inv (l : Link) : Prop where
  shaped : l.Shaped
  kept (b : Bool) : l.Kept b

section
variable {l : Link} {b : Bool} {e : Event} {p : Port} {q : Option Port} {c d ms : List Body}
  {PackSize time w w1 w2 : Nat} {data conndata : List UInt8} {m : Body}

theorem flush_bytes (p : Port) (w : Nat) : (p.flush w).read = [] ∧
    bytes (p.flush w).out.toList = [] ∧
    ∀ conndata, .CONNECT conndata ∉ (p.flush w).out.toList := by
  rcases flush_cases p w with h | ⟨written, rem, -, -, h⟩ <;> rw [h] <;> simp [Body.bytes]

theorem relay1_bytes (p : Port) (PackSize time : Nat) (data : List UInt8) :
    bytes (p.relay1 PackSize time data).out.toList = (p.relay1 PackSize time data).read ∧
    (∀ conndata, .CONNECT conndata ∉ (p.relay1 PackSize time data).out.toList) ∧
    (p.relay1 PackSize time data).written = [] := by
  unfold Port.relay1
  split
  · simp
  · split <;> simp [Body.bytes]

theorem commin_bytes (p : Port) (PackSize time w1 w2 : Nat) (m : Body) :
    (p.commin PackSize time w1 w2 m).read = [] ∧
    bytes (p.commin PackSize time w1 w2 m).out.toList = [] ∧
    ∀ conndata, .CONNECT conndata ∉ (p.commin PackSize time w1 w2 m).out.toList := by
  cases m with
  | CONNECT conndata => simp [Port.commin]
  | CONNECTED conndata => dsimp only [Port.commin]; split <;> simp
  | SEND data =>
    dsimp only [Port.commin]
    split
    · simp
    · dsimp only
      split <;> simp [Body.bytes]
  | SENT sent => dsimp only [Port.commin]; split <;> simp
  | CLOSE => dsimp only [Port.commin]; split <;> simp [Body.bytes]
  | CLOSED => simp [Port.commin]

/-- An event at one side, seen from the other: what it reads it sends. -/
theorem Link.Kept.after_not (h : l.Kept (!b)) (hread : bytes e.out.toList = e.read)
    (hcall : ∀ conndata, .CONNECT conndata ∈ l.chan b ++ e.out.toList →
      .CONNECT conndata ∈ l.chan b ∧ e.read = []) : (l.after b e).Kept (!b) where
  written := by
    rw [after_put_not, Bool.not_not, after_got]
    have := h.written
    rw [Bool.not_not] at this
    exact this.trans (List.prefix_append _ _)
  exact := by
    intro p hp hlt
    rw [after_port_not] at hp
    have := h.exact hp hlt
    rw [Bool.not_not] at this ⊢
    rw [after_got, after_put_not, after_chan, bytes_append, hread, this]
    simp only [List.append_assoc]
  ended := by
    intro p hp
    rw [after_port_not] at hp
    exact h.ended hp
  halted := by
    intro p hp
    rw [after_port_not] at hp
    exact h.halted hp
  called := by
    intro conndata hm
    rw [Bool.not_not, after_chan] at hm
    obtain ⟨hm, hread⟩ := hcall conndata hm
    have := h.called (by rw [Bool.not_not]; exact hm)
    rw [Bool.not_not] at this ⊢
    rw [after_got, after_put_not, hread, List.append_nil]
    exact this

/-- A message taken from the other channel is not seen there. -/
theorem Link.Kept.pop_not (h : l.Kept (!b)) : (l.pop b ms).Kept (!b) where
  written := h.written
  exact := by
    intro p hp hlt
    have := h.exact hp hlt
    rw [Bool.not_not] at this ⊢
    rw [pop_chan]
    exact this
  ended := h.ended
  halted := h.halted
  called := by
    intro conndata hm
    rw [Bool.not_not, pop_chan] at hm
    exact h.called (by rw [Bool.not_not]; exact hm)

/-- A port that waits has no output. -/
theorem Shape.waits (h : Shape (some p) q c d) (hst : p.stat = .CLOSE ∨ p.stat = .CONNECT) :
    p.lbuf = [] := by
  have hopen : ¬ p.Opened := by
    rintro (h | h | h | h) <;> rw [h] at hst <;> simp at hst
  have hclosed : p.stat ≠ .CLOSED := by
    intro h
    rw [h] at hst
    simp at hst
  rcases h with h | h
  · cases h with
    | calling hp => exact hp.2
    | refused hp => exact hp.2
    | gaveUp hp => exact (hp p rfl).2
    | called hp => exact hp.2
    | calledClosing hp => exact hp.2
    | opened hp => exact absurd hp hopen
    | closing hp => exact hp.2
    | closingBoth hp => exact hp.2
    | answered hp => exact hp.2
    | ended hp => exact absurd (hp p rfl) hclosed
  · cases h with
    | called hq hp => exact absurd hp hopen
    | calledClosing hq hp => exact hp.2
    | opened hq hp => exact absurd hp hopen
    | closing hq hp => exact absurd hp hopen
    | closingBoth hq hp => exact hp.2
    | answered hq hp => exact absurd (hp p rfl) hclosed
    | ended hq hp => exact absurd (hp p rfl) hclosed

/-- The answer to a call finds a port that waits for it. -/
theorem Shape.connected (h : Shape (some p) q c (.CONNECTED conndata :: d)) :
    p.Waits .CONNECT := by
  have hflow {ms : List Body} (hms : Flow ms) : .CONNECTED conndata ∉ ms := by
    intro hm
    rcases hms _ hm with ⟨data, h⟩ | ⟨n, h⟩ <;> cases h
  have hhead {ms as : List Body} {x : Body} (hms : Flow ms)
      (h : .CONNECTED conndata :: d = ms ++ x :: as) : x = .CONNECTED conndata := by
    rcases List.cons_eq_append_iff.mp h with ⟨rfl, h⟩ | ⟨ds, rfl, -⟩
    · cases h
      rfl
    · exact absurd List.mem_cons_self (hflow hms)
  generalize hmd : Body.CONNECTED conndata :: d = d' at h
  rcases h with h | h
  · cases h with
    | calling hp => exact hp
    | refused hp => exact hp
    | gaveUp hp => cases hmd
    | called hp => exact hp
    | calledClosing hp => exact hp
    | opened hp hq hc hd => exact absurd (hmd ▸ List.mem_cons_self) (hflow hd)
    | closing hp hq hc hd => exact absurd (hmd ▸ List.mem_cons_self) (hflow hd)
    | closingBoth hp hq hc hd => cases hhead hd hmd
    | answered hp hq hd hm has =>
      rcases hm with rfl | rfl
      · cases hhead hd hmd
      · cases hhead hd hmd
    | ended hp hq hc hd =>
      obtain ⟨n, h⟩ := hd _ (hmd ▸ List.mem_cons_self)
      cases h
  · cases h with
    | called => cases hmd
    | calledClosing => cases hmd
    | opened hq hp hd hc => exact absurd (hmd ▸ List.mem_cons_self) (hflow hd)
    | closing hq hp hd hc => cases hhead hd hmd
    | closingBoth hq hp hd hc => cases hhead hd hmd
    | answered => cases hmd
    | ended hq hp hd hc =>
      obtain ⟨n, h⟩ := hd _ (hmd ▸ List.mem_cons_self)
      cases h

/-- An event at a side, seen from there: what is written was the first of what was kept and on its
way. -/
theorem Link.Kept.after (h : l.Kept b) (hp : l.port b = some p)
    (hcall : ∀ conndata, .CONNECT conndata ∉ ms)
    (hlt : e.port.ltCLOSED = 0 → p.ltCLOSED = 0)
    (hst : e.port.stat = .CLOSE → e.port.ltCLOSED ≠ 0)
    (hhalt : e.port.ltCLOSED ≠ 0 → e.port.stat.closing = true ∧ e.port.lbuf = [])
    (hwrote : p.ltCLOSED ≠ 0 → e.written = [])
    (hbytes : e.port.ltCLOSED = 0 →
      p.lbuf ++ bytes (l.chan !b) = e.written ++ e.port.lbuf ++ bytes ms)
    (hpart : e.written <+: p.lbuf ++ bytes (l.chan !b)) : ((l.pop b ms).after b e).Kept b where
  written := by
    rw [after_put, after_got_not, pop_put, pop_got]
    by_cases h0 : p.ltCLOSED = 0
    · rw [h.exact hp h0, List.append_assoc]
      exact (List.prefix_append_right_inj _).mpr hpart
    · rw [hwrote h0, List.append_nil]
      exact h.written
  exact := by
    intro p' hp' h0
    rw [after_port] at hp'
    cases hp'
    rw [after_put, after_got_not, after_chan_not, pop_put, pop_got, pop_chan_not,
      h.exact hp (hlt h0), List.append_assoc, hbytes h0]
    simp only [List.append_assoc]
  ended := by
    intro p' hp' hst'
    rw [after_port] at hp'
    cases hp'
    exact hst hst'
  halted := by
    intro p' hp' hlt'
    rw [after_port] at hp'
    cases hp'
    exact hhalt hlt'
  called := by
    intro conndata hm
    rw [after_chan_not, pop_chan_not] at hm
    exact absurd hm (hcall conndata)

theorem pop_self (l : Link) (b : Bool) : l.pop b (l.chan !b) = l := by
  unfold Link.pop
  rw [Function.update_eq_self]

end

theorem kept_fresh (b : Bool) : Link.fresh.Kept b where
  written := List.prefix_refl _
  exact := fun hp => nomatch hp
  ended := fun hp => nomatch hp
  halted := fun hp => nomatch hp
  called := fun hm => absurd hm List.not_mem_nil

theorem inv_fresh : Link.fresh.Inv := ⟨.inl rfl, kept_fresh⟩

/-- To show it of both sides, it is shown of one and the other. -/
theorem forall_side {P : Bool → Prop} (b : Bool) (h : P b) (h' : P !b) : ∀ b', P b' := by
  intro b'
  rcases Bool.eq_or_eq_not b' b with rfl | rfl
  · exact h
  · exact h'

section
variable {l : Link} {b : Bool} {p : Port} {ms : List Body} {PackSize time w w1 w2 : Nat}
  {data conndata conndata' : List UInt8} {m : Body}

theorem kept_call (b : Bool) (conndata : List UInt8) (b' : Bool) :
    (Link.fresh.after b ⟨newPort .CONNECT, some (.CONNECT conndata), conndata, []⟩).Kept b' := by
  refine forall_side b ?_ ?_ b'
  · constructor
    · simp [Link.fresh]
    · intro p hp hlt
      rw [after_port] at hp
      cases hp
      simp [Link.fresh, newPort]
    · intro p hp hst
      rw [after_port] at hp
      cases hp
      cases hst
    · intro p hp hlt
      rw [after_port] at hp
      cases hp
      exact absurd rfl hlt
    · intro conndata hm
      simp [Link.fresh] at hm
  · constructor
    · simp [Link.fresh]
    · intro p hp
      rw [after_port_not] at hp
      cases hp
    · intro p hp
      rw [after_port_not] at hp
      cases hp
    · intro p hp
      rw [after_port_not] at hp
      cases hp
    · intro conndata' hm
      simp only [Link.fresh, Bool.not_not, after_chan, Option.toList, List.nil_append,
        List.mem_singleton, Body.CONNECT.injEq] at hm
      simp [Link.fresh, hm]

theorem Link.Inv.kept_accept (h : l.Inv) (hc : l.chan (!b) = .CONNECT conndata :: ms) (b' : Bool) :
    ((l.pop b ms).after b
      ⟨newPort .CONNECTED, some (.CONNECTED conndata'), conndata', conndata⟩).Kept b' := by
  have hs := h.shaped.shape (b := b) (.inr (by simp [hc]))
  obtain ⟨hp, hc', hd, q, hq, hwait⟩ := hs.call (by rw [hc]; exact List.mem_cons_self)
  cases hc.symm.trans hd
  obtain ⟨hput, hgot⟩ := (h.kept b).called (by rw [hc]; exact List.mem_cons_self)
  refine forall_side b ?_ ?_ b'
  · constructor
    · simp [hput, hgot]
    · intro p hp hlt
      rw [after_port] at hp
      cases hp
      simp [hput, hgot, newPort]
    · intro p hp hst
      rw [after_port] at hp
      cases hp
      cases hst
    · intro p hp hlt
      rw [after_port] at hp
      cases hp
      exact absurd rfl hlt
    · intro conndata hm
      simp at hm
  · apply (h.kept !b).pop_not.after_not
    · simp [Body.bytes]
    · intro conndata hm
      simp [hc'] at hm

theorem Link.Inv.kept_refuse (h : l.Inv) (hc : l.chan (!b) = .CONNECT conndata :: ms) (b' : Bool) :
    ((l.pop b ms).refuse b).Kept b' := by
  have hs := h.shaped.shape (b := b) (.inr (by simp [hc]))
  obtain ⟨hp, hc', hd, q, hq, hwait⟩ := hs.call (by rw [hc]; exact List.mem_cons_self)
  cases hc.symm.trans hd
  refine forall_side b ?_ ?_ b'
  · constructor
    · exact (h.kept b).written
    · intro p hp'
      exact absurd (hp'.symm.trans hp) (by simp)
    · exact (h.kept b).ended
    · exact (h.kept b).halted
    · intro conndata hm
      simp at hm
  · constructor
    · exact (h.kept !b).written
    · intro p hp' hlt
      have := (h.kept !b).exact hp' hlt
      rw [Bool.not_not] at this ⊢
      simpa [hc', Body.bytes] using this
    · exact (h.kept !b).ended
    · exact (h.kept !b).halted
    · intro conndata hm
      simp [hc'] at hm

theorem Link.Inv.not_called (h : l.Inv) (hp : l.port b = some p) :
    .CONNECT conndata ∉ l.chan !b := by
  intro hm
  have hs := h.shaped.shape (b := b) (.inl (by simp [hp]))
  rw [(hs.call hm).1] at hp
  cases hp

theorem Link.Inv.kept_relay1 (h : l.Inv) (hp : l.port b = some p) (hin : p.stat.input)
    (htime : time ≠ 0) (b' : Bool) : (l.after b (p.relay1 PackSize time data)).Kept b' := by
  obtain ⟨hbytes, -, hwrote⟩ := relay1_bytes p PackSize time data
  refine forall_side b ?_ ?_ b'
  · rw [← pop_self l b]
    by_cases hcl : p.stat.closing = true
    · rw [relay1_closing hcl]
      exact (h.kept b).after hp (fun _ => h.not_called hp) id ((h.kept b).ended hp)
        ((h.kept b).halted hp)
        (fun _ => rfl) (fun _ => rfl) List.nil_prefix
    · have hcl : p.stat.closing = false := by simpa using hcl
      by_cases hdata : data = []
      · rw [hdata, relay1_close hcl]
        exact (h.kept b).after hp (fun _ => h.not_called hp) (fun h0 => absurd h0 htime)
          (fun _ => htime) (fun _ => ⟨rfl, rfl⟩) (fun _ => rfl) (fun h0 => absurd h0 htime)
          List.nil_prefix
      · rw [relay1_send hcl hdata]
        refine (h.kept b).after hp (fun _ => h.not_called hp) id ?_ ?_ (fun _ => rfl)
          (fun _ => rfl) List.nil_prefix
        · intro hst
          dsimp only at hst
          split at hst <;> cases hst
        · intro hlt
          have := ((h.kept b).halted hp hlt).1
          rw [hcl] at this
          cases this
  · apply (h.kept !b).after_not hbytes
    intro conndata hm
    rcases List.mem_append.mp hm with hm | hm
    · have hs := (h.shaped.shape (b := b) (.inl (by simp [hp]))).swap
      obtain ⟨-, -, -, q, hq, hwait⟩ := hs.call hm
      cases hp.symm.trans hq
      rw [hwait.1] at hin
      cases hin
    · exact absurd hm ((relay1_bytes ..).2.1 _)

theorem Link.Inv.kept_flush (h : l.Inv) (hp : l.port b = some p) (b' : Bool) :
    (l.after b (p.flush w)).Kept b' := by
  obtain ⟨hread, hbytes, -⟩ := flush_bytes p w
  refine forall_side b ?_ ?_ b'
  · rw [← pop_self l b]
    rcases flush_cases p w with hf | ⟨written, rem, hne, hl, hf⟩
    · rw [hf]
      exact (h.kept b).after hp (fun _ => h.not_called hp) id ((h.kept b).ended hp)
        ((h.kept b).halted hp) (fun _ => rfl) (fun _ => rfl) List.nil_prefix
    · have hlt : ¬ p.ltCLOSED ≠ 0 := by
        intro hlt
        have := ((h.kept b).halted hp hlt).2
        rw [hl] at this
        exact hne (List.append_eq_nil_iff.mp this).1
      rw [hf]
      refine (h.kept b).after hp (fun _ => h.not_called hp) id ?_ (fun h0 => absurd h0 hlt)
        (fun h0 => absurd h0 hlt) (fun _ => ?_) ?_
      · intro hst
        dsimp only at hst
        split at hst <;> cases hst
      · rw [hl]
      · rw [hl, List.append_assoc]
        exact List.prefix_append _ _
  · apply (h.kept !b).after_not (hbytes.trans hread.symm)
    intro conndata hm
    rcases List.mem_append.mp hm with hm | hm
    · exact ⟨hm, hread⟩
    · exact absurd hm ((flush_bytes ..).2.2 _)

theorem Link.Inv.kept_commin (h : l.Inv) (hp : l.port b = some p) (hc : l.chan (!b) = m :: ms)
    (hm : ∀ conndata, m ≠ .CONNECT conndata)
    (hfull : ∀ conndata, m = .CONNECTED conndata → conndata.length ≤ w1) (b' : Bool) :
    ((l.pop b ms).after b (p.commin PackSize time w1 w2 m)).Kept b' := by
  obtain ⟨hread, hbytes, -⟩ := commin_bytes p PackSize time w1 w2 m
  have hk := h.kept b
  have hcall : ∀ conndata, .CONNECT conndata ∉ ms := by
    intro conndata hm
    exact h.not_called hp (by rw [hc]; exact List.mem_cons_of_mem _ hm)
  have hs := h.shaped.shape (b := b) (.inl (by simp [hp]))
  rw [hp, hc] at hs
  refine forall_side b ?_ ?_ b'
  · cases m with
    | CONNECT conndata => exact absurd rfl (hm conndata)
    | CONNECTED conndata =>
      have hwait := hs.connected
      rw [commin_CONNECTED hwait.1, List.take_of_length_le (hfull _ rfl)]
      refine hk.after hp hcall id (fun hst => by cases hst) ?_ ?_ (fun _ => ?_) ?_
      · intro hlt
        have := (hk.halted hp hlt).1
        rw [hwait.1] at this
        cases this
      · intro hlt
        have := (hk.halted hp hlt).1
        rw [hwait.1] at this
        cases this
      · simp [hwait.2, hc, Body.bytes]
      · simp [hwait.2, hc, Body.bytes]
    | SEND data =>
      by_cases hcl : p.stat.closing = true
      · rw [commin_ignored hcl (by simp) (by simp)]
        refine hk.after hp hcall id (hk.ended hp) (hk.halted hp) (fun _ => rfl) ?_ List.nil_prefix
        intro h0
        have hst : p.stat = .CLOSED := by
          cases hst : p.stat with
          | CLOSE => exact absurd h0 (hk.ended hp hst)
          | CLOSED => rfl
          | _ =>
            rw [hst] at hcl
            cases hcl
        obtain ⟨n, hn⟩ := (hs.remove hst).2.1.head
        cases hn
      · have hcl : p.stat.closing = false := by simpa using hcl
        have hlt : ¬ p.ltCLOSED ≠ 0 := by
          intro hlt
          rw [(hk.halted hp hlt).1] at hcl
          cases hcl
        obtain ⟨written, rem, happ, he⟩ := commin_SEND PackSize time w1 w2 data hcl
        rw [he]
        refine hk.after hp hcall id (fun hst => hk.ended (p := p) hp hst)
          (fun h0 => absurd h0 hlt) (fun h0 => absurd h0 hlt) (fun _ => ?_) ?_
        · rw [hc, bytes_cons, Body.bytes, happ, List.append_assoc]
        · rw [hc, bytes_cons, ← List.append_assoc, Body.bytes, ← happ, List.append_assoc]
          exact List.prefix_append _ _
    | SENT sent =>
      have hbuf : p.lbuf ++ bytes (l.chan !b) = [] ++ p.lbuf ++ bytes ms := by
        rw [hc]
        rfl
      by_cases hcl : p.stat.closing = true
      · rw [commin_ignored hcl (by simp) (by simp)]
        exact hk.after hp hcall id (hk.ended hp) (hk.halted hp) (fun _ => rfl) (fun _ => hbuf)
          List.nil_prefix
      · have hcl : p.stat.closing = false := by simpa using hcl
        rw [commin_SENT hcl]
        refine hk.after hp hcall id ?_ ?_ (fun _ => rfl) (fun _ => hbuf) List.nil_prefix
        · intro hst
          dsimp only at hst
          split at hst
          · cases hst
          · exact hk.ended (p := p) hp hst
        · intro hlt
          rw [(hk.halted hp hlt).1] at hcl
          cases hcl
    | CLOSE =>
      exact hk.after hp hcall id (fun hst => by cases hst) (fun hlt => ⟨rfl, (hk.halted hp hlt).2⟩)
        (fun _ => rfl) (fun _ => by rw [hc]; rfl) List.nil_prefix
    | CLOSED =>
      exact hk.after hp hcall id (fun hst => by cases hst) (fun hlt => ⟨rfl, (hk.halted hp hlt).2⟩)
        (fun _ => rfl) (fun _ => by rw [hc]; rfl) List.nil_prefix
  · apply (h.kept !b).pop_not.after_not (hbytes.trans hread.symm)
    intro conndata hm
    rcases List.mem_append.mp hm with hm | hm
    · exact ⟨hm, hread⟩
    · exact absurd hm ((commin_bytes ..).2.2 _)

theorem Link.Inv.kept_lost (h : l.Inv) (hp : l.port b = none) (hc : l.chan (!b) = m :: ms)
    (b' : Bool) : (l.pop b ms).Kept b' := by
  refine forall_side b ?_ (h.kept !b).pop_not b'
  constructor
  · exact (h.kept b).written
  · intro p hp'
    exact absurd (hp'.symm.trans hp) (by simp)
  · exact (h.kept b).ended
  · exact (h.kept b).halted
  · intro conndata hm
    rw [pop_chan_not] at hm
    exact (h.kept b).called (by rw [hc]; exact List.mem_cons_of_mem _ hm)

theorem Link.Inv.kept_remove (h : l.Inv) (hp : l.port b = some p) (b' : Bool) :
    (l.remove b).Kept b' := by
  refine forall_side b ?_ ?_ b'
  · constructor
    · exact (h.kept b).written
    · intro p' hp'
      rw [remove_port] at hp'
      cases hp'
    · intro p' hp'
      rw [remove_port] at hp'
      cases hp'
    · intro p' hp'
      rw [remove_port] at hp'
      cases hp'
    · intro conndata hm
      exact absurd hm (h.not_called hp)
  · constructor
    · exact (h.kept !b).written
    · intro p' hp'
      rw [remove_port_not] at hp'
      exact (h.kept !b).exact hp'
    · intro p' hp'
      rw [remove_port_not] at hp'
      exact (h.kept !b).ended hp'
    · intro p' hp'
      rw [remove_port_not] at hp'
      exact (h.kept !b).halted hp'
    · exact (h.kept !b).called

end

theorem Link.Step.kept {calm : Prop} {l l' : Link} (hstep : Link.Step calm l l') (h : l.Inv) :
    ∀ b, l'.Kept b := by
  cases hstep with
  | call b conndata => exact kept_call b conndata
  | accept conndata' hc => exact h.kept_accept hc
  | refuse hc => exact h.kept_refuse hc
  | relay1 time hp hin hsize hlen htime => exact h.kept_relay1 hp hin htime
  | flush w hp hcalm => exact h.kept_flush hp
  | commin time w2 hp hc hm hfull hsize => exact h.kept_commin hp hc hm hfull
  | lost hp hc hm hm' => exact h.kept_lost hp hc
  | remove hp hst => exact h.kept_remove hp

theorem Link.Step.inv {calm : Prop} {l l' : Link} (hstep : Link.Step calm l l') (h : l.Inv) :
    l'.Inv := ⟨hstep.shaped h.shaped, hstep.kept h⟩

end delegate.sox
