-- What the elements of a host list leave to the elements after them. The
-- loop variables `hosti`, `portnum` and `username` are set once, before
-- the loop, and an element for the client side (`-P`) or for the RIDENT
-- peer (`-R/`) puts another host into them.
import Delegate.HostElement
import Delegate.HostFormula

open ctext gates delegate.vaddr

namespace delegate.hostlist

variable (W : World)

/-! ## Loop variables that look the same -/

/-- Two hosts that no element can tell apart under the names of the frame. -/
structure SameHost (F : Frame) (v v' : VAddr) : Prop where
  ints : v.a_ints = v'.a_ints
  unresolvable : ∀ e, notResolvable W v (F.hostname e) = notResolvable W v' (F.hostname e)

/-- One RIDENT peer, resolved or not yet. -/
structure SamePeer (r r' : VAddr) : Prop where
  remote : r.has VA_REMOTE = r'.has VA_REMOTE
  resolves : resolved W r = resolved W r'

/-- A missing user name is the user `?`. -/
def SameUser (u u' : Option Text) : Prop := u.getD ['?'] = u'.getD ['?']

structure Like (F : Frame) (c c' : Carry) : Prop where
  host : SameHost W F c.hosti c'.hosti
  port : c.portnum = c'.portnum
  user : SameUser c.username c'.username
  exp : c.exp = c'.exp
  peer : SamePeer W c.rident c'.rident

variable {F : Frame} {r : VAddr} {c c' : Carry} {e : Host} {pre : List Host}

theorem SameHost.rfl {v : VAddr} : SameHost W F v v := ⟨by rfl, fun _ => by rfl⟩

theorem SamePeer.rfl : SamePeer W r r := ⟨by rfl, by rfl⟩

theorem Like.rfl : Like W F c c :=
  ⟨SameHost.rfl W, by rfl, by rfl, by rfl, SamePeer.rfl W⟩

variable {W}

theorem SameHost.symm {v v' : VAddr} (h : SameHost W F v v') : SameHost W F v' v :=
  ⟨h.ints.symm, fun e => (h.unresolvable e).symm⟩

theorem SamePeer.symm {r' : VAddr} (h : SamePeer W r r') : SamePeer W r' r :=
  ⟨h.remote.symm, h.resolves.symm⟩

theorem SamePeer.trans {r' r'' : VAddr} (h : SamePeer W r r') (h' : SamePeer W r' r'') :
    SamePeer W r r'' :=
  ⟨h.remote.trans h'.remote, h.resolves.trans h'.resolves⟩

theorem Like.trans {c'' : Carry} (h : Like W F c c') (h' : Like W F c' c'') : Like W F c c'' where
  host := ⟨h.host.ints.trans h'.host.ints,
    fun e => (h.host.unresolvable e).trans (h'.host.unresolvable e)⟩
  port := h.port.trans h'.port
  user := Eq.trans h.user h'.user
  exp := h.exp.trans h'.exp
  peer := h.peer.trans h'.peer

theorem rslved_of_rslvinv : ∀ x : BitVec 8,
    ((x ||| VA_RSLVINVOK) &&& VA_RSLVED != 0) = true ∧
    ((x ||| VA_RSLVINVERR) &&& VA_RSLVED != 0) = true := by decide

theorem remote_of_rslvinv : ∀ x : BitVec 8,
    ((x ||| VA_RSLVINVOK) &&& VA_REMOTE != 0) = (x &&& VA_REMOTE != 0) ∧
    ((x ||| VA_RSLVINVERR) &&& VA_REMOTE != 0) = (x &&& VA_REMOTE != 0) := by decide

/-- A resolved peer is not resolved again, and stays remote or not. -/
theorem samePeer_resolved (r : VAddr) : SamePeer W (resolved W r) r := by
  by_cases hr : r.has VA_RSLVED = true
  · have hsame : resolved W r = r := by simp [resolved, hr]
    rw [hsame]
    exact SamePeer.rfl W
  · have hres : resolved W r = VA_resolv W r := by simp [resolved, hr]
    rw [hres]
    constructor
    · unfold VA_resolv VAddr.has
      split
      · exact (remote_of_rslvinv _).1
      · exact (remote_of_rslvinv _).2
    · have hagain : (VA_resolv W r).has VA_RSLVED = true := by
        unfold VA_resolv VAddr.has
        split
        · exact (rslved_of_rslvinv _).1
        · exact (rslved_of_rslvinv _).2
      rw [hres]
      simp [resolved, hagain]

theorem SameUser.ignauth {u u' : Option Text} (h : SameUser u u') :
    (u == some ['*']) = (u' == some ['*']) := by
  have hstar : ∀ u : Option Text, (u == some ['*']) = (u.getD ['?'] == ['*']) := by
    intro u
    cases u <;> rfl
  rw [hstar, hstar, h]

/-! ## One element cannot tell them apart -/

/-- The calls for named lists cannot tell them apart, and leave the peer as
it was. -/
structure Steady (f : Nested) : Prop where
  same : ∀ id u u' r r', SameUser u u' → SamePeer W r r' → (f id u r).1 = (f id u' r').1
  leaves : ∀ id u r, SamePeer W (f id u r).2 r

/-- The same outcome, and loop variables that look the same. -/
def LikeOut (F : Frame) (p p' : Outcome × Carry) : Prop := p.1 = p'.1 ∧ Like W F p.2 p'.2

theorem rel_ite {α : Type} {R : α → α → Prop} {p : Prop} [Decidable p] {a a' b b' : α}
    (h : R a a') (h' : R b b') : R (if p then a else b) (if p then a' else b') := by
  split
  · exact h
  · exact h'

theorem userport_like {q : Query} {port : BitVec 16} {u u' : Option Text} {m : Bool}
    (h : SameUser u u') : userport W q e port u m = userport W q e port u' m := by
  unfold userport
  rw [h]

theorem evalNamed_like (e : Host) (m : Bool) (h : Like W F c c') :
    LikeOut (W := W) F (evalNamed W F c e m) (evalNamed W F c' e m) := by
  have hused : SameUser (usedName F.q e c.portnum c.username m)
      (usedName F.q e c'.portnum c'.username m) := by
    unfold usedName
    rw [h.port]
    refine rel_ite (R := SameUser) ?_ h.user
    simpa [SameUser] using h.user
  refine ⟨?_, h.host, h.port, hused, h.exp, h.peer⟩
  simp only [evalNamed, exitByhost]
  rw [hused.ignauth, userport_like h.user, h.port]

theorem evalEarly_like (e : Host) (hF : ∀ f ∈ F.nested, Steady (W := W) f) (h : Like W F c c') :
    Option.Rel (LikeOut (W := W) F) (evalEarly W F c e) (evalEarly W F c' e) := by
  unfold evalEarly
  refine rel_ite ?_ (rel_ite ?_ (rel_ite ?_ (rel_ite ?_ (rel_ite ?_ (rel_ite ?_ (rel_ite ?_
    (rel_ite ?_ Option.Rel.none)))))))
  · exact .some ⟨rfl, h.host, h.port, h.user, rfl, h.peer⟩
  · exact .some ⟨rfl, h⟩
  · exact .some ⟨rfl, h⟩
  · cases hn : F.nested with
    | none => exact .some ⟨rfl, h⟩
    | some f =>
      have hf := hF f hn
      have hpeer := ((hf.leaves e.h_listid c.username c.rident).trans h.peer).trans
        (SamePeer.symm (hf.leaves e.h_listid c'.username c'.rident))
      have hm := hf.same e.h_listid _ _ _ _ h.user h.peer
      simp only [hm]
      exact .some (evalNamed_like e _ ⟨h.host, h.port, h.user, h.exp, hpeer⟩)
  · exact .some ⟨rfl, h⟩
  · exact .some ⟨rfl, h⟩
  · exact .some ⟨rfl, h⟩
  · rw [h.host.ints]
    exact .some ⟨rfl, h⟩

theorem sidesOf_like (cl : ClientInfo) (e : Host) (h : Like W F c c') :
    sidesOf W cl c e = sidesOf W cl c' e := by
  unfold sidesOf
  rw [h.host.ints, h.peer.remote, h.peer.resolves]

theorem place_like (e : Host) (p : Option VAddr) (h : Like W F c c') :
    Like W F (c.place e p) (c'.place e p) := by
  cases p with
  | none => exact h
  | some v => exact ⟨SameHost.rfl W, rfl, h.user, h.exp, rel_ite h.peer (SamePeer.rfl W)⟩

theorem matchByHost_like {nm : Names} {v v' : VAddr} {name : Text} {isAlias : Bool}
    {ahost chost : Addr} (hints : v.a_ints = v'.a_ints)
    (hn : notResolvable W v name = notResolvable W v' name) :
    matchByHost W nm e v name isAlias ahost chost =
      matchByHost W nm e v' name isAlias ahost chost := by
  unfold matchByHost
  rw [hints, hn]

theorem evalSides_like (e : Host) (s : Sides) (h : Like W F c c') :
    LikeOut (W := W) F (evalSides W F (c.place e s.peer) e s)
      (evalSides W F (c'.place e s.peer) e s) := by
  have hp := place_like e s.peer h
  have hmatch : ∀ ahost, matchByHost W F.nm e (c.place e s.peer).hosti
      (s.peer.elim (F.hostname e) (·.a_name)) (F.isAlias e && s.peer.isNone) ahost s.chost =
      matchByHost W F.nm e (c'.place e s.peer).hosti
      (s.peer.elim (F.hostname e) (·.a_name)) (F.isAlias e && s.peer.isNone) ahost s.chost := by
    intro ahost
    cases hs : s.peer with
    | none => exact matchByHost_like h.host.ints (h.host.unresolvable e)
    | some v => rfl
  unfold evalSides
  simp only [hmatch, hp.host.ints, hp.exp]
  refine rel_ite ⟨rfl, hp⟩ (rel_ite ⟨rfl, hp⟩ (rel_ite ⟨?_, hp⟩ (evalNamed_like e _ hp)))
  simp only [exitByhost, hp.user.ignauth]

/-- One element says the same, and leaves loop variables that look the
same. -/
theorem evalHost_like (e : Host) (hF : ∀ f ∈ F.nested, Steady (W := W) f) (h : Like W F c c') :
    LikeOut (W := W) F (evalHost W F c e) (evalHost W F c' e) := by
  have hearly := evalEarly_like e hF h
  unfold evalHost
  rw [sidesOf_like F.cl e h]
  generalize evalEarly W F c e = x at hearly
  generalize evalEarly W F c' e = x' at hearly
  cases hearly with
  | some hr => exact hr
  | none =>
    simp only
    split
    · exact ⟨rfl, h⟩
    · exact evalSides_like e _ h

/-! ## What one element leaves -/

/-- The host that an element puts in the place of the host asked for. -/
def taken (W : World) (F : Frame) (c : Carry) (e : Host) : Option VAddr :=
  match evalEarly W F c e with
  | some _ => none
  | none => (sidesOf W F.cl c e).bind Sides.peer

/-- The loop variables with the host `p`, if any, and an expiration time. -/
def Carry.held (c : Carry) (p : Option VAddr) (exp : Int) : Carry :=
  { c with hosti := p.getD c.hosti, portnum := p.elim c.portnum (·.a_port), exp := exp }

theorem held_held (c : Carry) (p p' : Option VAddr) (x x' : Int) :
    (c.held p x).held p' x' = c.held (p'.or p) x' := by
  cases p' <;> rfl

theorem held_like (p : Option VAddr) (x : Int) (h : Like W F c c') :
    Like W F (c.held p x) (c'.held p x) := by
  cases p with
  | none => exact ⟨h.host, h.port, h.user, rfl, h.peer⟩
  | some v => exact ⟨SameHost.rfl W, rfl, h.user, rfl, h.peer⟩

theorem evalNamed_leaves (F : Frame) (c : Carry) (e : Host) (m : Bool) :
    Like W F (evalNamed W F c e m).2 c ∧ (evalNamed W F c e m).2.exp = c.exp := by
  refine ⟨⟨SameHost.rfl W, rfl, ?_, rfl, SamePeer.rfl W⟩, rfl⟩
  simp only [evalNamed, usedName]
  split
  · rfl
  · rfl

theorem evalEarly_leaves {r : Outcome × Carry} (hF : ∀ f ∈ F.nested, Steady (W := W) f)
    (h : evalEarly W F c e = some r) : Like W F r.2 (c.held none r.2.exp) := by
  unfold evalEarly at h
  repeat' split at h
  case h_2 f hf =>
    cases h
    have hpeer := (hF f hf).leaves e.h_listid c.username c.rident
    refine (evalNamed_leaves F _ e _).1.trans ?_
    exact ⟨SameHost.rfl W, rfl, rfl, rfl, hpeer⟩
  all_goals cases h
  all_goals exact Like.rfl W

theorem sidesOf_peer {cl : ClientInfo} {s : Sides} {v : VAddr} (h : sidesOf W cl c e = some s)
    (hv : s.peer = some v) :
    (e.is HT_CLIF = true ∧ v = cl.clientSockHost) ∨
      (e.is HT_CLIF = false ∧ v = resolved W c.rident) := by
  unfold sidesOf at h
  by_cases hclif : e.is HT_CLIF = true
  · refine .inl ⟨hclif, ?_⟩
    simp only [hclif, if_true] at h
    repeat' split at h
    all_goals cases h
    all_goals cases hv
    all_goals rfl
  · refine .inr ⟨by simpa using hclif, ?_⟩
    simp only [hclif, Bool.false_eq_true, if_false] at h
    repeat' split at h
    all_goals cases h
    all_goals cases hv
    rfl

theorem place_leaves {cl : ClientInfo} {s : Sides} (h : sidesOf W cl c e = some s) :
    Like W F (c.place e s.peer) (c.held s.peer c.exp) := by
  cases hs : s.peer with
  | none => exact Like.rfl W
  | some v =>
    refine ⟨SameHost.rfl W, rfl, rfl, rfl, ?_⟩
    rcases sidesOf_peer h hs with ⟨hclif, -⟩ | ⟨hclif, rfl⟩
    · simp only [Carry.place, hclif, if_true]
      exact SamePeer.rfl W
    · simp only [Carry.place, hclif, Bool.false_eq_true, if_false]
      exact samePeer_resolved c.rident

theorem evalSides_leaves (F : Frame) (c : Carry) (e : Host) (s : Sides) :
    Like W F (evalSides W F c e s).2 c ∧ (evalSides W F c e s).2.exp = c.exp := by
  unfold evalSides
  simp only
  repeat' split
  all_goals first | exact ⟨Like.rfl W, rfl⟩ | exact evalNamed_leaves F c e _

theorem place_exp (c : Carry) (e : Host) (p : Option VAddr) : (c.place e p).exp = c.exp := by
  cases p <;> rfl

/-- An element leaves the loop variables as they were, but for the host
that it puts into them and the expiration time. -/
theorem evalHost_leaves (c : Carry) (e : Host) (hF : ∀ f ∈ F.nested, Steady (W := W) f) :
    Like W F (evalHost W F c e).2 (c.held (taken W F c e) (evalHost W F c e).2.exp) := by
  unfold evalHost taken
  cases hearly : evalEarly W F c e with
  | some r => exact evalEarly_leaves hF hearly
  | none =>
    cases hs : sidesOf W F.cl c e with
    | none => exact Like.rfl W
    | some s =>
      obtain ⟨hl, hx⟩ := evalSides_leaves (W := W) F (c.place e s.peer) e s
      simp only [Option.bind_some, hx, place_exp]
      exact hl.trans (place_leaves hs)

/-! ## The walk cannot tell them apart -/

/-- Two walks at one place, with loop variables that look the same. -/
structure LikeWalk (F : Frame) (w w' : Walk) : Prop where
  hi : w.hi = w'.hi
  ctl : w.ctl = w'.ctl
  isin : w.isin = w'.isin
  carry : Like W F w.carry w'.carry

theorem step_like {w w' : Walk} (e : Host) (hF : ∀ f ∈ F.nested, Steady (W := W) f)
    (h : LikeWalk (W := W) F w w') :
    LikeWalk (W := W) F (step F.nm (evalHost W F) w e) (step F.nm (evalHost W F) w' e) := by
  obtain ⟨hi, ctl, isin, carry⟩ := w
  obtain ⟨hi', ctl', isin', carry'⟩ := w'
  obtain ⟨rfl, rfl, rfl, hc⟩ := h
  have hout := evalHost_like e hF hc
  unfold step
  simp only at hc ⊢
  rcases hr : evalHost W F carry e with ⟨o, c⟩
  rcases hr' : evalHost W F carry' e with ⟨o', c'⟩
  rw [hr, hr'] at hout
  obtain ⟨rfl, hc'⟩ := hout
  -- every branch but the body of the loop keeps the loop variables
  cases ctl with
  | stop => exact ⟨rfl, rfl, rfl, hc⟩
  | skip => exact ⟨rfl, rfl, rfl, hc⟩
  | scan =>
    cases o <;> cases e.h_op <;> simp only <;> (try split) <;>
      first | exact ⟨rfl, rfl, rfl, hc⟩ | exact ⟨rfl, rfl, rfl, hc'⟩

theorem walk_like (es : List Host) (hF : ∀ f ∈ F.nested, Steady (W := W) f) (h : Like W F c c') :
    LikeWalk (W := W) F (walk W F c es) (walk W F c' es) := by
  induction es using List.reverseRecOn with
  | nil => exact ⟨rfl, rfl, rfl, h⟩
  | append_singleton es e ih =>
    rw [walk_snoc, walk_snoc]
    exact step_like e hF ih

instance (F : Frame) (c : Carry) (pre : List Host) (e : Host) : Decidable (Judged W F c pre e) :=
  inferInstanceAs (Decidable (_ ∧ _ ∧ _))

theorem walk_carry_of_judged (h : Judged W F c pre e) :
    (walk W F c (pre ++ [e])).carry = (evalHost W F (walk W F c pre).carry e).2 := by
  rw [walk_snoc, step_of_judged h.1 h.2.1 h.2.2]
  rcases evalHost W F (walk W F c pre).carry e with ⟨o, c'⟩
  cases o <;> rfl

/-- The loop variables change only where the body of the loop runs. -/
theorem walk_carry_of_not_judged (h : ¬ Judged W F c pre e) :
    (walk W F c (pre ++ [e])).carry = (walk W F c pre).carry := by
  unfold Judged at h
  rw [walk_snoc]
  generalize walk W F c pre = w at h ⊢
  cases hc : w.ctl with
  | stop => simp [step, hc]
  | skip => simp [step, hc]
  | scan =>
    by_cases ho : e.h_op.isOperator = true
    · unfold step
      cases hop : e.h_op <;> cases hisin : w.isin <;> simp_all [Op.isOperator]
    · rw [Bool.not_eq_true] at ho
      have hi : idle F.nm w.isin e = true := by
        by_contra hi
        exact h ⟨hc, ho, by simpa using hi⟩
      rw [step_of_idle hc ho hi]

/-- The host that the last element to do so put in the place of the host
asked for. -/
def lastPeer (W : World) (F : Frame) (c : Carry) (pre : List Host) : Option VAddr :=
  (pre.foldl (fun (s : List Host × Option VAddr) e =>
    (s.1 ++ [e],
      if Judged W F c s.1 e then (taken W F (walk W F c s.1).carry e).or s.2 else s.2))
    ([], none)).2

theorem lastPeer_snoc (F : Frame) (c : Carry) (pre : List Host) (e : Host) :
    lastPeer W F c (pre ++ [e]) =
      if Judged W F c pre e then (taken W F (walk W F c pre).carry e).or (lastPeer W F c pre)
      else lastPeer W F c pre := by
  have hfst : ∀ (pre done : List Host) (o : Option VAddr),
      (pre.foldl (fun (s : List Host × Option VAddr) e =>
        (s.1 ++ [e],
          if Judged W F c s.1 e then (taken W F (walk W F c s.1).carry e).or s.2 else s.2))
        (done, o)).1 = done ++ pre := by
    intro pre
    induction pre with
    | nil => simp
    | cons e pre ih =>
      intro done o
      rw [List.foldl_cons, ih]
      simp
  unfold lastPeer
  rw [List.foldl_append, List.foldl_cons, List.foldl_nil]
  simp only [hfst, List.nil_append]

/-- After any elements the loop variables are those of the start, but for
the last host put into them and the expiration time. -/
theorem walk_leaves (c : Carry) (pre : List Host) (hF : ∀ f ∈ F.nested, Steady (W := W) f) :
    Like W F (walk W F c pre).carry (c.held (lastPeer W F c pre) (walk W F c pre).carry.exp) := by
  induction pre using List.reverseRecOn with
  | nil => exact Like.rfl W
  | append_singleton pre e ih =>
    rw [lastPeer_snoc]
    by_cases hj : Judged W F c pre e
    · rw [if_pos hj, walk_carry_of_judged hj, ← held_held]
      exact (evalHost_leaves _ e hF).trans (held_like _ _ ih)
    · rw [if_neg hj, walk_carry_of_not_judged hj]
      exact ih

/-! ## The calls for named lists -/

/-- The user and the RIDENT peer of a query are read from the loop
variables only. -/
theorem walk_frameIn (tab : Nat → HostList) (left : Nat) (hl : HostList) (cl : ClientInfo)
    (q : Query) (u : Option Text) (r : VAddr) (c : Carry) :
    walk W (frameAt W tab left hl { cl with ridentPeer := r } { q with username := u }) c
        hl.hl_List =
      walk W (frameAt W tab left hl cl q) c hl.hl_List := by
  cases left <;> rfl

/-- The loop variables before the first element, for another user and
another state of the peer. -/
theorem carryIn_like (hl : HostList) (cl : ClientInfo) (q : Query) {u u' : Option Text} {r' : VAddr}
    (hu : SameUser u u') (hr : SamePeer W r r') :
    Like W F (carryIn hl { cl with ridentPeer := r } { q with username := u })
      (carryIn hl { cl with ridentPeer := r' } { q with username := u' }) :=
  ⟨SameHost.rfl W, rfl, hu, rfl, hr⟩

/-- A call cannot tell them apart when the calls inside it cannot. -/
theorem hostIsinListX_like {tab : Nat → HostList} {left : Nat} {cl : ClientInfo} {q : Query}
    (hS : ∀ f ∈ nestedAt W tab left cl q, Steady (W := W) f) (hl : HostList) {u u' : Option Text}
    {r' : VAddr} (hu : SameUser u u') (hr : SamePeer W r r') :
    (VA_hostIsinListX W tab left hl { cl with ridentPeer := r } { q with username := u }).1 =
      (VA_hostIsinListX W tab left hl { cl with ridentPeer := r' } { q with username := u' }).1 := by
  rw [VA_hostIsinListX_eq, VA_hostIsinListX_eq]
  simp only
  split
  · rfl
  · have h := walk_like (F := frameAt W tab left hl cl q) hl.hl_List hS
      (carryIn_like hl cl q hu hr)
    rw [walk_frameIn tab left hl cl q u r, walk_frameIn tab left hl cl q u' r']
    simp only [Walk.result, h.hi, h.isin]

/-- A call leaves the RIDENT peer as it was, or resolved. -/
theorem hostIsinListX_leaves {tab : Nat → HostList} {left : Nat} {cl : ClientInfo} {q : Query}
    (hS : ∀ f ∈ nestedAt W tab left cl q, Steady (W := W) f) (hl : HostList)
    (u : Option Text) (r : VAddr) :
    SamePeer W
      (VA_hostIsinListX W tab left hl { cl with ridentPeer := r } { q with username := u }).2 r := by
  rw [VA_hostIsinListX_eq]
  simp only
  split
  · exact SamePeer.rfl W
  · rw [walk_frameIn]
    exact (walk_leaves (F := frameAt W tab left hl cl q) _ hl.hl_List hS).peer

theorem steady_nestedAt (tab : Nat → HostList) (left : Nat) (cl : ClientInfo) (q : Query) :
    ∀ f ∈ nestedAt W tab left cl q, Steady (W := W) f := by
  induction left with
  | zero => intro f hf; cases hf
  | succ left ih =>
    intro f hf
    cases hf
    constructor
    · intro id u u' r r' hu hr
      simp only [hostIsinListX_like ih (tab id) hu hr]
    · intro id u r
      exact hostIsinListX_leaves ih (tab id) u r

/-! ## The verdict of an element after others -/

/-- Every element says after `pre` what it says alone. An `--expire` in
`pre` stays in force. -/
def Independent (W : World) (F : Frame) (c : Carry) (pre : List Host) : Prop :=
  ∀ e, Judged W F c pre e →
    outcomeAfter W F c pre e = (evalHost W F { c with exp := (walk W F c pre).carry.exp } e).1

/-- The last host that `pre` put in the place of the host asked for, if
any, cannot be told from it. -/
def Harmless (W : World) (F : Frame) (c : Carry) (pre : List Host) : Prop :=
  (walk W F c pre).ctl = .scan →
    ∀ v, lastPeer W F c pre = some v → SameHost W F v c.hosti ∧ v.a_port = c.portnum

theorem independent_of_harmless (hF : ∀ f ∈ F.nested, Steady (W := W) f) (h : Harmless W F c pre) :
    Independent W F c pre := by
  intro e hj
  have hleft := walk_leaves c pre hF
  refine (evalHost_like e hF (hleft.trans ?_)).1
  cases hp : lastPeer W F c pre with
  | none => exact Like.rfl W
  | some v =>
    obtain ⟨hhost, hport⟩ := h hj.1 v hp
    exact ⟨hhost, hport, rfl, rfl, SamePeer.rfl W⟩

/-! ## Elements that tell hosts apart -/

/-- An element that the walk will look at, whatever the result so far. -/
def looked (F : Frame) (isin : Bool) (e : Host) : Host :=
  { e with h_op := if isin then .OFF_EQ else .ON_EQ, h_vdomain := F.nm.vdom }

theorem judged_looked (e : Host) (h : (walk W F c pre).ctl = .scan) :
    Judged W F c pre (looked F (walk W F c pre).isin e) := by
  refine ⟨h, ?_, ?_⟩
  · unfold looked
    cases (walk W F c pre).isin <;> rfl
  · unfold looked idle
    cases (walk W F c pre).isin <;> simp

/-- A name longer than every name of length `n`. -/
def longName (n : Nat) : Text := List.replicate (n + 1) 'x'

/-- The element for one address. -/
def addrProbe (n : Nat) (a : Addr) : Host :=
  { h_name := longName n, h_mask := AddrNull, h_Addr := a, h_type := HT_BYHOST }

/-- The element for every host at some ports. -/
def portProbe (ports : List Text) : Host :=
  { h_name := ['*'], h_port := some ports, h_type := HT_BYHOST }

/-- The element for hosts that are not resolvable. -/
def unknownProbe (asis : Bool) : Host :=
  { h_asis := asis, h_name := ['x'], h_type := HT_BYHOST ||| HT_UNKNOWN }

theorem plainName_longName (n : Nat) : PlainName (longName n) := by
  rw [longName, List.replicate_succ]
  refine plainName_of_ends (by decide) ?_
  rw [← List.replicate_succ, List.getLast?_replicate]
  simp

/-- After a `*` at the end of the pattern the mark runs to the end. -/
theorem rexpLoop_star {ic : Bool} (n : Nat) (sp : Text) (h : sp.length < n) :
    rexpLoop ic n [] sp (some ([], sp)) = true := by
  induction n generalizing sp with
  | zero => exact absurd h (Nat.not_lt_zero _)
  | succ n ih =>
    rcases sp with _ | ⟨c, s⟩
    · rfl
    · exact ih s (by simpa using h)

theorem rexpmatch_star (s : Text) : rexpmatch ['*'] s = true := by
  obtain ⟨k, hk⟩ : ∃ k, rexpTurns ['*'] s = k + 2 + s.length := by
    refine ⟨(s.length + 1) * (s.length + 3) - (2 + s.length), ?_⟩
    have hle : 1 * (s.length + 3) ≤ (s.length + 1) * (s.length + 3) :=
      Nat.mul_le_mul_right _ (by omega)
    have heq : rexpTurns ['*'] s = (s.length + 1) * (s.length + 3) := by
      simp only [rexpTurns, List.length_cons, List.length_nil]
      congr 1
      omega
    omega
  unfold rexpmatch rexpmatchX
  rw [hk, Nat.add_right_comm]
  rcases s with _ | ⟨c, s⟩
  · rfl
  · exact rexpLoop_star _ _ (by simp only [List.length_cons]; omega)

theorem compared_addrProbe {n : Nat} {a : Addr} (v : VAddr) (isin : Bool)
    (hn : F.nm.cname.length ≤ n) (hal : ∀ t ∈ F.nm.aliasName, t.length ≤ n) (ha : a ≠ AddrZero) :
    compared W F v (looked F isin (addrProbe n a)) = decide (v.a_ints = a) := by
  have hlen : (looked F isin (addrProbe n a)).h_name.length = n + 1 := by
    simp [looked, addrProbe, longName]
  have htext : NoTextMatch F (looked F isin (addrProbe n a)) := by
    refine noTextMatch_of_longer ?_ (by omega) (fun t ht => by have := hal t ht; omega)
    simp [looked, addrProbe, longName, List.mem_replicate]
  have hknown : (looked F isin (addrProbe n a)).is HT_UNKNOWN = false := by
    show (HT_BYHOST &&& HT_UNKNOWN != 0) = false
    decide
  rw [compared_of_noTextMatch W v (plainName_longName n) hknown htext]
  simp only [looked, addrProbe, AddrAND_null, null_AddrAND]
  by_cases hv : v.a_ints = AddrZero
  · simp [hv, ha.symm]
  · simp [hv, ha]

theorem compared_portProbe {ports : List Text} (v : VAddr) (isin : Bool) :
    compared W F v (looked F isin (portProbe ports)) = true := by
  have hknown : (looked F isin (portProbe ports)).is HT_UNKNOWN = false := by
    show (HT_BYHOST &&& HT_UNKNOWN != 0) = false
    decide
  have hzero : AddrAND (looked F isin (portProbe ports)).h_mask
      (looked F isin (portProbe ports)).h_Addr = AddrZero := AddrAND_zero _
  have hrange : ((looked F isin (portProbe ports)).ranges 0).h_high = 0 := rfl
  have hname : ∀ s b, matchName F.nm (looked F isin (portProbe ports)) s b = true := by
    intro s b
    simp [matchName, looked, portProbe, rexpmatch_star]
  unfold compared matchByHost
  rw [hzero, hrange, hname, hknown]
  simp [looked, portProbe, CantResolve]

theorem compared_unknownProbe {asis : Bool} (v : VAddr) (isin : Bool) :
    compared W F v (looked F isin (unknownProbe asis)) =
      notResolvable W v (F.hostname (unknownProbe asis)) := by
  have hunknown : (looked F isin (unknownProbe asis)).is HT_UNKNOWN = true := by
    show ((HT_BYHOST ||| HT_UNKNOWN) &&& HT_UNKNOWN != 0) = true
    decide
  unfold compared matchByHost
  rw [hunknown, Bool.or_true, if_pos rfl]
  rfl

/-- What a probe says after `pre` it says alone too. -/
theorem probe_says (e : Host) (hag : F.byagent = false) (hau : F.byauth = false)
    (hc : (walk W F c pre).ctl = .scan) (h : Independent W F c pre) (he : HostOnly e) :
    (compared W F (walk W F c pre).carry.hosti (looked F (walk W F c pre).isin e) &&
        e.h_port.all (fun l => (walk W F c pre).carry.portnum = 0 ||
          matchPort l (walk W F c pre).carry.portnum)) =
      (compared W F c.hosti (looked F (walk W F c pre).isin e) &&
        e.h_port.all (fun l => c.portnum = 0 || matchPort l c.portnum)) := by
  have hlooked : HostOnly (looked F (walk W F c pre).isin e) :=
    ⟨he.name, he.listid, he.type, he.proto, he.user⟩
  have hsame := h _ (judged_looked e hc)
  unfold outcomeAfter at hsame
  rw [evalHost_of_hostOnly W _ hag hau hlooked, evalHost_of_hostOnly W _ hag hau hlooked] at hsame
  exact Outcome.verdict.inj hsame

theorem ints_of_independent (hag : F.byagent = false) (hau : F.byauth = false)
    (hc : (walk W F c pre).ctl = .scan) (h : Independent W F c pre) :
    (walk W F c pre).carry.hosti.a_ints = c.hosti.a_ints := by
  by_contra hne
  -- one of the two addresses is not the zero address, and its probe tells them apart
  have hprobe : ∀ a, a ≠ AddrZero →
      decide ((walk W F c pre).carry.hosti.a_ints = a) = decide (c.hosti.a_ints = a) := by
    intro a ha
    let n := F.nm.cname.length + (F.nm.aliasName.getD []).length
    have hsays := probe_says (addrProbe n a) hag hau hc h
      ⟨plainName_longName n, rfl, hostOnlyType_byhost, rfl, rfl⟩
    have hal : ∀ t ∈ F.nm.aliasName, t.length ≤ n := by
      intro t ht
      simp only [n, Option.mem_def.mp ht, Option.getD_some]
      omega
    rw [compared_addrProbe _ _ (Nat.le_add_right _ _) hal ha,
      compared_addrProbe _ _ (Nat.le_add_right _ _) hal ha] at hsays
    simpa [addrProbe] using hsays
  by_cases hz : (walk W F c pre).carry.hosti.a_ints = AddrZero
  · have hcz : c.hosti.a_ints ≠ AddrZero := fun h0 => hne (hz.trans h0.symm)
    have hsame := hprobe _ hcz
    simp [hne] at hsame
  · have hsame := hprobe _ hz
    simp [Ne.symm hne] at hsame

theorem unresolvable_of_independent (hag : F.byagent = false) (hau : F.byauth = false)
    (hc : (walk W F c pre).ctl = .scan) (h : Independent W F c pre) (e : Host) :
    notResolvable W (walk W F c pre).carry.hosti (F.hostname e) =
      notResolvable W c.hosti (F.hostname e) := by
  have hsays := probe_says (unknownProbe e.h_asis) hag hau hc h
    ⟨plainName_of_ends (by decide) (by decide), rfl, hostOnlyType_unknown, rfl, rfl⟩
  rw [compared_unknownProbe, compared_unknownProbe] at hsays
  simpa [unknownProbe, Frame.hostname, Frame.isAlias] using hsays

theorem matchPort_nil (p : BitVec 16) : matchPort [] p = false := rfl

/-- A port list of one number. -/
theorem matchPort_dec {n : Nat} (h : n < 2 ^ 16) (p : BitVec 16) :
    matchPort [dec n] p = decide (n = p.toNat) := by
  have hbang : '!' ∉ dec n := not_mem_dec (by decide)
  have hstar : dec n ≠ ['*'] := by
    intro hr
    exact not_mem_dec (n := n) (c := '*') (by decide) (by rw [hr]; simp)
  have hscan : scanRange (dec n) = .one n := scanRange_dec (by omega)
  obtain ⟨d, ds, hd⟩ := List.exists_cons_of_ne_nil (dec_ne_nil n)
  have hne : d ≠ '!' := by
    rintro rfl
    exact hbang (by rw [hd]; simp)
  have hcast : (n : Int) = (p.toNat : Int) ↔ n = p.toNat := by omega
  rw [hd] at hstar hscan
  unfold matchPort matchEach
  rw [hd]
  simp [hne, hstar, hscan, hcast]

theorem port_of_independent (hag : F.byagent = false) (hau : F.byauth = false)
    (hc : (walk W F c pre).ctl = .scan) (h : Independent W F c pre) :
    (walk W F c pre).carry.portnum = c.portnum := by
  have hprobe : ∀ l,
      (decide ((walk W F c pre).carry.portnum = 0) || matchPort l (walk W F c pre).carry.portnum) =
        (decide (c.portnum = 0) || matchPort l c.portnum) := by
    intro l
    have hsays := probe_says (portProbe l) hag hau hc h
      ⟨plainName_of_ends (by decide) (by decide), rfl, hostOnlyType_byhost, rfl, rfl⟩
    rw [compared_portProbe, compared_portProbe] at hsays
    simpa [portProbe] using hsays
  generalize (walk W F c pre).carry.portnum = p at hprobe ⊢
  have hzero := hprobe []
  have hone := hprobe [dec p.toNat]
  rw [matchPort_nil, matchPort_nil, Bool.or_false, Bool.or_false] at hzero
  rw [matchPort_dec (by omega), matchPort_dec (by omega)] at hone
  by_cases hp : p = 0
  · simp only [hp, decide_true] at hzero ⊢
    exact (of_decide_eq_true hzero.symm).symm
  · simp only [hp, decide_false] at hzero
    rw [← hzero] at hone
    simp only [hp, decide_false, Bool.false_or, decide_true] at hone
    exact BitVec.eq_of_toNat_eq (of_decide_eq_true hone.symm)

/-! ## When the elements before an element matter -/

/-- In a list by agent no element puts in another host. -/
theorem lastPeer_byagent (c : Carry) (pre : List Host) (h : F.byagent = true) :
    lastPeer W F c pre = none := by
  have htaken : ∀ c e, taken W F c e = none := by
    intro c e
    unfold taken evalEarly
    by_cases hx : isExpire e.h_name = true <;> simp [hx, h]
  induction pre using List.reverseRecOn with
  | nil => rfl
  | append_singleton pre e ih => simp [lastPeer_snoc, htaken, ih]

theorem harmless_of_independent (hF : ∀ f ∈ F.nested, Steady (W := W) f) (hau : F.byauth = false)
    (h : Independent W F c pre) : Harmless W F c pre := by
  intro hc v hv
  have hag : F.byagent = false := by
    by_contra hag
    rw [lastPeer_byagent c pre (by simpa using hag)] at hv
    cases hv
  have hleft := walk_leaves c pre hF
  rw [hv] at hleft
  refine ⟨⟨?_, fun e => ?_⟩, ?_⟩
  · exact hleft.host.ints.symm.trans (ints_of_independent hag hau hc h)
  · exact (hleft.host.unresolvable e).symm.trans (unresolvable_of_independent hag hau hc h e)
  · exact hleft.port.symm.trans (port_of_independent hag hau hc h)

variable (W)

/-- The elements say after `pre` what they say alone, when the last `-P` or
`-R/` element of `pre` left a host that cannot be told from the host asked
for. In a list that is not by authentication this is the only case. -/
theorem verdicts_independent (tab : Nat → HostList) (left : Nat) (hl : HostList) (cl : ClientInfo)
    (q : Query) (pre : List Host) :
    (Harmless W (frameAt W tab left hl cl q) (carryIn hl cl q) pre →
      Independent W (frameAt W tab left hl cl q) (carryIn hl cl q) pre) ∧
    (hl.has HL_BYAUTH = false →
      (Independent W (frameAt W tab left hl cl q) (carryIn hl cl q) pre ↔
        Harmless W (frameAt W tab left hl cl q) (carryIn hl cl q) pre)) := by
  have hF := steady_nestedAt (W := W) tab left cl q
  refine ⟨independent_of_harmless hF, fun hau => ⟨?_, independent_of_harmless hF⟩⟩
  exact harmless_of_independent hF hau

/-- The element `-P8080`. -/
def socket8080 : Host :=
  { h_name := "*".toList, h_mask := AddrNull, h_port := some ["8080".toList],
    h_type := HT_CLIF ||| HT_BYHOST }

/-- The host 10.0.0.5 is in `10.0.0.0/8`, and not in `-P8080,10.0.0.0/8`,
when the client came in at 192.168.1.1:80. -/
theorem socket_hides_net :
    ¬ Independent stillWorld
        (frameAt stillWorld noLists (HL_MAXDEPTH + 1) (listOf [socket8080, netTen]) client80 askTen)
        (carryIn (listOf [socket8080, netTen]) client80 askTen) [socket8080] ∧
      (VA_hostIsinListX stillWorld noLists (HL_MAXDEPTH + 1)
          (listOf [netTen]) client80 askTen).1 = 2 ∧
      (VA_hostIsinListX stillWorld noLists (HL_MAXDEPTH + 1)
          (listOf [socket8080, netTen]) client80 askTen).1 =
        0 := by
  refine ⟨fun h => ?_, by decide, by decide⟩
  exact absurd (h netTen (by decide)) (by decide)

end delegate.hostlist
