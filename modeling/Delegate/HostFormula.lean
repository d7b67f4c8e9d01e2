-- The laws of AND, OR and NEG in a host list. A list is a row of gates,
-- and the walk over the list finds the value of the row, whatever the
-- elements say about the host.
import Delegate.HostMatch

open ctext gates delegate.vaddr

namespace delegate.hostlist

variable (W : World)

/-! ## The elements that are looked at -/

/-- The element is one of AND, OR and NEG. -/
def Op.isOperator : Op → Bool
  | .OP_AND | .OP_OR | .OP_NEG => true
  | _ => false

/-- The walk over `pre` goes on to look at the element `e`. -/
def Judged (F : Frame) (c : Carry) (pre : List Host) (e : Host) : Prop :=
  (walk W F c pre).ctl = .scan ∧ e.h_op.isOperator = false ∧
    idle F.nm (walk W F c pre).isin e = false

/-- What the body of the loop says about `e` after the elements `pre`. -/
def outcomeAfter (F : Frame) (c : Carry) (pre : List Host) (e : Host) : Outcome :=
  (evalHost W F (walk W F c pre).carry e).1

theorem walk_snoc (F : Frame) (c : Carry) (pre : List Host) (e : Host) :
    walk W F c (pre ++ [e]) = step F.nm (evalHost W F) (walk W F c pre) e := by
  simp [walk, List.foldl_append]

variable {nm : Names} {e : Host} {v : Nat → Bool} {i : Nat}

/-- A turn on an element that is looked at. -/
theorem step_of_judged {eval : Carry → Host → Outcome × Carry} {w : Walk} (hc : w.ctl = .scan)
    (ho : e.h_op.isOperator = false) (hi : idle nm w.isin e = false) :
    step nm eval w e =
      match eval w.carry e with
      | (.pass, c) => { w with hi := w.hi + 1, carry := c }
      | (.verdict m, c) =>
        { w with hi := w.hi + 1, isin := accum e.h_op m w.isin, carry := c }
      | (.abort, c) => { w with ctl := .stop, isin := false, carry := c } := by
  unfold step
  rcases eval w.carry e with ⟨o, c⟩
  cases hop : e.h_op <;> cases o <;> simp_all [Op.isOperator]

/-- A turn on an element that has no say. -/
theorem step_of_idle {eval : Carry → Host → Outcome × Carry} {w : Walk} (hc : w.ctl = .scan)
    (ho : e.h_op.isOperator = false) (hi : idle nm w.isin e = true) :
    step nm eval w e = { w with hi := w.hi + 1 } := by
  unfold step
  cases hop : e.h_op <;> simp_all [Op.isOperator]

/-! ## The formula of a list -/

/-- An `EQ` element or an operator: all that a compiled list holds. -/
def Plain (e : Host) : Prop := e.h_op ≠ .ON_NEQ ∧ e.h_op ≠ .OFF_NEQ

instance (e : Host) : Decidable (Plain e) := inferInstanceAs (Decidable (_ ∧ _))

/-- The gate of the element at a place, when `v` tells which elements match. -/
def gateAt (v : Nat → Bool) (i : Nat) (e : Host) : Gate :=
  match e.h_op with
  | .OP_AND => .and
  | .OP_OR => .or
  | .OP_NEG => .flip
  | .ON_EQ => if v i then .set true else .keep
  | .OFF_EQ => if v i then .set false else .keep
  | _ => .keep

def rowOf (v : Nat → Bool) (es : List Host) : List Gate := es.mapIdx (gateAt v)

/-- The value of the list as a formula. -/
def formula (v : Nat → Bool) (es : List Host) : Bool := holds (rowOf v es)

/-- `v` tells what the elements of the list say. An element of another
virtual domain does not match, and neither does one that the body of the
loop leaves with no verdict. Nothing is said about an element that the
walk does not look at. -/
def Given (F : Frame) (c : Carry) (es : List Host) (v : Nat → Bool) : Prop :=
  ∀ pre e post, es = pre ++ e :: post →
    (F.nm.vdom ≠ e.h_vdomain → v pre.length = false) ∧
    (Judged W F c pre e →
      (outcomeAfter W F c pre e = .pass → v pre.length = false) ∧
      ∀ m, outcomeAfter W F c pre e = .verdict m → v pre.length = m)

/-- The walk leaves the function from the middle of the list. -/
def Aborts (F : Frame) (c : Carry) (es : List Host) : Prop :=
  ∃ pre e post, es = pre ++ e :: post ∧ Judged W F c pre e ∧ outcomeAfter W F c pre e = .abort

/-! ## The walk and the pass over the gates -/

theorem rowOf_snoc (v : Nat → Bool) (pre : List Host) (e : Host) :
    rowOf v (pre ++ [e]) = rowOf v pre ++ [gateAt v pre.length e] := by
  simp [rowOf, List.mapIdx_append]

/-- An element with no say leaves the value as its gate does. -/
theorem act_of_idle {isin : Bool} (hp : Plain e) (ho : e.h_op.isOperator = false)
    (hi : idle nm isin e = true) (hv : nm.vdom ≠ e.h_vdomain → v i = false) :
    (gateAt v i e).act isin = isin := by
  obtain ⟨h1, h2⟩ := hp
  by_cases hd : nm.vdom = e.h_vdomain
  · cases hop : e.h_op <;> cases isin <;> cases hvi : v i <;>
      simp_all [gateAt, idle, Gate.act, Op.isOperator]
  · have hvi := hv hd
    cases hop : e.h_op <;> simp_all [gateAt, Gate.act, Op.isOperator]

/-- An element with a verdict changes the value as its gate does. -/
theorem act_of_verdict {isin : Bool} (hp : Plain e) (ho : e.h_op.isOperator = false) :
    (gateAt v i e).act isin = accum e.h_op (v i) isin := by
  obtain ⟨h1, h2⟩ := hp
  cases hop : e.h_op <;> cases hvi : v i <;> simp_all [gateAt, accum, Gate.act, Op.isOperator]

/-- An element without a match is a gate that keeps the value. -/
theorem act_of_no_match {isin : Bool} (ho : e.h_op.isOperator = false) (hv : v i = false) :
    (gateAt v i e).act isin = isin := by
  cases hop : e.h_op <;> simp_all [gateAt, Gate.act, Op.isOperator]

theorem gateAt_not_operator (ho : e.h_op.isOperator = false) (isin : Bool) :
    turn (.scan, isin) (gateAt v i e) = (.scan, (gateAt v i e).act isin) := by
  cases hop : e.h_op <;> cases hvi : v i <;> simp_all [gateAt, turn, Gate.act, Op.isOperator]

theorem gateAt_eq_or : gateAt v i e = .or ↔ e.h_op = .OP_OR := by
  cases hop : e.h_op <;> cases hvi : v i <;> simp_all [gateAt]

/-- One turn of the walk is one turn of the pass over the gates. -/
theorem step_is_turn {eval : Carry → Host → Outcome × Carry} {w : Walk} (hp : Plain e)
    (hv : nm.vdom ≠ e.h_vdomain → v i = false)
    (hj : w.ctl = .scan → e.h_op.isOperator = false → idle nm w.isin e = false →
      (eval w.carry e).1 ≠ .abort ∧ ((eval w.carry e).1 = .pass → v i = false) ∧
        ∀ m, (eval w.carry e).1 = .verdict m → v i = m) :
    ((step nm eval w e).ctl, (step nm eval w e).isin) = turn (w.ctl, w.isin) (gateAt v i e) := by
  cases hc : w.ctl with
  | stop => simp [step, turn, hc]
  | skip => simp [step, turn, hc, gateAt_eq_or]
  | scan =>
    by_cases ho : e.h_op.isOperator = true
    · -- the operators of the list are the operators of the row
      unfold step gateAt
      cases hop : e.h_op <;> cases hisin : w.isin <;> simp_all [turn, Op.isOperator, Gate.act]
    · rw [Bool.not_eq_true] at ho
      rw [gateAt_not_operator ho]
      by_cases hi : idle nm w.isin e = true
      · rw [step_of_idle hc ho hi, act_of_idle hp ho hi hv]
        simp [hc]
      · rw [Bool.not_eq_true] at hi
        obtain ⟨hna, hpass, hver⟩ := hj hc ho hi
        rw [step_of_judged hc ho hi]
        rcases hev : eval w.carry e with ⟨o, c⟩
        rw [hev] at hna hpass hver
        cases o with
        | pass => simp [hc, act_of_no_match ho (hpass rfl)]
        | verdict m => simp [hc, act_of_verdict hp ho, hver m rfl]
        | abort => exact absurd rfl hna

/-- The walk over the list is the pass over its gates, as long as the walk
does not leave the function. -/
theorem walk_is_turns {F : Frame} {c : Carry} {es : List Host} (hp : ∀ e ∈ es, Plain e)
    (hv : Given W F c es v) (ha : ¬ Aborts W F c es) (pre : List Host) (hpre : pre <+: es) :
    ((walk W F c pre).ctl, (walk W F c pre).isin) = (rowOf v pre).foldl turn (.scan, false) := by
  induction pre using List.reverseRecOn with
  | nil => rfl
  | append_singleton pre e ih =>
    obtain ⟨post, hes⟩ := hpre
    have hes' : es = pre ++ e :: post := by rw [← hes]; simp
    have hg := hv pre e post hes'
    have he : e ∈ es := by rw [hes']; simp
    rw [rowOf_snoc, List.foldl_append, ← ih ⟨e :: post, hes'.symm⟩, walk_snoc]
    refine step_is_turn (hp e he) hg.1 fun hc ho hi => ?_
    have hjudged : Judged W F c pre e := ⟨hc, ho, hi⟩
    obtain ⟨hpass, hver⟩ := hg.2 hjudged
    exact ⟨fun hab => ha ⟨pre, e, post, hes', hjudged, hab⟩, hpass, hver⟩

/-! ## The answer of the function -/

theorem step_hi_pos {eval : Carry → Host → Outcome × Carry} {w : Walk} (e : Host) (h : 0 < w.hi) :
    0 < (step nm eval w e).hi := by
  unfold step
  split
  · exact h
  · exact Nat.succ_pos _
  · split
    · exact Nat.succ_pos _
    · split
      · exact h
      · exact Nat.succ_pos _
    · exact Nat.succ_pos _
    · split
      · exact Nat.succ_pos _
      · split
        · exact Nat.succ_pos _
        · exact Nat.succ_pos _
        · exact h

theorem walk_hi_pos (F : Frame) (c : Carry) (es : List Host) : 0 < (walk W F c es).hi := by
  induction es using List.reverseRecOn with
  | nil => exact Nat.one_pos
  | append_singleton pre e ih =>
    rw [walk_snoc]
    exact step_hi_pos e ih

/-- The place of the first element is 1, so a host in the list gives a
value that is not 0. -/
theorem result_ne_zero (F : Frame) (c : Carry) (es : List Host) :
    (walk W F c es).result ≠ 0 ↔ (walk W F c es).isin = true := by
  have h := walk_hi_pos W F c es
  unfold Walk.result
  split
  · rename_i hi
    simp [hi]
    omega
  · rename_i hi
    simp [hi]

theorem walk_of_stop (F : Frame) (c : Carry) (pre post : List Host)
    (h : (walk W F c pre).ctl = .stop) : walk W F c (pre ++ post) = walk W F c pre := by
  induction post using List.reverseRecOn with
  | nil => rw [List.append_nil]
  | append_singleton post e ih =>
    rw [← List.append_assoc, walk_snoc, ih]
    simp [step, h]

/-- A walk that leaves the function finds nothing. -/
theorem result_of_aborts {F : Frame} {c : Carry} {es : List Host} (h : Aborts W F c es) :
    (walk W F c es).result = 0 := by
  obtain ⟨pre, e, post, hes, ⟨hc, ho, hi⟩, hout⟩ := h
  have hstep : (walk W F c (pre ++ [e])).ctl = .stop ∧ (walk W F c (pre ++ [e])).isin = false := by
    rw [walk_snoc, step_of_judged hc ho hi]
    unfold outcomeAfter at hout
    rcases hev : evalHost W F (walk W F c pre).carry e with ⟨o, c'⟩
    rw [hev] at hout
    simp only at hout
    subst hout
    exact ⟨rfl, rfl⟩
  have hes' : es = (pre ++ [e]) ++ post := by rw [hes]; simp
  rw [hes', walk_of_stop W F c _ _ hstep.1]
  simp [Walk.result, hstep.2]

/-- Only an element that names a list, met where the lists are too deep,
leaves the function. -/
theorem abort_of_named {F : Frame} {c : Carry} (h : (evalHost W F c e).1 = .abort) :
    F.nested = none ∧ e.h_listid ≠ 0 := by
  unfold evalHost at h
  split at h
  · rename_i r hr
    unfold evalEarly at hr
    repeat' split at hr
    all_goals first | (cases hr; done) | (cases hr; cases h; done) | skip
    rename_i hid _ hn
    exact ⟨hn, hid⟩
  · split at h
    · cases h
    · unfold evalSides evalNamed at h
      simp only at h
      repeat' split at h
      all_goals cases h

/-- The frame and the loop variables of a call. -/
abbrev frameAt (tab : Nat → HostList) (left : Nat) (hl : HostList) (cl : ClientInfo) (q : Query) :
    Frame := frameIn hl cl q (nestedAt W tab left cl q)

/-- The answer to a query is the value of the list as a formula. There are
two guards, and both answer 0: a list by authentication without any, and a
named list that is met at the depth where the lists are too deep. -/
theorem hostIsinListX_is_formula (tab : Nat → HostList) (left : Nat) (hl : HostList)
    (cl : ClientInfo) (q : Query) (hp : ∀ e ∈ hl.hl_List, Plain e) :
    (hl.has HL_BYAUTH = true ∧ q.av = [] → (VA_hostIsinListX W tab left hl cl q).1 = 0) ∧
    (Aborts W (frameAt W tab left hl cl q) (carryIn hl cl q) hl.hl_List →
      left = 0 ∧ (∃ e ∈ hl.hl_List, e.h_listid ≠ 0) ∧
        (VA_hostIsinListX W tab left hl cl q).1 = 0) ∧
    (¬ (hl.has HL_BYAUTH = true ∧ q.av = []) →
      ¬ Aborts W (frameAt W tab left hl cl q) (carryIn hl cl q) hl.hl_List →
      ∀ v, Given W (frameAt W tab left hl cl q) (carryIn hl cl q) hl.hl_List v →
        ((VA_hostIsinListX W tab left hl cl q).1 ≠ 0 ↔ formula v hl.hl_List = true)) := by
  refine ⟨?_, ?_, ?_⟩
  · rintro ⟨hby, hav⟩
    rw [VA_hostIsinListX_eq]
    simp [hby, hav]
  · intro ha
    refine ⟨?_, ?_, ?_⟩
    · obtain ⟨pre, e, post, -, -, hout⟩ := ha
      have hn := (abort_of_named W hout).1
      cases left with
      | zero => rfl
      | succ left => cases hn
    · obtain ⟨pre, e, post, hes, -, hout⟩ := ha
      exact ⟨e, by rw [hes]; simp, (abort_of_named W hout).2⟩
    · rw [VA_hostIsinListX_eq]
      split
      · rfl
      · exact result_of_aborts W ha
  · intro hguard ha v hv
    rw [VA_hostIsinListX_eq, if_neg (by simpa using hguard)]
    simp only
    rw [result_ne_zero]
    have h := walk_is_turns W hp hv ha hl.hl_List (List.prefix_refl _)
    have hisin := congrArg Prod.snd h
    simp only at hisin
    rw [hisin, turns_eq_holds]
    rfl

/-! ## Lists that meet a guard -/

/-- A world that answers nothing. -/
def stillWorld : World where
  pton6 := fun _ => none
  gethostintMin := fun _ => none
  gethostbyAddr := fun _ => none
  matchTimePeriod := fun _ _ => false
  addrGroup := fun _ _ _ => false
  hostIFto := fun a _ => a
  matchHostSet := fun _ _ _ => false
  frex_match := fun _ _ => false

/-- The socket address of an IPv4 word and a port, without a name. -/
def sockaddr (w : BitVec 32) (port : BitVec 16) : VAddr := ⟨0, port, ofV4 w, []⟩

/-- A client that came in at 192.168.1.1:80. -/
def client80 : ClientInfo where
  clientsideHost := sockaddr 0xC0A80101 80
  clientSockHost := sockaddr 0xC0A80101 80
  clientHost := sockaddr 0xC0A80101 80
  e_agentname := []
  fromself := false
  ridentPeer := sockaddr 0 0

/-- The host `h.example`, at 10.0.0.5. -/
def askTen : Query := ⟨none, "h.example".toList, none, sockaddr 0x0A000005 0, none, []⟩

/-- The element `10.0.0.0/8`. -/
def netTen : Host :=
  { h_name := "10.0.0.0".toList, h_mask := { MaskZero with I3 := 0xFF000000 },
    h_Addr := ofV4 0x0A000000, h_type := HT_BYHOST }

def listOf (es : List Host) : HostList := { hl_what := [], hl_List := es }

/-- The list `/u,|,!`. -/
def byauthOrNot : HostList :=
  { hl_what := [], hl_flags := HL_BYAUTH, hl_List := [{ h_op := .OP_OR }, { h_op := .OP_NEG }] }

/-- The list `name,|,!`, where `name` is the list 1. -/
def namedOrNot : HostList :=
  listOf [{ h_listid := 1 }, { h_op := .OP_OR }, { h_op := .OP_NEG }]

/-- No list has a name. -/
def noLists : Nat → HostList := fun _ => listOf []

/-- Both lists are true as formulas, and the answer is 0 for both. -/
theorem guards_answer_zero :
    (Given stillWorld (frameAt stillWorld noLists (HL_MAXDEPTH + 1) byauthOrNot client80 askTen)
        (carryIn byauthOrNot client80 askTen) byauthOrNot.hl_List (fun _ => false) ∧
      formula (fun _ => false) byauthOrNot.hl_List = true ∧
      (VA_hostIsinListX stillWorld noLists (HL_MAXDEPTH + 1) byauthOrNot client80 askTen).1 = 0) ∧
    (Given stillWorld (frameAt stillWorld noLists 0 namedOrNot client80 askTen)
        (carryIn namedOrNot client80 askTen) namedOrNot.hl_List (fun _ => false) ∧
      formula (fun _ => false) namedOrNot.hl_List = true ∧
      (VA_hostIsinListX stillWorld noLists 0 namedOrNot client80 askTen).1 = 0) := by
  refine ⟨⟨?_, by decide, by decide⟩, ?_, by decide, by decide⟩
  · intro pre e post h
    refine ⟨fun _ => rfl, fun hj => ⟨fun _ => rfl, ?_⟩⟩
    have he : e ∈ byauthOrNot.hl_List := by rw [h]; simp
    have hop : ∀ e ∈ byauthOrNot.hl_List, e.h_op.isOperator = true := by decide
    exact absurd hj.2.1 (by simp [hop e he])
  · intro pre e post h
    refine ⟨fun _ => rfl, fun hj => ⟨fun _ => rfl, ?_⟩⟩
    intro m hm
    rcases pre with _ | ⟨a, pre⟩
    · obtain ⟨rfl, -⟩ := List.cons.inj h
      cases hm
    · obtain ⟨-, htl⟩ := List.cons.inj h
      have he : e ∈ namedOrNot.hl_List.tail := by
        show e ∈ [_, _]
        rw [htl]
        simp
      have hop : ∀ e ∈ namedOrNot.hl_List.tail, e.h_op.isOperator = true := by decide
      exact absurd hj.2.1 (by simp [hop e he])

/-- The list `10.0.0.0/8,&,!`. -/
def tenAndNot : HostList := listOf [netTen, { h_op := .OP_AND }, { h_op := .OP_NEG }]

theorem hostIsinListX_is_formula_ten :
    (∀ e ∈ tenAndNot.hl_List, Plain e) ∧
    ((VA_hostIsinListX stillWorld noLists (HL_MAXDEPTH + 1) tenAndNot client80 askTen).1 ≠ 0 ↔
      formula (fun _ => true) tenAndNot.hl_List = true) := by
  have hp : ∀ e ∈ tenAndNot.hl_List, Plain e := by decide
  have h := hostIsinListX_is_formula stillWorld noLists (HL_MAXDEPTH + 1)
      tenAndNot client80 askTen hp
  refine ⟨hp, h.2.2 (by decide) ?_ _ ?_⟩
  · rintro ⟨pre, e, post, -, -, hout⟩
    exact absurd (abort_of_named _ hout).1 (by simp [frameIn, nestedAt])
  · intro pre e post hes
    rcases pre with _ | ⟨a, pre⟩
    · obtain ⟨rfl, -⟩ := List.cons.inj hes
      have hout : outcomeAfter stillWorld (frameAt stillWorld noLists (HL_MAXDEPTH + 1)
          tenAndNot client80 askTen)
          (carryIn tenAndNot client80 askTen) [] netTen = .verdict true := by decide
      refine ⟨fun hd => absurd rfl hd, fun _ => ⟨fun h => ?_, fun m h => ?_⟩⟩
      · rw [hout] at h
        cases h
      · rw [hout] at h
        cases h
        rfl
    · obtain ⟨-, htl⟩ := List.cons.inj hes
      have he : e ∈ tenAndNot.hl_List.tail := by
        show e ∈ [_, _]
        rw [htl]
        simp
      have hop : ∀ e ∈ tenAndNot.hl_List.tail, e.h_op.isOperator = true ∧ e.h_vdomain = none := by
        decide
      exact ⟨fun hd => absurd (hop e he).2.symm hd,
        fun hj => absurd hj.2.1 (by simp [(hop e he).1])⟩

end delegate.hostlist
