-- The way of an agent's bytes (teleport/vehicle.cpp, teleport/teleportd.cpp): the vehicle
-- puts what its agents read on one line, each message with the path of its agent, the
-- daemon takes each message to the client at the end of the path, and there
-- `openTeleport` decodes it.
import Delegate.LineText
import Delegate.QzCode
import Delegate.Runs

open percent (hexDig)

namespace delegate.qz

/-! ## The vehicle -/

/-- The size of the buffers of the vehicle and of `openTeleport`. -/
def OMSIZE : Nat := 0x4000

/-- The most that the vehicle reads of an agent at once. -/
def IMSIZE : Nat := 1024 * 8

/-- The size of a message in the daemon. -/
def MSGSIZE : Nat := 0x2000

abbrev SP : Byte := 32

abbrev BANG : Byte := 33

abbrev SLASH : Byte := 47

abbrev GT : Byte := 62

/-- An agent of the vehicle that has a path. -/
structure Agent where
  a_path : List Byte
  a_sentQZ : Bool
  a_zomb : Bool
  ctx : Ctx

/-- The agents by their numbers, and what the vehicle has written to the backbone. -/
structure Vehicle where
  agents : Nat → Agent
  wire : List Byte

/-- The `path` of the loop: "=>%s ". -/
def Agent.path (a : Agent) : List Byte := [EQ, GT] ++ a.a_path ++ [SP]

/-- The `xpath`: the first message of an agent tells the code that the vehicle accepts. -/
def Agent.xpath (MY_QZ : Byte) (a : Agent) : List Byte :=
  a.path ++ if a.a_sentQZ then [] else [EQ, Q, MY_QZ]

/-- What can happen in the loop: an agent has bytes, an agent is at its end and nobody calls back,
or a message for an agent tells a code. -/
inductive Act
  | data (i : Nat) (ibuf : List Byte)
  | eof (i : Nat)
  | told (i : Nat) (code : Byte)

/-- The zero byte ends what `fputs` writes. -/
def Vehicle.fputs (v : Vehicle) (msg : List Byte) : Vehicle :=
  { v with wire := v.wire ++ msg.takeWhile (· ≠ 0) }

def Vehicle.set (v : Vehicle) (i : Nat) (a : Agent) : Vehicle :=
  { v with agents := Function.update v.agents i a }

/-- A step of the loop, if the agent is there and, where it has bytes, has at least one. -/
def Vehicle.step (MY_QZ : Byte) (v : Vehicle) : Act → Option Vehicle
  | .data i ibuf =>
    let a := v.agents i
    if a.a_zomb ∨ ibuf = [] then none
    else
      some ((v.set i { a with a_sentQZ := true }).fputs
        (QZencode OMSIZE a.ctx (a.xpath MY_QZ) ibuf))
  | .eof i =>
    let a := v.agents i
    if a.a_zomb then none
    else some ((v.set i { a with a_zomb := true }).fputs (a.path ++ [SP, EQ, EQ, CR, LF]))
  | .told i code =>
    let a := v.agents i
    if a.a_zomb then none else some (v.set i { a with ctx := QZswitch a.ctx code })

/-! ## The daemon -/

def isspace (c : Byte) : Bool := c == SP || (9 ≤ c && c ≤ 13)

def isdigit (c : Byte) : Bool := 48 ≤ c && c ≤ 57

/-- The text after a sign. -/
def unsigned (s : List Byte) : List Byte :=
  if s.head? = some 45 ∨ s.head? = some 43 then s.tail else s

/-- A number as `%d` scans it, without the bounds of an `int`. -/
def scanD (s : List Byte) : Option Int :=
  let s := s.dropWhile isspace
  let ds := (unsigned s).takeWhile isdigit
  let val := ds.foldl (fun (n : Nat) c => 10 * n + (c.toNat - 48)) 0
  if ds = [] then none else some (if s.head? = some 45 then -(val : Int) else val)

/-- Where a message goes that is bound from left to right: the scan of "%*[^/]/%d" after the first
mark of the path. -/
def daid (msg : List Byte) : Option Int :=
  if msg.take 2 = [EQ, GT] then
    let dp := (msg.dropWhile (· ≠ BANG)).tail
    if dp.takeWhile (· ≠ SLASH) = [] then none
    else
      match dp.dropWhile (· ≠ SLASH) with
      | [] => none
      | _ :: ds => scanD ds
  else none

/-- What a client that has a channel is sent of a message. -/
def body (msg : List Byte) : List Byte := (msg.dropWhile (· ≠ SP)).tail

/-- What the daemon writes to a client, of the messages in what the vehicle has written. -/
def toClient (d : Int) (wire : List Byte) : List Byte :=
  (((linetext.split LF wire).filter fun msg => daid msg = some d).map body).flatten

/-! ## The client -/

/-- The process of `openTeleport` that reads the messages: whether it has ended, the context of the
socket, and what it has written to the socket. -/
structure Client where
  ended : Bool
  ctx : Ctx
  out : List Byte

/-- `deWrite`: a message that cannot be decoded is written as it is. -/
def Client.deWrite (c : Client) (buf : List Byte) : Client :=
  match QZdecode OMSIZE c.ctx buf with
  | (some obuf, ctx) => { c with ctx := ctx, out := c.out ++ obuf }
  | (none, ctx) => { c with ctx := ctx, out := c.out ++ buf }

/-- A turn of the loop with a message. -/
def Client.recv (c : Client) (msg : List Byte) : Client :=
  let buf := msg.takeWhile (· ≠ 0)
  if c.ended then c
  else if buf.take 2 = [EQ, EQ] then { c with ended := true }
  else c.deWrite buf

/-- The loop over what the client is sent, which it reads by `fgets`. -/
def Client.run (c : Client) (wire : List Byte) : Client :=
  (linetext.pieces LF (OMSIZE - 2) wire).foldl Client.recv c

def Client.init : Client := ⟨false, none, []⟩

/-! ## Paths -/

section

variable {α : Type} {p : α → Bool} {c : α} {s : List α}

/-- A scan that stops in a text does not see what is appended. -/
theorem dropWhile_append_of_mem (hc : c ∈ s) (hp : p c = false) (x : List α) :
    (s ++ x).dropWhile p = s.dropWhile p ++ x := by
  induction s with
  | nil => cases hc
  | cons e s ih =>
    rw [List.cons_append, List.dropWhile_cons, List.dropWhile_cons]
    split
    · rename_i he
      refine ih ((List.mem_cons.mp hc).resolve_left ?_)
      rintro rfl
      rw [hp] at he
      cases he
    · rfl

theorem takeWhile_append_stop (hp : p c = false) (s x : List α) :
    (s ++ c :: x).takeWhile p = s.takeWhile p := by
  induction s with
  | nil => simp [hp]
  | cons e s ih => rw [List.cons_append, List.takeWhile_cons, List.takeWhile_cons, ih]

theorem takeWhile_append_of_mem (hc : c ∈ s) (hp : p c = false) (x : List α) :
    (s ++ x).takeWhile p = s.takeWhile p := by
  obtain ⟨a, b, rfl⟩ := List.append_of_mem hc
  rw [List.append_assoc, List.cons_append, takeWhile_append_stop hp, takeWhile_append_stop hp]

end

/-- A number ends at a blank. -/
theorem scanD_blank {s : List Byte} {v : Int} (h : scanD (s ++ [SP]) = some v) (x : List Byte) :
    scanD (s ++ SP :: x) = some v := by
  by_cases hall : ∃ c ∈ s, isspace c = false
  · obtain ⟨c, hc, hp⟩ := hall
    have hne : s.dropWhile isspace ≠ [] := by
      intro hnil
      have hdrop := List.dropWhile_eq_nil_iff.mp hnil c hc
      rw [hp] at hdrop
      cases hdrop
    obtain ⟨e, es, he⟩ := List.exists_cons_of_ne_nil hne
    have hdigit : isdigit SP = false := by decide
    have hdigits (y : List Byte) : (unsigned (e :: es ++ SP :: y)).takeWhile isdigit =
        (unsigned (e :: es)).takeWhile isdigit := by
      rw [unsigned, unsigned, List.cons_append, List.head?_cons, List.head?_cons]
      split
      · exact takeWhile_append_stop hdigit es y
      · exact takeWhile_append_stop hdigit (e :: es) y
    rw [scanD, dropWhile_append_of_mem hc hp, he] at h ⊢
    rw [hdigits] at h ⊢
    exact h
  · have hblank : (s ++ [SP]).dropWhile isspace = [] := by
      rw [List.dropWhile_eq_nil_iff]
      intro c hc
      rcases List.mem_append.mp hc with hc | hc
      · by_contra hp
        exact hall ⟨c, hc, Bool.eq_false_of_not_eq_true hp⟩
      · rw [List.mem_singleton.mp hc]
        decide
    rw [scanD, hblank] at h
    cases h

/-- A scan for a character that is found before the blank leaves the blank. -/
theorem scan_blank {c : Byte} (hc : c ≠ SP) {s : List Byte}
    (h : ((s ++ [SP]).dropWhile (· ≠ c)) ≠ []) :
    ∃ r, ∀ x, (s ++ SP :: x).dropWhile (· ≠ c) = c :: (r ++ SP :: x) := by
  have hmem : c ∈ s := by
    by_contra hno
    apply h
    rw [List.dropWhile_eq_nil_iff]
    intro e he
    rcases List.mem_append.mp he with he | he
    · exact decide_eq_true fun heq => hno (heq ▸ he)
    · rw [List.mem_singleton.mp he]
      exact decide_eq_true (Ne.symm hc)
  obtain ⟨a, b, rfl, ha⟩ := List.eq_append_cons_of_mem hmem
  refine ⟨b, fun x => ?_⟩
  have hskip : ∀ e ∈ a, decide (e ≠ c) = true := by
    rintro e he
    exact decide_eq_true fun heq => ha (heq ▸ he)
  rw [List.append_assoc, List.dropWhile_append_of_pos hskip, List.cons_append]
  exact List.dropWhile_cons_of_neg (by simp)

/-- The path decides where a message goes. -/
theorem daid_path {s : List Byte} {d : Int} (h : daid ([EQ, GT] ++ s ++ [SP]) = some d)
    (x : List Byte) : daid ([EQ, GT] ++ s ++ SP :: x) = some d := by
  have hbound (y : List Byte) : ([EQ, GT] ++ s ++ y).take 2 = [EQ, GT] := rfl
  rw [daid, if_pos (hbound _)] at h ⊢
  have hbang : ([EQ, GT] ++ s ++ [SP]).dropWhile (· ≠ BANG) ≠ [] := by
    intro hnil
    rw [hnil] at h
    cases h
  obtain ⟨r, hr⟩ := scan_blank (by decide) hbang
  rw [hr] at h ⊢
  dsimp only [List.tail_cons] at h ⊢
  have hslash : (r ++ [SP]).dropWhile (· ≠ SLASH) ≠ [] := by
    intro hnil
    rw [hnil] at h
    split at h <;> cases h
  obtain ⟨ds, hds⟩ := scan_blank (by decide) hslash
  have hmem : SLASH ∈ r := by
    have hin : SLASH ∈ (r ++ [SP]).dropWhile (· ≠ SLASH) := by
      rw [hds]
      exact List.mem_cons_self
    have hin := (List.dropWhile_sublist _).mem hin
    rw [List.mem_append, List.mem_singleton] at hin
    exact hin.resolve_right (by decide)
  have hhost (y : List Byte) :
      (r ++ SP :: y).takeWhile (· ≠ SLASH) = r.takeWhile (· ≠ SLASH) :=
    takeWhile_append_of_mem hmem (by decide) _
  rw [hds, hhost] at h ⊢
  split at h
  · cases h
  · rename_i hne
    rw [if_neg hne]
    exact scanD_blank h x

/-- What a client is sent is what stands after the path. -/
theorem body_path {s : List Byte} (h : ∀ c ∈ s, c ≠ SP) (x : List Byte) :
    body ([EQ, GT] ++ s ++ SP :: x) = x := by
  have hskip : ∀ c ∈ [EQ, GT] ++ s, decide (c ≠ SP) = true := by
    intro c hc
    rcases List.mem_append.mp hc with hc | hc
    · rw [List.mem_pair] at hc
      rcases hc with rfl | rfl <;> decide
    · exact decide_eq_true (h c hc)
  rw [body, List.dropWhile_append_of_pos hskip, List.dropWhile_cons_of_neg (by simp),
    List.tail_cons]

/-! ## What the client reads -/

/-- Bytes that are lines. -/
def Whole (w : List Byte) : Prop :=
  ∃ ls : List (List Byte), (∀ l ∈ ls, linetext.Line LF l) ∧ w = ls.flatten

theorem Whole.append {w l : List Byte} (h : Whole w) (hl : linetext.Line LF l) :
    Whole (w ++ l) := by
  obtain ⟨ls, hls, rfl⟩ := h
  refine ⟨ls ++ [l], ?_, ?_⟩
  · intro l' hl'
    rcases List.mem_append.mp hl' with hl' | hl'
    · exact hls l' hl'
    · rwa [List.mem_singleton.mp hl']
  · rw [List.flatten_append, List.flatten_singleton]

theorem split_line {l : List Byte} (hl : linetext.Line LF l) (w : List Byte) :
    linetext.split LF (l ++ w) = l :: linetext.split LF w := by
  have hne : l ++ w ≠ [] := by simp [hl.ne_nil]
  have hrest : linetext.rest LF (l ++ w) = w := by
    have hall := @linetext.first_append_rest _ _ LF (l ++ w)
    rw [hl.first_append] at hall
    exact List.append_cancel_left hall
  rw [linetext.split_of_ne hne, hl.first_append, hrest]

theorem toClient_nil (d : Int) : toClient d [] = [] := by
  rw [toClient, linetext.split]
  rfl

theorem toClient_line (d : Int) {l : List Byte} (hl : linetext.Line LF l) (w : List Byte) :
    toClient d (l ++ w) = (if daid l = some d then body l else []) ++ toClient d w := by
  rw [toClient, split_line hl, List.filter_cons]
  split
  · rename_i hd
    rw [if_pos (of_decide_eq_true hd), List.map_cons, List.flatten_cons, toClient]
  · rename_i hd
    rw [if_neg fun heq => hd (decide_eq_true heq), List.nil_append, toClient]

theorem toClient_append (d : Int) {w : List Byte} (h : Whole w) (x : List Byte) :
    toClient d (w ++ x) = toClient d w ++ toClient d x := by
  obtain ⟨ls, hls, rfl⟩ := h
  induction ls with
  | nil => rw [List.flatten_nil, List.nil_append, toClient_nil, List.nil_append]
  | cons l ls ih =>
    have hl := hls l List.mem_cons_self
    rw [List.flatten_cons, List.append_assoc, toClient_line d hl, toClient_line d hl,
      ih fun l' hl' => hls l' (List.mem_cons_of_mem _ hl'), List.append_assoc]

theorem run_append (c : Client) {w : List Byte} (h : Whole w) (x : List Byte) :
    c.run (w ++ x) = (c.run w).run x := by
  obtain ⟨ls, hls, rfl⟩ := h
  rw [Client.run, linetext.pieces_lines _ hls, List.foldl_append]
  rfl

/-- A message that the buffer has room for is read at once. -/
theorem run_line (c : Client) {l : List Byte} (hl : linetext.Line LF l) (hlen : l.length < OMSIZE) :
    c.run l = c.recv l := by
  have htake : l.take (OMSIZE - 2 + 1) = l := List.take_of_length_le (by unfold OMSIZE at *; omega)
  rw [Client.run, linetext.pieces_of_ne hl.ne_nil, hl.first_self, htake, List.drop_length,
    linetext.pieces_nil, List.foldl_cons, List.foldl_nil]

/-- A message that goes to `dest`, and the bytes that its client writes for it. -/
structure Carries (dest : Int) (l s : List Byte) : Prop where
  line : linetext.Line LF l
  bound : daid l = some dest
  body : linetext.Line LF (body l)
  short : (qz.body l).length < OMSIZE
  recv : ∀ c : Client, c.ended = false →
    (c.recv (qz.body l)).ended = false ∧ (c.recv (qz.body l)).out = c.out ++ s

/-- What the client `d` has written when it has read what the vehicle has written. -/
structure Reads (d : Int) (wire out : List Byte) : Prop where
  whole : Whole wire
  sent : Whole (toClient d wire)
  going : (Client.init.run (toClient d wire)).ended = false
  out : (Client.init.run (toClient d wire)).out = out

theorem Reads.nil (d : Int) : Reads d [] [] := by
  have hrun : Client.init.run [] = Client.init := by
    rw [Client.run, linetext.pieces_nil]
    rfl
  refine ⟨⟨[], by simp, rfl⟩, ?_, ?_, ?_⟩
  · rw [toClient_nil]
    exact ⟨[], by simp, rfl⟩
  · rw [toClient_nil, hrun]
    rfl
  · rw [toClient_nil, hrun]
    rfl

/-- A message adds its bytes at its client, and at no other. -/
theorem Reads.message {d dest : Int} {wire out l s : List Byte} (h : Reads d wire out)
    (hl : Carries dest l s) : Reads d (wire ++ l) (out ++ if dest = d then s else []) := by
  have hto : toClient d l = if dest = d then body l else [] := by
    have hline := toClient_line d hl.line []
    rw [List.append_nil, toClient_nil, List.append_nil, hl.bound] at hline
    rw [hline]
    by_cases hd : dest = d
    · rw [if_pos hd, if_pos (congrArg some hd)]
    · rw [if_neg hd, if_neg fun heq => hd (Option.some.inj heq)]
  have hwhole := h.whole.append hl.line
  by_cases hd : dest = d
  · rw [if_pos hd] at hto ⊢
    have hall : toClient d (wire ++ l) = toClient d wire ++ body l := by
      rw [toClient_append d h.whole, hto]
    have hrun : Client.init.run (toClient d (wire ++ l)) =
        (Client.init.run (toClient d wire)).recv (body l) := by
      rw [hall, run_append _ h.sent, run_line _ hl.body hl.short]
    obtain ⟨hgoing, hout⟩ := hl.recv _ h.going
    refine ⟨hwhole, ?_, ?_, ?_⟩
    · rw [hall]
      exact h.sent.append hl.body
    · rw [hrun]
      exact hgoing
    · rw [hrun, hout, h.out]
  · rw [if_neg hd] at hto ⊢
    have hall : toClient d (wire ++ l) = toClient d wire := by
      rw [toClient_append d h.whole, hto, List.append_nil]
    rw [List.append_nil]
    refine ⟨hwhole, ?_, ?_, ?_⟩ <;> rw [hall]
    · exact h.sent
    · exact h.going
    · exact h.out

/-! ## The messages of the vehicle -/

/-- Characters that no buffer and no line ends at. -/
def Inner (x : List Byte) : Prop := ∀ c ∈ x, c ≠ LF ∧ c ≠ 0

theorem Inner.append {x y : List Byte} (hx : Inner x) (hy : Inner y) : Inner (x ++ y) := by
  intro c hc
  rcases List.mem_append.mp hc with hc | hc
  · exact hx c hc
  · exact hy c hc

theorem Inner.line {x : List Byte} (h : Inner x) : linetext.Line LF (x ++ [LF]) :=
  ⟨x, fun hmem => (h LF hmem).1 rfl, rfl⟩

theorem Inner.cstr {x : List Byte} (h : Inner x) : (x ++ [LF]).takeWhile (· ≠ 0) = x ++ [LF] := by
  rw [List.takeWhile_eq_self_iff]
  intro c hc
  rcases List.mem_append.mp hc with hc | hc
  · exact decide_eq_true (h c hc).2
  · rw [List.mem_singleton.mp hc]
    decide

theorem inner_hexDig (n : Nat) (h : n < 16) : hexDig n ≠ LF ∧ hexDig n ≠ 0 ∧ hexDig n ≠ EQ := by
  interval_cases n <;> decide

theorem high_lt (c : Byte) : c.toNat / 16 < 16 := by
  have hlt := c.toNat_lt
  omega

theorem inner_hh (c : Byte) : Inner (hh c) := by
  have hhi := high_lt c
  have hlo : c.toNat % 16 < 16 := Nat.mod_lt _ (by decide)
  rintro d (_ | ⟨_, _ | ⟨_, ⟨⟩⟩⟩)
  · exact ⟨(inner_hexDig _ hhi).1, (inner_hexDig _ hhi).2.1⟩
  · exact ⟨(inner_hexDig _ hlo).1, (inner_hexDig _ hlo).2.1⟩

theorem Inner.cons {c : Byte} {x : List Byte} (hc : c ≠ LF ∧ c ≠ 0) (hx : Inner x) :
    Inner (c :: x) := by
  rintro d (_ | ⟨_, hd⟩)
  · exact hc
  · exact hx d hd

theorem inner_nil : Inner [] := fun _ hc => nomatch hc

theorem inner_mark : Inner QZM :=
  .cons (by decide) (.cons (by decide) (.cons (by decide) inner_nil))

theorem inner_eof : Inner [SP, EQ, EQ, CR] :=
  .cons (by decide) (.cons (by decide) (.cons (by decide) (.cons (by decide) inner_nil)))

theorem inner_bound : Inner [EQ, GT] := .cons (by decide) (.cons (by decide) inner_nil)

theorem Unit.inner {u b : List Byte} (h : Unit u b) : Inner u := by
  cases h with
  | raw _ hlf _ hzero => exact .cons ⟨hlf, hzero⟩ inner_nil
  | quoted c => exact .cons (by decide) (inner_hh c)
  | zero _ hn =>
    have hdig := inner_hexDig _ (Nat.lt_succ_of_le hn)
    exact .cons (by decide) (.cons (by decide) (.cons ⟨hdig.1, hdig.2.1⟩ inner_nil))
  | word c => exact .cons (by decide) (.cons (by decide) (inner_hh c))

theorem Spelt.inner {t s : List Byte} (h : Spelt t s) : Inner t := by
  induction h with
  | nil => exact inner_nil
  | cons hu _ ih => exact hu.inner.append ih

/-- No text is taken for the end of the messages. -/
theorem Spelt.not_end {t s : List Byte} (h : Spelt t s) :
    (t ++ QZM ++ [LF]).take 2 ≠ [EQ, EQ] := by
  cases h with
  | nil => decide
  | cons hu _ =>
    cases hu with
    | raw heq => exact fun heq' => heq (List.cons.inj heq').1
    | quoted c =>
      intro heq
      exact (inner_hexDig _ (high_lt c)).2.2 (List.cons.inj (List.cons.inj heq).2).1
    | zero =>
      intro heq
      exact absurd (List.cons.inj (List.cons.inj heq).2).1 (by decide)
    | word =>
      intro heq
      exact absurd (List.cons.inj (List.cons.inj heq).2).1 (by decide)

theorem Client.recv_some {c : Client} {buf s : List Byte} {ctx : Ctx} (hgoing : c.ended = false)
    (hcstr : buf.takeWhile (· ≠ 0) = buf) (hend : buf.take 2 ≠ [EQ, EQ])
    (hdecode : QZdecode OMSIZE c.ctx buf = (some s, ctx)) :
    (c.recv buf).ended = false ∧ (c.recv buf).out = c.out ++ s := by
  have hgo : ¬c.ended = true := by
    rw [hgoing]
    decide
  have hrecv : c.recv buf = { c with ctx := ctx, out := c.out ++ s } := by
    rw [Client.recv, hcstr, if_neg hgo, if_neg hend, Client.deWrite, hdecode]
  rw [hrecv]
  exact ⟨hgoing, rfl⟩

/-- A path that leads to a client. -/
structure Leads (p : List Byte) (d : Int) : Prop where
  short : p.length < 256
  inner : Inner p
  blank : ∀ c ∈ p, c ≠ SP
  daid : daid ([EQ, GT] ++ p ++ [SP]) = some d

/-- A message with the path goes to the client. -/
theorem Leads.carries {p x s : List Byte} {d : Int} (h : Leads p d) (hx : Inner x)
    (hlen : ([EQ, GT] ++ p ++ SP :: (x ++ [LF])).length < OMSIZE)
    (hrecv : ∀ c : Client, c.ended = false →
      (c.recv (x ++ [LF])).ended = false ∧ (c.recv (x ++ [LF])).out = c.out ++ s) :
    Carries d ([EQ, GT] ++ p ++ SP :: (x ++ [LF])) s := by
  have hbody := body_path h.blank (x ++ [LF])
  have hline : [EQ, GT] ++ p ++ SP :: (x ++ [LF]) = ([EQ, GT] ++ p ++ SP :: x) ++ [LF] := by simp
  have hin : Inner ([EQ, GT] ++ p ++ SP :: x) :=
    (inner_bound.append h.inner).append (.cons (by decide) hx)
  constructor
  · rw [hline]
    exact hin.line
  · exact daid_path h.daid _
  · rw [hbody]
    exact hx.line
  · rw [hbody]
    rw [List.length_append, List.length_cons] at hlen
    omega
  · rwa [hbody]

/-- A line of an encoded text, the first of which may tell a code. -/
theorem Leads.line {p q t b : List Byte} {d : Int} (h : Leads p d)
    (hq : q = [] ∨ ∃ code, q = [EQ, Q, code] ∧ code ≠ LF ∧ code ≠ 0) (ht : Spelt t b)
    (hroom : b.length ≤ OMSIZE) (hlen : (lineOf ([EQ, GT] ++ p ++ [SP] ++ q) t).length < OMSIZE) :
    Carries d (lineOf ([EQ, GT] ++ p ++ [SP] ++ q) t) b := by
  have hline : lineOf ([EQ, GT] ++ p ++ [SP] ++ q) t =
      [EQ, GT] ++ p ++ SP :: (q ++ t ++ QZM ++ [LF]) := by simp [lineOf]
  rw [hline] at hlen ⊢
  rcases hq with rfl | ⟨code, rfl, hlf, hzero⟩
  · have hin : Inner ([] ++ t ++ QZM) := (inner_nil.append ht.inner).append inner_mark
    exact h.carries hin hlen fun c hgoing =>
      Client.recv_some hgoing hin.cstr ht.not_end (ht.QZdecode hroom c.ctx)
  · have htold : Inner [EQ, Q, code] :=
      .cons (by decide) (.cons (by decide) (.cons ⟨hlf, hzero⟩ inner_nil))
    have hin : Inner ([EQ, Q, code] ++ t ++ QZM) := (htold.append ht.inner).append inner_mark
    have hend : ([EQ, Q, code] ++ t ++ QZM ++ [LF]).take 2 ≠ [EQ, EQ] := by
      intro heq
      exact absurd (List.cons.inj (List.cons.inj heq).2).1 (by decide)
    exact h.carries hin hlen fun c hgoing =>
      Client.recv_some hgoing hin.cstr hend (ht.QZdecode_told hroom c.ctx code)

/-- The end of an agent. The path in the message ends with a blank, and another one follows. -/
theorem Leads.eof {p : List Byte} {d : Int} (h : Leads p d) :
    Carries d ([EQ, GT] ++ p ++ [SP] ++ [SP, EQ, EQ, CR, LF]) [SP, EQ, EQ, CR, LF] := by
  have hline : [EQ, GT] ++ p ++ [SP] ++ [SP, EQ, EQ, CR, LF] =
      [EQ, GT] ++ p ++ SP :: ([SP, EQ, EQ, CR] ++ [LF]) := by simp
  have hin := inner_eof
  rw [hline]
  refine h.carries hin ?_ fun c hgoing => ?_
  · have hshort := h.short
    simp only [List.length_append, List.length_cons, List.length_nil, OMSIZE]
    omega
  · have hgo : ¬c.ended = true := by
      rw [hgoing]
      decide
    have hend : ([SP, EQ, EQ, CR] ++ [LF]).take 2 ≠ [EQ, EQ] := by decide
    have hraw : QZdecode OMSIZE c.ctx ([SP, EQ, EQ, CR] ++ [LF]) = (none, c.ctx) := rfl
    have hrecv : c.recv ([SP, EQ, EQ, CR] ++ [LF]) =
        { c with out := c.out ++ [SP, EQ, EQ, CR, LF] } := by
      rw [Client.recv, hin.cstr, if_neg hgo, if_neg hend, Client.deWrite, hraw]
      rfl
    rw [hrecv]
    exact ⟨hgoing, rfl⟩

theorem Lines.plain {pfx s : List Byte} {ls : List (List Byte)} (h : Lines pfx ls s)
    (hpfx : Inner pfx) : ∀ c ∈ ls.flatten, c ≠ 0 := by
  have hmark : ∀ {t b : List Byte}, Spelt t b → ∀ c ∈ lineOf pfx t, c ≠ 0 := by
    intro t b ht c hc
    have hin : Inner (pfx ++ t ++ QZM) := (hpfx.append ht.inner).append inner_mark
    rcases List.mem_append.mp hc with hc | hc
    · exact (hin c hc).2
    · rw [List.mem_singleton.mp hc]
      decide
  induction h with
  | last ht =>
    rw [List.flatten_singleton]
    exact hmark ht
  | cons ht _ ih =>
    intro c hc
    rw [List.flatten_cons] at hc
    rcases List.mem_append.mp hc with hc | hc
    · exact hmark ht c hc
    · exact ih c hc

/-- The lines of a text add its bytes. -/
theorem Reads.lines {d dest : Int} {wire out pfx s : List Byte} {ls : List (List Byte)}
    (h : Reads d wire out) (hls : Lines pfx ls s)
    (hcarry : ∀ t b, Spelt t b → b.length ≤ s.length →
      (lineOf pfx t).length ≤ ls.flatten.length → Carries dest (lineOf pfx t) b) :
    Reads d (wire ++ ls.flatten) (out ++ if dest = d then s else []) := by
  induction hls generalizing wire out with
  | last ht =>
    rw [List.flatten_singleton] at hcarry ⊢
    exact h.message (hcarry _ _ ht (Nat.le_refl _) (Nat.le_refl _))
  | @cons t b s ls ht _ ih =>
    rw [List.flatten_cons] at hcarry ⊢
    have hline := hcarry t b ht (by rw [List.length_append]; omega)
      (by rw [List.length_append]; omega)
    have hrest := ih (h.message hline) fun t' b' ht' hb hlen =>
      hcarry t' b' ht' (by rw [List.length_append]; omega) (by rw [List.length_append]; omega)
    rw [List.append_assoc, List.append_assoc] at hrest
    split at hrest
    · rename_i hd
      rwa [if_pos hd]
    · rename_i hd
      rwa [if_neg hd]

/-! ## Runs of the vehicle -/

/-- The encoded bytes fit into a message of the daemon. -/
def Vehicle.Fits (MY_QZ : Byte) (v : Vehicle) : Act → Prop
  | .data i ibuf => ibuf.length ≤ IMSIZE ∧
    (QZencode OMSIZE (v.agents i).ctx ((v.agents i).xpath MY_QZ) ibuf).length < MSGSIZE
  | _ => True

/-- What an act means for the client `d`, where the agents lead to the clients `dest`. -/
def given (dest : Nat → Int) (d : Int) : Act → List Byte
  | .data i ibuf => if dest i = d then ibuf else []
  | .eof i => if dest i = d then [SP, EQ, EQ, CR, LF] else []
  | .told _ _ => []

section

variable {MY_QZ : Byte} {dest : Nat → Int} {d : Int} {v v' : Vehicle} {out : List Byte}

theorem set_path (v : Vehicle) (i : Nat) (a : Agent) (h : a.a_path = (v.agents i).a_path)
    (j : Nat) : ((v.set i a).agents j).a_path = (v.agents j).a_path := by
  change (Function.update v.agents i a j).a_path = (v.agents j).a_path
  by_cases hj : j = i
  · rw [hj, Function.update_self, h]
  · rw [Function.update_of_ne hj]

theorem Leads.path {a : Agent} {d : Int} (h : Leads a.a_path d) : Inner a.path :=
  (inner_bound.append h.inner).append (.cons (by decide) inner_nil)

theorem Leads.xpath {a : Agent} {d : Int} (h : Leads a.a_path d) (hqz : MY_QZ = 49 ∨ MY_QZ = 51) :
    ∃ q, a.xpath MY_QZ = [EQ, GT] ++ a.a_path ++ [SP] ++ q ∧ Inner (a.xpath MY_QZ) ∧
      (q = [] ∨ ∃ code, q = [EQ, Q, code] ∧ code ≠ LF ∧ code ≠ 0) := by
  have hcode : MY_QZ ≠ LF ∧ MY_QZ ≠ 0 := by
    rcases hqz with rfl | rfl <;> decide
  rw [Agent.xpath]
  split
  · exact ⟨[], rfl, h.path.append inner_nil, .inl rfl⟩
  · refine ⟨[EQ, Q, MY_QZ], rfl, h.path.append ?_, .inr ⟨MY_QZ, rfl, hcode⟩⟩
    exact .cons (by decide) (.cons (by decide) (.cons hcode inner_nil))

/-- A step adds at each client what it means for it. -/
theorem step_reads (hqz : MY_QZ = 49 ∨ MY_QZ = 51) (hlead : ∀ i, Leads (v.agents i).a_path (dest i))
    {act : Act} (hstep : v.step MY_QZ act = some v') (hfits : v.Fits MY_QZ act)
    (h : Reads d v.wire out) :
    Reads d v'.wire (out ++ given dest d act) ∧
      ∀ j, (v'.agents j).a_path = (v.agents j).a_path := by
  cases act with
  | data i ibuf =>
    obtain ⟨hsize, hmsg⟩ := hfits
    obtain ⟨q, hxpath, hinner, hq⟩ := (hlead i).xpath hqz
    rw [Vehicle.step] at hstep
    split at hstep
    · cases hstep
    · rename_i hhas
      cases hstep
      have hroom : (QZencode OMSIZE (v.agents i).ctx ((v.agents i).xpath MY_QZ) ibuf).length <
          OMSIZE := hmsg.trans (by decide)
      obtain ⟨ls, hls, htext⟩ := QZencode_lines (fun hnil => hhas (.inr hnil)) hroom
      have hcstr : ls.flatten.takeWhile (· ≠ 0) = ls.flatten := by
        rw [List.takeWhile_eq_self_iff]
        exact fun c hc => decide_eq_true (hls.plain hinner c hc)
      refine ⟨?_, set_path v i { v.agents i with a_sentQZ := true } rfl⟩
      rw [Vehicle.fputs, htext, hcstr]
      refine h.lines hls fun t b ht hb hlen => ?_
      have hshort : (lineOf ((v.agents i).xpath MY_QZ) t).length < OMSIZE := by
        rw [← htext] at hlen
        omega
      rw [hxpath] at hshort ⊢
      refine (hlead i).line hq ht (hb.trans (hsize.trans (by decide))) hshort
  | eof i =>
    rw [Vehicle.step] at hstep
    split at hstep
    · cases hstep
    · cases hstep
      have hin : Inner ((v.agents i).path ++ [SP, EQ, EQ, CR]) := (hlead i).path.append inner_eof
      have hmsg : (v.agents i).path ++ [SP, EQ, EQ, CR, LF] =
          (v.agents i).path ++ [SP, EQ, EQ, CR] ++ [LF] := by simp
      refine ⟨?_, set_path v i { v.agents i with a_zomb := true } rfl⟩
      rw [Vehicle.fputs, hmsg, hin.cstr, ← hmsg]
      exact h.message (hlead i).eof
  | told i code =>
    rw [Vehicle.step] at hstep
    split at hstep
    · cases hstep
    · cases hstep
      refine ⟨?_, set_path v i { v.agents i with ctx := QZswitch (v.agents i).ctx code } rfl⟩
      rw [given, List.append_nil]
      exact h

theorem run_reads (hqz : MY_QZ = 49 ∨ MY_QZ = 51)
    (hlead : ∀ i, Leads (v.agents i).a_path (dest i)) {acts : List Act}
    (hrun : runs.Run (Vehicle.step MY_QZ) (Vehicle.Fits MY_QZ) v acts v')
    (h : Reads d v.wire out) : Reads d v'.wire (out ++ acts.flatMap (given dest d)) := by
  obtain ⟨hexec, hmeets⟩ := hrun
  induction acts generalizing v out with
  | nil =>
    cases hexec
    rwa [List.flatMap_nil, List.append_nil]
  | cons act acts ih =>
    obtain ⟨t, ht, hexec⟩ := Option.bind_eq_some_iff.mp hexec
    obtain ⟨hfits, hmeets⟩ := hmeets t ht
    obtain ⟨hreads, hpaths⟩ := step_reads hqz hlead ht hfits h
    have hrest := ih (fun i => by rw [hpaths i]; exact hlead i) hreads hexec hmeets
    rwa [List.flatMap_cons, ← List.append_assoc]

/-- In every run of a vehicle each client writes the bytes that its agents read, in their order. Of
the end of an agent it writes the message, and it does not end itself. -/
theorem run_relayed (hqz : MY_QZ = 49 ∨ MY_QZ = 51) (hwire : v.wire = [])
    (hlead : ∀ i, Leads (v.agents i).a_path (dest i)) {acts : List Act}
    (hrun : runs.Run (Vehicle.step MY_QZ) (Vehicle.Fits MY_QZ) v acts v') (d : Int) :
    (Client.init.run (toClient d v'.wire)).out = acts.flatMap (given dest d) ∧
      (Client.init.run (toClient d v'.wire)).ended = false := by
  have hstart : Reads d v.wire [] := by
    rw [hwire]
    exact .nil d
  have hend := run_reads hqz hlead hrun hstart
  exact ⟨hend.out, hend.going⟩

/-- Two agents, with the paths "1!a/5" and "2!b/6". -/
def twoAgents : Vehicle :=
  ⟨fun i => ⟨if i = 0 then [49, 33, 97, 47, 53] else [50, 33, 98, 47, 54], false, false, none⟩, []⟩

theorem twoAgents_leads (i : Nat) :
    Leads (twoAgents.agents i).a_path (if i = 0 then 5 else 6) := by
  by_cases hi : i = 0
  · rw [if_pos hi]
    change Leads (if i = 0 then _ else _) 5
    rw [if_pos hi]
    exact ⟨by decide, by simp [Inner, LF], by simp [SP], by decide⟩
  · rw [if_neg hi]
    change Leads (if i = 0 then _ else _) 6
    rw [if_neg hi]
    exact ⟨by decide, by simp [Inner, LF], by simp [SP], by decide⟩

theorem run_relayed_two :
    ∃ v, runs.Run (Vehicle.step 51) (Vehicle.Fits 51) twoAgents
        [.data 0 [72, 0, 0, 65], .data 1 [1, 2], .told 0 51, .data 0 [0, 61, 255], .eof 0] v ∧
      (Client.init.run (toClient 5 v.wire)).out =
        [72, 0, 0, 65, 0, 61, 255, SP, EQ, EQ, CR, LF] ∧
      (Client.init.run (toClient 5 v.wire)).ended = false := by
  have hrun : runs.Run (Vehicle.step 51) (Vehicle.Fits 51) twoAgents
      [.data 0 [72, 0, 0, 65], .data 1 [1, 2], .told 0 51, .data 0 [0, 61, 255], .eof 0] _ :=
    .cons rfl ⟨by decide, by decide⟩ (.cons rfl ⟨by decide, by decide⟩ (.cons rfl trivial
      (.cons rfl ⟨by decide, by decide⟩ (.cons rfl trivial (.nil _)))))
  have hend := run_relayed (.inr rfl) rfl twoAgents_leads hrun 5
  exact ⟨_, hrun, hend.1.trans (by decide), hend.2⟩

end

end delegate.qz
