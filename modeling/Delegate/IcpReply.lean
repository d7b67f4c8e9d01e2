-- The replies of icp_server in icp.cpp. A query is read into a buffer that keeps
-- the bytes of earlier ones, and its URL is taken as a C string from there. The
-- reply depends on the query alone exactly if the URL ends within the bytes that
-- were received and no cached object is too short to tell if it is one.
import Mathlib

namespace delegate.icp

/-! ## The pure model -/

def MAX_PACKSIZE : Nat := 16384

def HEADSIZE : Nat := 20

/-- The URL of a query is behind the head and the address of the requester. -/
def URLOFF : Nat := 24

def ICP_OP_QUERY : UInt8 := 1
def ICP_OP_HIT : UInt8 := 2
def ICP_OP_MISS : UInt8 := 3
def ICP_OP_ERR : UInt8 := 4
def ICP_OP_MISS_NOFETCH : UInt8 := 21
def ICP_OP_DENIED : UInt8 := 22
def ICP_OP_HIT_OBJ : UInt8 := 23

def MY_ICP_VER : UInt8 := 2

def ICP_HIT_AGE : Int := 24 * 60 * 60

def HIT_OBJ_AGE : Int := 60 * 60

def HIT_OBJ_SIZE_MAX : Nat := 1024

abbrev Bytes := List UInt8

/-- What `decomp_absurl` and `scan_hostport` make of a URL. -/
structure Url where
  proto : Bytes
  host : Bytes
  port : Int
  upath : Bytes

/-- A file of the cache: its size, its age, if it can be locked, and what `fread` gets then. -/
structure CacheFile where
  fsize : Nat
  fage : Int
  locked : Bool
  data : Bytes

/-- The cache and the configuration, which has no further ICP servers. -/
structure Env where
  decomp : Bytes → Url
  service_permitted : Bytes × Nat → Url → Bool
  method_permitted : Bool
  cachedir : Bool
  nofetch : Bytes → Bool
  dirfopen : Url → Option CacheFile

/-- The buffers, with what earlier queries have left: `qpack` and the bytes behind it up to a NUL,
`fbuff`, and `rpack` with the bytes behind it. -/
structure Mem where
  qpack : Bytes
  behind : Bytes
  fbuff : Bytes
  rpack : Bytes
  qpack_size : qpack.length = MAX_PACKSIZE
  fbuff_size : MAX_PACKSIZE ≤ fbuff.length

/-- Bytes at the start of a buffer. -/
def overlay (new old : Bytes) : Bytes := new ++ old.drop new.length

theorem length_overlay {new old : Bytes} (h : new.length ≤ old.length) :
    (overlay new old).length = old.length := by
  unfold overlay
  rw [List.length_append, List.length_drop]
  omega

/-- `RecvFrom` into `qpack`. -/
def Mem.recv (m : Mem) (d : Bytes) : Mem :=
  { m with
    qpack := overlay (d.take MAX_PACKSIZE) m.qpack
    qpack_size := by
      rw [length_overlay, m.qpack_size]
      rw [List.length_take, m.qpack_size]
      omega }

/-- `IQ_URL`, up to the first NUL. -/
def Mem.url (m : Mem) : Bytes := ((m.qpack ++ m.behind).drop URLOFF).takeWhile (· != 0)

/-- The bits of `IH_OPTIONS`. -/
def Mem.options (m : Mem) : Nat :=
  ((m.qpack.drop 8).take 4).foldl (fun n b => n * 256 + b.toNat) 0

def ICP_FLAG_X_NAVI : Nat := 27

def ICP_FLAG_HIT_OBJ : Nat := 31

/-- `HTTP/` -/
def httpHead : Bytes := [72, 84, 84, 80, 47]

def valid_object (obj : Bytes) : Bool := obj.take 5 == httpHead

def MISScode (env : Env) (host : Bytes) : UInt8 :=
  if env.nofetch host then ICP_OP_MISS_NOFETCH else ICP_OP_MISS

/-- The object of a file may be sent with the reply. -/
def sendsObject (env : Env) (url : Bytes) (options : Nat) (f : CacheFile) : Bool :=
  options.testBit ICP_FLAG_HIT_OBJ && env.method_permitted && decide (f.fage < HIT_OBJ_AGE) &&
    decide (f.fsize < HIT_OBJ_SIZE_MAX) &&
    decide (HEADSIZE + url.length + 1 + 4 + f.fsize < MAX_PACKSIZE) && f.locked

/-- The code of the reply, the object that is sent, and what is read into `fbuff`. -/
def answer (env : Env) (src : Bytes × Nat) (url : Bytes) (options : Nat) (fbuff : Bytes) :
    UInt8 × Option Bytes × Option Bytes :=
  let u := env.decomp url
  if u.host = [] ∨ u.port ≤ 0 then (ICP_OP_ERR, none, none)
  else if !env.service_permitted src u then (ICP_OP_DENIED, none, none)
  else if env.cachedir then
    match env.dirfopen u with
    | none => (MISScode env u.host, none, none)
    | some f =>
      if f.fage < ICP_HIT_AGE then
        if sendsObject env url options f then
          if f.data.length = f.fsize ∧ valid_object (overlay f.data fbuff) then
            (ICP_OP_HIT_OBJ, some f.data, some f.data)
          else (ICP_OP_HIT, none, some f.data)
        else (ICP_OP_HIT, none, none)
      else (MISScode env u.host, none, none)
  else if options.testBit ICP_FLAG_X_NAVI then (ICP_OP_DENIED, none, none)
  else (MISScode env u.host, none, none)

/-- A number in network order. -/
def be (size n : Nat) : Bytes :=
  (List.range size).map fun i => UInt8.ofNat (n / 256 ^ (size - 1 - i))

/-- `IB_URL` has a place for so many characters. -/
def URLMAX : Nat := 16363

/-- The message in `rpack`, and the number of its bytes that are sent. -/
def message (reqnum url : Bytes) (code : UInt8) (object : Option Bytes) : Bytes × Nat :=
  let msglen := HEADSIZE + url.length + 1 + (object.elim 0 fun o => 4 + o.length)
  let options := if object.isSome then be 4 (2 ^ ICP_FLAG_HIT_OBJ) else be 4 0
  ([code, MY_ICP_VER] ++ be 2 msglen ++ reqnum ++ options ++ be 4 0 ++ be 4 0 ++
      (url.take URLMAX ++ [0]) ++ (object.elim [] fun o => be 4 o.length ++ o),
    msglen)

theorem length_le_overlay (new old : Bytes) : old.length ≤ (overlay new old).length := by
  unfold overlay
  rw [List.length_append, List.length_drop]
  omega

/-- `icp_reply` for a query: the buffers, and what is sent. -/
def icp_reply (env : Env) (src : Bytes × Nat) (m : Mem) : Mem × Bytes :=
  let a := answer env src m.url m.options m.fbuff
  let msg := message ((m.qpack.drop 4).take 4) m.url a.1 a.2.1
  ({ m with
      fbuff := overlay (a.2.2.getD []) m.fbuff
      fbuff_size := m.fbuff_size.trans (length_le_overlay _ _)
      rpack := overlay msg.1 m.rpack },
    (overlay msg.1 m.rpack).take msg.2)

/-- A datagram with its sender, at a time with its cache and configuration. -/
structure Datagram where
  env : Env
  data : Bytes
  src : Bytes × Nat

/-- `0.0.0.0` -/
def anyAddr : Bytes := [48, 46, 48, 46, 48, 46, 48]

/-- One turn of the loop of `icp_server`. -/
def serve (m : Mem) (d : Datagram) : Mem × Option Bytes :=
  let m1 := m.recv d.data
  if d.data = [] ∨ d.src.1 = anyAddr then (m1, none)
  else if m1.qpack.head? ≠ some ICP_OP_QUERY then (m1, none)
  else
    let r := icp_reply d.env d.src m1
    (r.1, some r.2)

def icp_server (m : Mem) (history : List Datagram) : Mem :=
  history.foldl (fun m d => (serve m d).1) m

/-! ## What replies depend on -/

/-- The reply is the same after any history, whatever was in the buffers at first. -/
def Alone (d : Datagram) : Prop :=
  ∀ m m' history history',
    (serve (icp_server m history) d).2 = (serve (icp_server m' history') d).2

/-- `IH_MSGLEN` of a message. -/
def msglenOf (msg : Bytes) : Nat := (msg.getD 2 0).toNat * 256 + (msg.getD 3 0).toNat

/-- The length in a reply is that of the reply, which fits a packet. -/
def Sized (d : Datagram) : Prop :=
  ∀ m history msg, (serve (icp_server m history) d).2 = some msg →
    msglenOf msg = msg.length ∧ msg.length ≤ MAX_PACKSIZE

/-- A query that gets a reply. -/
def Datagram.answered (d : Datagram) : Prop :=
  d.data.head? = some ICP_OP_QUERY ∧ d.src.1 ≠ anyAddr

/-- The part of the datagram from the URL on. -/
def Datagram.tail (d : Datagram) : Bytes := (d.data.take MAX_PACKSIZE).drop URLOFF

/-- The URL ends in the datagram. -/
def Datagram.ends (d : Datagram) : Prop := 0 ∈ d.tail

def Datagram.url (d : Datagram) : Bytes := d.tail.takeWhile (· != 0)

def Datagram.options (d : Datagram) : Nat :=
  ((d.data.drop 8).take 4).foldl (fun n b => n * 256 + b.toNat) 0

/-- The file whose object may be sent. -/
def Datagram.object (d : Datagram) (f : CacheFile) : Prop :=
  ((d.env.decomp d.url).host ≠ [] ∧ 0 < (d.env.decomp d.url).port) ∧
    d.env.service_permitted d.src (d.env.decomp d.url) = true ∧ d.env.cachedir = true ∧
    d.env.dirfopen (d.env.decomp d.url) = some f ∧ f.fage < ICP_HIT_AGE ∧
    sendsObject d.env d.url d.options f = true ∧ f.data.length = f.fsize

/-- A file that may be sent shows if it is an object. -/
def Datagram.telling (d : Datagram) : Prop :=
  ∀ f, d.object f → 5 ≤ f.data.length ∨ ¬ f.data <+: httpHead

/-! ## The buffers -/

theorem qpack_recv (m : Mem) (d : Bytes) :
    (m.recv d).qpack = d.take MAX_PACKSIZE ++ m.qpack.drop (d.take MAX_PACKSIZE).length := rfl

theorem head_recv (m : Mem) {d : Bytes} (h : d ≠ []) : (m.recv d).qpack.head? = d.head? := by
  cases d with
  | nil => exact absurd rfl h
  | cons b d => rfl

/-- A reply is made from `qpack` if the datagram is a query. -/
theorem serve_answered (m : Mem) {d : Datagram} (h : d.answered) :
    (serve m d).2 = some (icp_reply d.env d.src (m.recv d.data)).2 := by
  have hne : d.data ≠ [] := by
    intro hnil
    have := h.1
    rw [hnil] at this
    cases this
  unfold serve
  dsimp only
  rw [if_neg (by simp [hne, h.2]), head_recv m hne, h.1, if_neg (by simp)]

theorem serve_unanswered (m : Mem) {d : Datagram} (h : ¬ d.answered) : (serve m d).2 = none := by
  unfold serve
  dsimp only
  split
  · rfl
  · rename_i hsent
    obtain ⟨hne, hsrc⟩ := not_or.mp hsent
    rw [head_recv m hne]
    split
    · rfl
    · rename_i hquery
      exact absurd ⟨not_not.mp hquery, hsrc⟩ h

theorem takeWhile_append_of_zero {s t : Bytes} (h : 0 ∈ s) :
    (s ++ t).takeWhile (· != 0) = s.takeWhile (· != 0) := by
  induction s with
  | nil => cases h
  | cons b s ih =>
    by_cases hb : b = 0
    · simp [hb]
    · have hs : 0 ∈ s := (List.mem_cons.mp h).resolve_left (Ne.symm hb)
      simp [hb, ih hs]

/-- Bytes that were received are read as they were sent. -/
theorem slice_recv (m : Mem) {d : Bytes} {k l : Nat} (h : k + l ≤ (d.take MAX_PACKSIZE).length) :
    ((m.recv d).qpack.drop k).take l = (d.drop k).take l := by
  have hlen := h
  rw [List.length_take] at hlen
  rw [qpack_recv, List.drop_append_of_le_length (by omega),
    List.take_append_of_le_length (by rw [List.length_drop]; omega), List.drop_take, List.take_take,
    min_eq_left (by omega)]

theorem Datagram.ends.length {d : Datagram} (h : d.ends) :
    URLOFF < (d.data.take MAX_PACKSIZE).length := by
  have hpos := List.length_pos_of_mem h
  unfold Datagram.tail at hpos
  rw [List.length_drop] at hpos
  omega

theorem Datagram.ends.url_recv {d : Datagram} (h : d.ends) (m : Mem) :
    (m.recv d.data).url = d.url := by
  have hlen := Datagram.ends.length h
  unfold Mem.url
  rw [qpack_recv, List.append_assoc, List.drop_append_of_le_length hlen.le]
  exact takeWhile_append_of_zero h

theorem Datagram.ends.options_recv {d : Datagram} (h : d.ends) (m : Mem) :
    (m.recv d.data).options = d.options := by
  have hlen := Datagram.ends.length h
  unfold URLOFF at hlen
  unfold Mem.options
  rw [slice_recv m (by omega)]
  rfl

theorem Datagram.ends.reqnum_recv {d : Datagram} (h : d.ends) (m : Mem) :
    ((m.recv d.data).qpack.drop 4).take 4 = (d.data.drop 4).take 4 := by
  have hlen := Datagram.ends.length h
  unfold URLOFF at hlen
  exact slice_recv m (by omega)

theorem length_reqnum (m : Mem) : ((m.qpack.drop 4).take 4).length = 4 := by
  rw [List.length_take, List.length_drop, m.qpack_size]
  rfl

/-- The URL of a datagram fits the reply. -/
theorem Datagram.ends.length_url {d : Datagram} (h : d.ends) :
    d.url.length + URLOFF < MAX_PACKSIZE := by
  have hlt : d.url.length < d.tail.length := by
    unfold Datagram.url
    apply lt_of_le_of_ne (List.takeWhile_sublist _).length_le
    intro heq
    have hall := List.takeWhile_eq_self_iff.mp ((List.takeWhile_sublist _).eq_of_length heq) 0 h
    simp at hall
  unfold Datagram.tail at hlt
  rw [List.length_drop, List.length_take] at hlt
  omega

/-! ## The message -/

theorem length_be (size n : Nat) : (be size n).length = size := by
  unfold be
  simp

theorem length_message {reqnum url : Bytes} {code : UInt8} {object : Option Bytes}
    (hreq : reqnum.length = 4) (hurl : url.length ≤ URLMAX) :
    (message reqnum url code object).1.length = (message reqnum url code object).2 := by
  unfold message
  cases object with
  | none =>
    simp [length_be, hreq, HEADSIZE, List.length_take, min_eq_right hurl]
    omega
  | some o =>
    simp [length_be, hreq, HEADSIZE, List.length_take, min_eq_right hurl]
    omega

theorem msglenOf_message (reqnum url : Bytes) (code : UInt8) (object : Option Bytes)
    (h : (message reqnum url code object).2 < 65536) :
    msglenOf (message reqnum url code object).1 = (message reqnum url code object).2 := by
  have hbe : be 2 (message reqnum url code object).2 =
      [UInt8.ofNat ((message reqnum url code object).2 / 256),
        UInt8.ofNat (message reqnum url code object).2] := by
    unfold be
    simp [List.range_succ]
  have hmsg : ∃ rest, (message reqnum url code object).1 =
      code :: MY_ICP_VER :: (be 2 (message reqnum url code object).2 ++ rest) := by
    unfold message
    exact ⟨_, by simp only [List.append_assoc]; rfl⟩
  obtain ⟨rest, hmsg⟩ := hmsg
  rw [hbe] at hmsg
  rw [hmsg]
  unfold msglenOf
  simp
  omega

/-- Enough of `rpack` is written. -/
theorem sent_eq {msg : Bytes × Nat} (h : msg.1.length = msg.2) (rpack : Bytes) :
    (overlay msg.1 rpack).take msg.2 = msg.1 := by
  unfold overlay
  rw [← h, List.take_left]

/-! ## The object -/

/-- If a file is an object shows in what is read. -/
theorem valid_object_overlay {data fbuff : Bytes} (h : 5 ≤ data.length ∨ ¬ data <+: httpHead) :
    valid_object (overlay data fbuff) = (decide (5 ≤ data.length) && valid_object data) := by
  unfold valid_object overlay
  by_cases hlen : 5 ≤ data.length
  · rw [List.take_append_of_le_length hlen, decide_eq_true hlen, Bool.true_and]
  · rw [decide_eq_false hlen, Bool.false_and, beq_eq_false_iff_ne]
    intro heq
    apply h.resolve_left hlen
    rw [← heq, List.take_append, List.take_of_length_le (by omega)]
    exact List.prefix_append _ _

theorem answer_telling {d : Datagram} (h : d.telling) (fbuff fbuff' : Bytes) :
    answer d.env d.src d.url d.options fbuff = answer d.env d.src d.url d.options fbuff' := by
  unfold answer
  dsimp only
  split
  · rfl
  rename_i hhost
  split
  · rfl
  rename_i hperm
  split
  · rename_i hdir
    cases hfile : d.env.dirfopen (d.env.decomp d.url) with
    | none => rfl
    | some f =>
      dsimp only
      split
      · rename_i hage
        split
        · rename_i hsends
          by_cases hread : f.data.length = f.fsize
          · obtain ⟨hh, hp⟩ := not_or.mp hhost
            have htell := h f ⟨⟨hh, by omega⟩, by simpa using hperm, hdir, hfile, hage, hsends, hread⟩
            rw [valid_object_overlay htell, valid_object_overlay htell]
          · simp [hread]
        · rfl
      · rfl
  · rfl

/-- An object that is sent fits a packet. -/
theorem answer_object {env : Env} {src : Bytes × Nat} {url : Bytes} {options : Nat} {fbuff o : Bytes}
    (h : (answer env src url options fbuff).2.1 = some o) :
    HEADSIZE + url.length + 1 + 4 + o.length < MAX_PACKSIZE := by
  unfold answer at h
  dsimp only at h
  split at h
  · cases h
  split at h
  · cases h
  split at h
  · split at h
    · cases h
    · split at h
      · split at h
        · rename_i hsends
          split at h
          · rename_i hread
            cases h
            unfold sendsObject at hsends
            simp only [Bool.and_eq_true, decide_eq_true_eq] at hsends
            rw [hread.1]
            exact hsends.1.2
          · cases h
        · cases h
      · cases h
  · split at h <;> cases h

/-- All bytes of a reply are written, if the URL fits. -/
theorem icp_reply_sent (env : Env) (src : Bytes × Nat) {m : Mem} (hurl : m.url.length ≤ URLMAX) :
    (icp_reply env src m).2 =
      (message ((m.qpack.drop 4).take 4) m.url (answer env src m.url m.options m.fbuff).1
        (answer env src m.url m.options m.fbuff).2.1).1 :=
  sent_eq (length_message (length_reqnum m) hurl) m.rpack

/-! ## Whole queries -/

theorem Datagram.ends.url_le {d : Datagram} (h : d.ends) : d.url.length ≤ URLMAX := by
  have hlen := h.length_url
  unfold URLOFF MAX_PACKSIZE at hlen
  unfold URLMAX
  omega

theorem alone_of_whole {d : Datagram} (h : d.answered → d.ends ∧ d.telling) : Alone d := by
  intro m m' history history'
  by_cases hans : d.answered
  · obtain ⟨hends, htell⟩ := h hans
    rw [serve_answered _ hans, serve_answered _ hans,
      icp_reply_sent _ _ (by rw [hends.url_recv]; exact hends.url_le),
      icp_reply_sent _ _ (by rw [hends.url_recv]; exact hends.url_le)]
    simp only [hends.url_recv, hends.options_recv, hends.reqnum_recv]
    rw [answer_telling htell]
  · rw [serve_unanswered _ hans, serve_unanswered _ hans]

theorem sized_of_whole {d : Datagram} (h : d.answered → d.ends ∧ d.telling) : Sized d := by
  intro m history msg hmsg
  by_cases hans : d.answered
  · obtain ⟨hends, -⟩ := h hans
    have hurl : ((icp_server m history).recv d.data).url.length ≤ URLMAX := by
      rw [hends.url_recv]
      exact hends.url_le
    rw [serve_answered _ hans, icp_reply_sent _ _ hurl, Option.some.injEq] at hmsg
    subst hmsg
    have hfits := hends.length_url
    rw [← hends.url_recv (icp_server m history)] at hfits
    generalize (icp_server m history).recv d.data = m1 at hurl hfits ⊢
    have hobject : ∀ o, (answer d.env d.src m1.url m1.options m1.fbuff).2.1 = some o →
        HEADSIZE + m1.url.length + 1 + 4 + o.length < MAX_PACKSIZE := fun o ho => answer_object ho
    have hlen : (message ((m1.qpack.drop 4).take 4) m1.url
        (answer d.env d.src m1.url m1.options m1.fbuff).1
        (answer d.env d.src m1.url m1.options m1.fbuff).2.1).2 ≤ MAX_PACKSIZE := by
      unfold message
      generalize (answer d.env d.src m1.url m1.options m1.fbuff).2.1 = object at hobject
      unfold URLOFF at hfits
      unfold HEADSIZE
      cases object with
      | none =>
        dsimp only [Option.elim]
        omega
      | some o =>
        have ho := hobject o rfl
        unfold HEADSIZE at ho
        dsimp only [Option.elim]
        omega
    rw [length_message (length_reqnum m1) hurl]
    refine ⟨msglenOf_message _ _ _ _ ?_, hlen⟩
    unfold MAX_PACKSIZE at hlen
    omega
  · rw [serve_unanswered _ hans] at hmsg
    cases hmsg

/-! ## Other queries -/

/-- Buffers that are filled with one byte, with a text behind `qpack`. -/
def filled (b : UInt8) (behind fbuff : Bytes) : Mem where
  qpack := List.replicate MAX_PACKSIZE b
  behind := behind
  fbuff := fbuff ++ List.replicate MAX_PACKSIZE 0
  rpack := []
  qpack_size := List.length_replicate
  fbuff_size := by simp

theorem url_recv_filled (b : UInt8) (behind fbuff : Bytes) (d : Datagram) :
    ((filled b behind fbuff).recv d.data).url =
      (d.tail ++ (List.replicate (MAX_PACKSIZE - max URLOFF (d.data.take MAX_PACKSIZE).length) b ++
        behind)).takeWhile (· != 0) := by
  have hle : (d.data.take MAX_PACKSIZE).length ≤ MAX_PACKSIZE := by
    rw [List.length_take]
    omega
  unfold Mem.url Datagram.tail
  rw [qpack_recv]
  change ((d.data.take MAX_PACKSIZE ++ (List.replicate MAX_PACKSIZE b).drop
    (d.data.take MAX_PACKSIZE).length ++ behind).drop URLOFF).takeWhile _ = _
  rw [List.drop_replicate, List.drop_append_of_le_length, List.drop_append, List.drop_replicate,
    List.append_assoc]
  · congr 4
    omega
  · rw [List.length_append, List.length_replicate]
    unfold URLOFF MAX_PACKSIZE at *
    omega

/-- A byte of the URL, or the NUL behind it, in a reply. -/
theorem getElem_message {reqnum url : Bytes} (hreq : reqnum.length = 4) (hurl : url.length ≤ URLMAX)
    (code : UInt8) (object : Option Bytes) {i : Nat} (hi : i ≤ url.length) :
    (message reqnum url code object).1[HEADSIZE + i]? = (url ++ [0])[i]? := by
  unfold message
  dsimp only
  generalize hopt : (if object.isSome then be 4 (2 ^ ICP_FLAG_HIT_OBJ) else be 4 0) = options
  have hoptlen : options.length = 4 := by
    rw [← hopt]
    split <;> exact length_be _ _
  generalize hhead : [code, MY_ICP_VER] ++ be 2 (HEADSIZE + url.length + 1 +
    object.elim 0 fun o => 4 + o.length) ++ reqnum ++ options ++ be 4 0 ++ be 4 0 = head
  have hheadlen : head.length = HEADSIZE := by
    rw [← hhead]
    simp [length_be, hreq, hoptlen, HEADSIZE]
  rw [List.append_assoc, List.getElem?_append_right (by omega), hheadlen, Nat.add_sub_cancel_left,
    List.take_of_length_le hurl, List.getElem?_append_left (by simp; omega)]

/-- A URL that does not end in the datagram goes on with what is in the buffer. -/
theorem ends_of_alone {d : Datagram} (hans : d.answered) (h : Alone d) : d.ends := by
  by_contra hends
  have htail : ∀ b ∈ d.tail, (b != 0) = true := by
    intro b hb
    have hne : b ≠ 0 := fun heq => hends (show (0 : UInt8) ∈ d.tail from heq ▸ hb)
    simpa using hne
  have hlen : d.tail.length + URLOFF ≤ MAX_PACKSIZE := by
    unfold Datagram.tail
    rw [List.length_drop, List.length_take]
    unfold URLOFF MAX_PACKSIZE
    omega
  -- the buffer is empty behind the datagram, or full of the letter a
  have hzero : ((filled 0 [] []).recv d.data).url = d.tail := by
    rw [url_recv_filled, List.takeWhile_append_of_pos htail]
    simp
  obtain ⟨k, hk, hfull⟩ : ∃ k, d.tail.length + k + 1 ≤ URLMAX ∧
      ((filled 97 [97] []).recv d.data).url = d.tail ++ List.replicate (k + 1) 97 := by
    refine ⟨MAX_PACKSIZE - max URLOFF (d.data.take MAX_PACKSIZE).length, ?_, ?_⟩
    · unfold Datagram.tail at hlen ⊢
      rw [List.length_drop] at hlen ⊢
      unfold URLMAX URLOFF MAX_PACKSIZE at *
      omega
    · rw [url_recv_filled, List.takeWhile_append_of_pos htail, List.replicate_succ']
      congr 1
      rw [List.takeWhile_eq_self_iff]
      intro b hb
      have hb : b = 97 := by
        rcases List.mem_append.mp hb with hb | hb
        · exact List.eq_of_mem_replicate hb
        · exact List.mem_singleton.mp hb
      rw [hb]
      rfl
  have heq := h (filled 0 [] []) (filled 97 [97] []) [] []
  change (serve (filled 0 [] []) d).2 = (serve (filled 97 [97] []) d).2 at heq
  rw [serve_answered _ hans, serve_answered _ hans, Option.some.injEq,
    icp_reply_sent _ _ (by rw [hzero]; unfold URLMAX at *; omega),
    icp_reply_sent _ _ (by rw [hfull]; simpa [Nat.add_assoc] using hk)] at heq
  have hbyte := congrArg (fun msg : Bytes => msg[HEADSIZE + d.tail.length]?) heq
  rw [getElem_message (length_reqnum _) (by rw [hzero]; unfold URLMAX at *; omega) _ _
      (by rw [hzero]),
    getElem_message (length_reqnum _) (by rw [hfull]; simpa [Nat.add_assoc] using hk) _ _
      (by rw [hfull]; simp),
    hzero, hfull] at hbyte
  simp [List.replicate_succ] at hbyte

theorem answer_of_object {d : Datagram} {f : CacheFile} (h : d.object f) (fbuff : Bytes) :
    (answer d.env d.src d.url d.options fbuff).1 =
      if valid_object (overlay f.data fbuff) then ICP_OP_HIT_OBJ else ICP_OP_HIT := by
  obtain ⟨⟨hhost, hport⟩, hperm, hdir, hfile, hage, hsends, hread⟩ := h
  unfold answer
  dsimp only
  rw [if_neg (by simp [hhost]; omega), if_neg (by simp [hperm]), if_pos hdir, hfile]
  dsimp only
  rw [if_pos hage, if_pos hsends]
  by_cases hvalid : valid_object (overlay f.data fbuff) = true
  · rw [if_pos ⟨hread, hvalid⟩, if_pos hvalid]
  · rw [if_neg (by simp [hvalid]), if_neg hvalid]

/-- A file that is too short is one or not with what is in `fbuff`. -/
theorem telling_of_alone {d : Datagram} (hans : d.answered) (hends : d.ends) (h : Alone d) :
    d.telling := by
  intro f hf
  by_contra hbad
  obtain ⟨hshort, hpre⟩ := not_or.mp hbad
  obtain ⟨rest, hrest⟩ := not_not.mp hpre
  have hvalid : valid_object (overlay f.data (filled 0 [] httpHead).fbuff) = true := by
    have hover : overlay f.data (filled 0 [] httpHead).fbuff =
        httpHead ++ List.replicate MAX_PACKSIZE 0 := by
      unfold overlay filled
      dsimp only
      rw [← hrest, List.append_assoc, List.drop_left]
    unfold valid_object
    rw [hover, List.take_left' (by rfl)]
    rfl
  have hinvalid : valid_object (overlay f.data (filled 0 [] []).fbuff) = false := by
    have hbyte : ((overlay f.data (filled 0 [] []).fbuff).take 5)[f.data.length]? = some 0 := by
      rw [List.getElem?_take_of_lt (by omega)]
      unfold overlay filled
      dsimp only
      rw [List.getElem?_append_right (le_refl _), List.nil_append, List.drop_replicate]
      rw [Nat.sub_self, List.getElem?_replicate_of_lt (by unfold MAX_PACKSIZE; omega)]
    unfold valid_object
    rw [beq_eq_false_iff_ne]
    intro heq
    rw [heq] at hbyte
    exact absurd (List.mem_of_getElem? hbyte) (by decide)
  have heq := h (filled 0 [] []) (filled 0 [] httpHead) [] []
  change (serve (filled 0 [] []) d).2 = (serve (filled 0 [] httpHead) d).2 at heq
  rw [serve_answered _ hans, serve_answered _ hans, Option.some.injEq,
    icp_reply_sent _ _ (by rw [hends.url_recv]; exact hends.url_le),
    icp_reply_sent _ _ (by rw [hends.url_recv]; exact hends.url_le)] at heq
  have hcode := congrArg (fun msg : Bytes => msg.head?) heq
  simp only [hends.url_recv, hends.options_recv] at hcode
  change some (answer d.env d.src d.url d.options (filled 0 [] []).fbuff).1 =
    some (answer d.env d.src d.url d.options (filled 0 [] httpHead).fbuff).1 at hcode
  rw [answer_of_object hf, answer_of_object hf, hvalid, hinvalid] at hcode
  exact absurd hcode (by decide)

/-- A reply depends on its datagram alone, with its own length, exactly if the datagram is no query
that is answered, or its URL ends in it and the file to be sent shows if it is an object. -/
theorem alone_iff (d : Datagram) :
    Alone d ∧ Sized d ↔ (d.answered → d.ends ∧ d.telling) := by
  constructor
  · rintro ⟨halone, -⟩ hans
    have hends := ends_of_alone hans halone
    exact ⟨hends, telling_of_alone hans hends halone⟩
  · exact fun h => ⟨alone_of_whole h, sized_of_whole h⟩

/-- No URL has a host here, so that each query is an error. -/
def errors : Env where
  decomp := fun _ => ⟨[], [], 0, []⟩
  service_permitted := fun _ _ => true
  method_permitted := true
  cachedir := true
  nofetch := fun _ => false
  dirfopen := fun _ => none

/-- A query with the text behind its head. -/
def query (text : Bytes) : Datagram :=
  ⟨errors, ICP_OP_QUERY :: List.replicate 23 0 ++ text, ([49], 3130)⟩

/-- A query that ends before its URL gets the URL of the query before it. -/
theorem url_of_another : ¬ (Alone (query []) ∧ Sized (query [])) := by
  rintro ⟨halone, -⟩
  have hsame := halone (filled 0 [] []) (filled 0 [] []) [] [query [97, 98, 0]]
  have hother : (serve (icp_server (filled 0 [] []) []) (query [])).2 ≠
      (serve (icp_server (filled 0 [] []) [query [97, 98, 0]]) (query [])).2 := by
    decide +kernel
  exact hother hsame

end delegate.icp
