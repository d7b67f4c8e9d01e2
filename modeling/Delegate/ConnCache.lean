-- The cache of connections to servers in ccache.cpp: a process that keeps a
-- session writes its port into a file named after the login, and a look-up
-- connects to the port in the file. The name is one text, so that a look-up gets
-- the session of its own login unless another one has the same text.
import Delegate.CacheFormat
import Delegate.Runs

open ctext runs
open delegate.cache (decInt)

namespace delegate.conncache

/-! ## The pure model -/

structure Login where
  proto : Text
  user : Text
  host : Text
  port : Int
  deriving DecidableEq

/-- No user is the user `anonymous`. -/
def Login.named (t : Login) : Login :=
  if t.user = [] then { t with user := "anonymous".toList } else t

def Login.text (t : Login) : Text :=
  t.named.proto ++ '-' :: (t.named.user ++ '-' :: (t.named.host ++ '-' :: decInt t.named.port))

/-- `sprintf` into a buffer of 1024 bytes. -/
def url (t : Login) : Text := t.text.take 1023

/-- The name of the file of a slot, also in a buffer of 1024 bytes. -/
def server (t : Login) (cci : Nat) : Text := (url t ++ '-' :: dec cci).take 1023

/-- The port and the process in the first line of each file. -/
abbrev Files := Text → Option (Int × Int)

/-- What the calls in the slots return, and the port of the socket that is opened. -/
structure Env where
  pid : Int := 0
  imCC : Bool := false
  reads : Nat → Bool := fun _ => true
  locks : Nat → Bool := fun _ => true
  writes : Nat → Bool := fun _ => true
  connects : Nat → Int → Bool := fun _ _ => true
  port : Int := 0

/-- `tryOpen` without `xnew`, in the slots that are left. A file whose port does not answer is
removed. -/
def readSlots (env : Env) (t : Login) : List Nat → Files → Files × Option Int
  | [], files => (files, none)
  | cci :: rest, files =>
    match files (server t cci) with
    | none => (files, none)
    | some (svport, svpid) =>
      if !env.reads cci then (files, none)
      else if !env.locks cci then readSlots env t rest files
      else if svpid = env.pid then readSlots env t rest files
      else if env.connects cci svport then (files, some svport)
      else readSlots env t rest (Function.update files (server t cci) none)

/-- `tryOpen` with `xnew`: the first slot without a file. -/
def writeSlots (env : Env) (t : Login) : List Nat → Files → Files × Option Int
  | [], files => (files, none)
  | cci :: rest, files =>
    if (files (server t cci)).isSome && env.reads cci then writeSlots env t rest files
    else if !env.writes cci then writeSlots env t rest files
    else (Function.update files (server t cci) (some (env.port, env.pid)), some env.port)

def tryOpen (MAX_CC : Nat) (env : Env) (t : Login) (xnew : Bool) (files : Files) :
    Files × Option Int :=
  if !xnew && env.imCC then (files, none)
  else if xnew then writeSlots env t (List.range MAX_CC) files
  else readSlots env t (List.range MAX_CC) files

/-- A login was registered with a port, or was connected to one. -/
inductive Event
  | wrote (t : Login) (port : Int)
  | read (t : Login) (port : Int)

structure State where
  files : Files
  log : List Event

/-- A call of `tryOpen`, or a process that removes its file when it ends. -/
inductive Act
  | tryOpen (t : Login) (xnew : Bool) (env : Env)
  | unlink (name : Text)

def step (MAX_CC : Nat) (st : State) : Act → Option State
  | .tryOpen t xnew env =>
    let r := tryOpen MAX_CC env t xnew st.files
    let events := r.2.toList.map fun port => if xnew then Event.wrote t port else Event.read t port
    some ⟨r.1, events ++ st.log⟩
  | .unlink name => some { st with files := Function.update st.files name none }

def init : State := ⟨fun _ => none, []⟩

/-! ## Own sessions -/

/-- A look-up connects only to a port that was registered for the same login. -/
def Own : List Event → Prop
  | [] => True
  | .read t port :: l => (∃ t', .wrote t' port ∈ l ∧ t'.named = t.named) ∧ Own l
  | .wrote _ _ :: l => Own l

/-- The names of all slots fit into the buffers. -/
def Fits (MAX_CC : Nat) (t : Login) : Prop :=
  ∀ cci < MAX_CC, (t.text ++ '-' :: dec cci).length ≤ 1023

/-- No other login that was registered before has the text of the one that is looked up. -/
def Distinct (MAX_CC : Nat) (st : State) : Act → Prop
  | .tryOpen t false _ => ∀ t' port, .wrote t' port ∈ st.log → t'.named ≠ t.named →
      Fits MAX_CC t ∧ Fits MAX_CC t' ∧ t'.text ≠ t.text
  | _ => True

theorem server_of_fits {MAX_CC : Nat} {t : Login} (h : Fits MAX_CC t) {cci : Nat}
    (hcci : cci < MAX_CC) : server t cci = t.text ++ '-' :: dec cci := by
  have hlen := h cci hcci
  have hurl : url t = t.text := by
    apply List.take_of_length_le
    rw [List.length_append] at hlen
    omega
  unfold server
  rw [hurl]
  exact List.take_of_length_le hlen

/-- The slot is behind the last `-`, so that a name has one text. -/
theorem text_eq_of_server_eq {MAX_CC : Nat} {t t' : Login} (h : Fits MAX_CC t)
    (h' : Fits MAX_CC t') {i j : Nat} (hi : i < MAX_CC) (hj : j < MAX_CC)
    (heq : server t i = server t' j) : t.text = t'.text := by
  rw [server_of_fits h hi, server_of_fits h' hj] at heq
  have hrev := congrArg List.reverse heq
  simp only [List.reverse_append, List.reverse_cons, List.append_assoc, List.singleton_append] at hrev
  have hno : ∀ n, '-' ∉ (dec n).reverse := by
    intro n
    rw [List.mem_reverse]
    exact not_mem_dec rfl
  exact List.reverse_injective (append_cons_inj (hno i) (hno j) hrev).2

/-- Each file is one of a login that was registered with its port. -/
def Written (MAX_CC : Nat) (st : State) : Prop :=
  ∀ name port pid, st.files name = some (port, pid) →
    ∃ t cci, cci < MAX_CC ∧ name = server t cci ∧ .wrote t port ∈ st.log

/-- A look-up leaves files or removes them, and connects to the port in a file of one of its slots. -/
theorem readSlots_spec (env : Env) (t : Login) (slots : List Nat) (files : Files) :
    (∀ name x, (readSlots env t slots files).1 name = some x → files name = some x) ∧
      ∀ port, (readSlots env t slots files).2 = some port →
        ∃ cci ∈ slots, ∃ pid, files (server t cci) = some (port, pid) := by
  induction slots generalizing files with
  | nil => exact ⟨fun _ _ h => h, fun _ h => by cases h⟩
  | cons cci rest ih =>
    unfold readSlots
    cases hfile : files (server t cci) with
    | none => exact ⟨fun _ _ h => h, fun _ h => by cases h⟩
    | some x =>
      obtain ⟨svport, svpid⟩ := x
      have hskip : (∀ name x, (readSlots env t rest files).1 name = some x → files name = some x) ∧
          ∀ port, (readSlots env t rest files).2 = some port →
            ∃ cci' ∈ cci :: rest, ∃ pid, files (server t cci') = some (port, pid) := by
        refine ⟨(ih files).1, fun port hport => ?_⟩
        obtain ⟨cci', hmem, hpid⟩ := (ih files).2 port hport
        exact ⟨cci', List.mem_cons_of_mem _ hmem, hpid⟩
      dsimp only
      split
      · exact ⟨fun _ _ h => h, fun _ h => by cases h⟩
      split
      · exact hskip
      split
      · exact hskip
      split
      · refine ⟨fun _ _ h => h, fun port hport => ?_⟩
        cases hport
        exact ⟨cci, List.mem_cons_self, svpid, hfile⟩
      · -- the file is removed, so that what is found later was there before
        have hbefore : ∀ name x, Function.update files (server t cci) none name = some x →
            files name = some x := by
          intro name x h
          by_cases hname : name = server t cci
          · rw [hname, Function.update_self] at h
            cases h
          · rwa [Function.update_of_ne hname] at h
        obtain ⟨hfiles, hport⟩ := ih (Function.update files (server t cci) none)
        refine ⟨fun name x h => hbefore name x (hfiles name x h), fun port h => ?_⟩
        obtain ⟨cci', hmem, pid, hpid⟩ := hport port h
        exact ⟨cci', List.mem_cons_of_mem _ hmem, pid, hbefore _ _ hpid⟩

/-- A registration writes the file of one slot. -/
theorem writeSlots_spec (env : Env) (t : Login) (slots : List Nat) (files : Files) :
    ((writeSlots env t slots files).1 = files ∧ (writeSlots env t slots files).2 = none) ∨
      ∃ cci ∈ slots, writeSlots env t slots files =
        (Function.update files (server t cci) (some (env.port, env.pid)), some env.port) := by
  induction slots with
  | nil => exact .inl ⟨rfl, rfl⟩
  | cons cci rest ih =>
    have hskip := ih.imp_right fun ⟨cci', hmem, heq⟩ =>
      (⟨cci', List.mem_cons_of_mem cci hmem, heq⟩ : ∃ cci' ∈ cci :: rest, writeSlots env t rest files =
        (Function.update files (server t cci') (some (env.port, env.pid)), some env.port))
    unfold writeSlots
    split
    · exact hskip
    split
    · exact hskip
    · exact .inr ⟨cci, List.mem_cons_self, rfl⟩

variable {MAX_CC : Nat} {st st' : State}

theorem written_tryOpen_new (h : Written MAX_CC st) (t : Login) (env : Env) :
    Written MAX_CC ⟨(tryOpen MAX_CC env t true st.files).1,
      ((tryOpen MAX_CC env t true st.files).2.toList.map fun port => Event.wrote t port) ++
        st.log⟩ := by
  change Written MAX_CC ⟨(writeSlots env t (List.range MAX_CC) st.files).1,
    ((writeSlots env t (List.range MAX_CC) st.files).2.toList.map fun port => Event.wrote t port) ++
      st.log⟩
  rcases writeSlots_spec env t (List.range MAX_CC) st.files with ⟨hfiles, hport⟩ | ⟨cci, hmem, heq⟩
  · rw [hfiles, hport]
    exact h
  · rw [heq]
    intro name port pid hname
    dsimp only at hname
    by_cases hserver : name = server t cci
    · rw [hserver, Function.update_self] at hname
      cases hname
      exact ⟨t, cci, List.mem_range.mp hmem, hserver, List.mem_cons_self⟩
    · rw [Function.update_of_ne hserver] at hname
      obtain ⟨t', cci', hlt, hname', hwrote⟩ := h name port pid hname
      exact ⟨t', cci', hlt, hname', List.mem_cons_of_mem _ hwrote⟩

/-- The port of a look-up is one of its own login, if no other one has its text. -/
theorem own_of_written (h : Written MAX_CC st) {t : Login} {env : Env}
    (hdistinct : Distinct MAX_CC st (.tryOpen t false env)) {port : Int}
    (hport : (tryOpen MAX_CC env t false st.files).2 = some port) :
    ∃ t', .wrote t' port ∈ st.log ∧ t'.named = t.named := by
  have hread : (readSlots env t (List.range MAX_CC) st.files).2 = some port := by
    unfold tryOpen at hport
    split at hport
    · cases hport
    · exact hport
  obtain ⟨cci, hmem, pid, hfile⟩ := (readSlots_spec env t _ st.files).2 port hread
  obtain ⟨t', cci', hlt, hname, hwrote⟩ := h _ port pid hfile
  refine ⟨t', hwrote, ?_⟩
  by_contra hother
  obtain ⟨hfits, hfits', htext⟩ := hdistinct t' port hwrote hother
  exact htext (text_eq_of_server_eq hfits' hfits hlt (List.mem_range.mp hmem) hname.symm)

theorem written_step {a : Act} (h : Written MAX_CC st) (hown : Own st.log)
    (hdistinct : Distinct MAX_CC st a) (hstep : step MAX_CC st a = some st') :
    Written MAX_CC st' ∧ Own st'.log := by
  cases a with
  | unlink name =>
    cases hstep
    refine ⟨fun name' port pid hfile => ?_, hown⟩
    dsimp only at hfile
    by_cases hname : name' = name
    · rw [hname, Function.update_self] at hfile
      cases hfile
    · rw [Function.update_of_ne hname] at hfile
      exact h name' port pid hfile
  | tryOpen t xnew env =>
    cases hstep
    cases xnew with
    | true =>
      refine ⟨written_tryOpen_new h t env, ?_⟩
      dsimp only
      cases (tryOpen MAX_CC env t true st.files).2 with
      | none => exact hown
      | some port => exact hown
    | false =>
      have hfiles : ∀ name x, (tryOpen MAX_CC env t false st.files).1 name = some x →
          st.files name = some x := by
        unfold tryOpen
        split
        · exact fun _ _ h => h
        · exact (readSlots_spec env t _ st.files).1
      constructor
      · intro name port pid hfile
        obtain ⟨t', cci, hlt, hname, hwrote⟩ := h name port pid (hfiles name _ hfile)
        exact ⟨t', cci, hlt, hname, List.mem_append_right _ hwrote⟩
      · dsimp only
        cases hport : (tryOpen MAX_CC env t false st.files).2 with
        | none => exact hown
        | some port => exact ⟨own_of_written h hdistinct hport, hown⟩

/-- In a run where no login is looked up that has the text of another one registered before, each
look-up gets a session of its own login. -/
theorem own_of_distinct (MAX_CC : Nat) (acts : List Act)
    (h : Meets (step MAX_CC) (Distinct MAX_CC) init acts) :
    Always (step MAX_CC) (fun st => Own st.log) init acts := by
  have hkeep : ∀ st a st', (Written MAX_CC st ∧ Own st.log) → Distinct MAX_CC st a →
      step MAX_CC st a = some st' → Written MAX_CC st' ∧ Own st'.log :=
    fun st a st' hst hdistinct hstep => written_step hst.1 hst.2 hdistinct hstep
  have hinit : Written MAX_CC init := by
    intro name port pid hfile
    cases hfile
  exact always_of_meets hkeep (fun st hst => hst.2) ⟨hinit, trivial⟩ h

/-- The user `joe` of the host `ftp-a.com`, and the user `joe-ftp` of the host `a.com`. -/
def joe : Login := ⟨"ftp".toList, "joe".toList, "ftp-a.com".toList, 21⟩

def joeFtp : Login := ⟨"ftp".toList, "joe-ftp".toList, "a.com".toList, 21⟩

def ann : Login := ⟨"ftp".toList, "ann".toList, "ftp-a.com".toList, 21⟩

/-- Two users of one host register their sessions, and look them up. -/
def twoUsers : List Act :=
  [.tryOpen joe true { pid := 1, port := 5000 }, .tryOpen ann true { pid := 2, port := 5001 },
    .tryOpen joe false { pid := 3 }, .tryOpen ann false { pid := 4 }]

theorem joe_ann_distinct {t t' : Login} {port : Int} (ht : t = joe ∨ t = ann)
    (hwrote : .wrote t' port ∈ [Event.read joe 5000, .wrote ann 5001, .wrote joe 5000])
    (hother : t'.named ≠ t.named) : Fits 16 t ∧ Fits 16 t' ∧ t'.text ≠ t.text := by
  have hjoe : Fits 16 joe := by
    unfold Fits
    decide
  have hann : Fits 16 ann := by
    unfold Fits
    decide
  have ht' : t' = joe ∨ t' = ann := by
    simp only [List.mem_cons, List.not_mem_nil, or_false, reduceCtorEq, false_or,
      Event.wrote.injEq] at hwrote
    exact hwrote.symm.imp And.left And.left
  rcases ht with rfl | rfl
  · rcases ht' with rfl | rfl
    · exact absurd rfl hother
    · exact ⟨hjoe, hann, by decide⟩
  · rcases ht' with rfl | rfl
    · exact ⟨hann, hjoe, by decide⟩
    · exact absurd rfl hother

theorem joe_own :
    (exec (step 16) init twoUsers).map State.log =
        some [.read ann 5001, .read joe 5000, .wrote ann 5001, .wrote joe 5000] ∧
      Always (step 16) (fun st => Own st.log) init twoUsers := by
  refine ⟨rfl, own_of_distinct 16 _ ?_⟩
  intro s1 h1
  obtain rfl := Option.some.inj h1
  refine ⟨trivial, ?_⟩
  intro s2 h2
  obtain rfl := Option.some.inj h2
  refine ⟨trivial, ?_⟩
  intro s3 h3
  obtain rfl := Option.some.inj h3
  refine ⟨fun t port hwrote => joe_ann_distinct (.inl rfl) (List.mem_cons_of_mem _ hwrote), ?_⟩
  exact fun s4 _ => ⟨fun t port => joe_ann_distinct (.inr rfl), trivial⟩

/-- Any login gets the session of another one with its text. -/
theorem stranger_session {t t' : Login} (hname : t'.named ≠ t.named) (htext : t'.text = t.text)
    (n : Nat) (port : Int) :
    ¬ Always (step (n + 1)) (fun st => Own st.log) init
      [.tryOpen t' true { pid := 1, port := port }, .tryOpen t false { pid := 2 }] := by
  have hserver : server t' 0 = server t 0 := by
    unfold server url
    rw [htext]
  have hwrite : tryOpen (n + 1) { pid := 1, port := port } t' true init.files =
      (Function.update init.files (server t' 0) (some (port, 1)), some port) := by
    unfold tryOpen
    rw [List.range_succ_eq_map]
    rfl
  have hread : (tryOpen (n + 1) { pid := 2 } t false
      (Function.update init.files (server t' 0) (some (port, 1)))).2 = some port := by
    unfold tryOpen
    rw [List.range_succ_eq_map]
    simp [readSlots, hserver]
  intro h
  have hfirst : step (n + 1) init (.tryOpen t' true { pid := 1, port := port }) =
      some ⟨Function.update init.files (server t' 0) (some (port, 1)), [.wrote t' port]⟩ := by
    unfold step
    dsimp only
    rw [hwrite]
    rfl
  have hlast := (h.2 _ hfirst).2 _ rfl
  dsimp only [Always] at hlast
  rw [hread] at hlast
  obtain ⟨t'', hwrote, heq⟩ := hlast.1
  rcases List.mem_cons.mp hwrote with hw | hnil
  · cases hw
    exact hname heq
  · cases hnil

theorem session_of_another :
    ¬ Always (step 16) (fun st => Own st.log) init
      [.tryOpen joeFtp true { pid := 1, port := 5000 }, .tryOpen joe false { pid := 2 }] :=
  stranger_session (by decide) (by decide) 15 5000

end delegate.conncache
