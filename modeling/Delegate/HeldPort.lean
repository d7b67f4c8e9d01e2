-- The ports that htaccept.cpp holds open between requests. Clients look a port
-- up, open and register it if it is not there, and give it back; a watcher
-- closes ports that nobody uses. The counts of the table are right as long as
-- no failed port is registered and no freed entry takes the place of a port
-- that is given back.
import Delegate.Runs

open runs

namespace delegate.ports

/-! ## The pure model -/

/-- An entry of `bports`. -/
structure BoundPort where
  bp_port : Int := 0
  bp_hold : Int := 0
  bp_sock : Int := 0
  bp_made : Int := 0
  bp_last : Int := 0
  bp_nref : Int := 0
  deriving DecidableEq

abbrev Table := Fin 16 → BoundPort

/-- The first entry of a kind. -/
def firstWhere (p : Fin 16 → Bool) : Option (Fin 16) := (List.finRange 16).find? p

def findPort (t : Table) (port : Int) : Option (Fin 16) :=
  firstWhere fun i => (t i).bp_port == port

def findSock (t : Table) (sock : Int) : Option (Fin 16) :=
  firstWhere fun i => (t i).bp_sock == sock

/-- The value is the descriptor, or -1. -/
def getPort (t : Table) (port now : Int) : Table × Int :=
  if port ≤ 0 then (t, -1)
  else
    match findPort t port with
    | none => (t, -1)
    | some i =>
      (Function.update t i { t i with bp_nref := (t i).bp_nref + 1, bp_last := now },
        (t i).bp_sock)

/-- The entry that `addPort` takes: the one of the port, else the first free one. -/
def slot (t : Table) (port : Int) : Option (Fin 16) := (findPort t port).or (findPort t 0)

def addPort (t : Table) (port sock hold now : Int) : Table :=
  if hold ≤ 0 then t
  else
    match slot t port with
    | none => t
    | some i => Function.update t i ⟨port, hold, sock, now, now, 1⟩

/-- The entry is found by the number of the descriptor only. -/
def freePort (t : Table) (sock now : Int) : Table :=
  match findSock t sock with
  | none => t
  | some i => Function.update t i { t i with bp_last := now, bp_nref := (t i).bp_nref - 1 }

/-- The watcher closes the port of the entry. -/
def expired (now : Int) (b : BoundPort) : Bool :=
  b.bp_port != 0 && b.bp_nref == 0 && decide (b.bp_hold < now - b.bp_last)

/-- One sweep: the table, and the descriptors that are closed. An entry keeps the number. -/
def pwatch (t : Table) (now : Int) : Table × List Int :=
  (fun i => if expired now (t i) then { t i with bp_port := 0 } else t i,
    ((List.finRange 16).filter fun i => expired now (t i)).map fun i => (t i).bp_sock)

/-- Where a client is in `HTTP_ACCEPT`: `findopenPort` has opened a descriptor, or -1, before it
calls `addPort`. -/
inductive Client
  | idle
  | missed (port : Int)
  | opened (port hold sock : Int)
  | holding (sock : Int)
  deriving DecidableEq

/-- The table, the clients and the open descriptors. -/
structure State (α : Type) where
  bports : Table
  clients : α → Client
  fds : List Int

inductive Act (α : Type)
  | getPort (c : α) (port now : Int)
  | findopen (c : α) (hold sock : Int)
  | addPort (c : α) (now : Int)
  | freePort (c : α) (now : Int)
  | pwatch (now : Int)

section Step
variable {α : Type} [DecidableEq α]

def State.set (st : State α) (c : α) (x : Client) : State α :=
  { st with clients := Function.update st.clients c x }

/-- One atomic step. `findopen_port` gives -1 or a descriptor that is not open. -/
def step (st : State α) : Act α → Option (State α)
  | .getPort c port now =>
    match st.clients c with
    | .idle =>
      let r := getPort st.bports port now
      some { st.set c (if 0 ≤ r.2 then .holding r.2 else .missed port) with bports := r.1 }
    | _ => none
  | .findopen c hold sock =>
    match st.clients c with
    | .missed port =>
      if 0 < hold ∧ sock = -1 then some (st.set c (.opened port hold sock))
      else if 0 < hold ∧ 0 ≤ sock ∧ sock ∉ st.fds then
        some { st.set c (.opened port hold sock) with fds := sock :: st.fds }
      else none
    | _ => none
  | .addPort c now =>
    match st.clients c with
    | .opened port hold sock =>
      some { st.set c (if 0 ≤ sock then .holding sock else .idle) with
        bports := addPort st.bports port sock hold now }
    | _ => none
  | .freePort c now =>
    match st.clients c with
    | .holding sock => some { st.set c .idle with bports := freePort st.bports sock now }
    | _ => none
  | .pwatch now =>
    let r := pwatch st.bports now
    some { st with bports := r.1, fds := st.fds.filter (· ∉ r.2) }

/-- Static memory is zero at first, also the descriptors. -/
def init : State α := ⟨fun _ => {}, fun _ => .idle, []⟩

end Step

/-! ## The counts -/

section Counts
variable {α : Type} [Fintype α] [DecidableEq α]

/-- The number of clients that hold a descriptor. -/
def holders (clients : α → Client) (sock : Int) : Nat :=
  (Finset.univ.filter fun c => clients c = .holding sock).card

def Live (t : Table) (i : Fin 16) : Prop := (t i).bp_port ≠ 0

/-- The table counts its clients. -/
structure Counted (st : State α) : Prop where
  sock : ∀ i, Live st.bports i → 0 ≤ (st.bports i).bp_sock
  nref : ∀ i, Live st.bports i →
    (st.bports i).bp_nref = holders st.clients (st.bports i).bp_sock
  one : ∀ i j, Live st.bports i → Live st.bports j →
    (st.bports i).bp_port = (st.bports j).bp_port → i = j
  kept : ∀ now, ∀ sock ∈ (pwatch st.bports now).2, ∀ c, st.clients c ≠ .holding sock

/-- The descriptors of entries and clients are open ones, and those of entries and of clients that
have just opened one are their own. -/
structure Inv (st : State α) : Prop extends Counted st where
  fd : ∀ i, Live st.bports i → (st.bports i).bp_sock ∈ st.fds
  distinct : ∀ i j, Live st.bports i → Live st.bports j →
    (st.bports i).bp_sock = (st.bports j).bp_sock → i = j
  held : ∀ c s, st.clients c = .holding s → 0 ≤ s ∧ s ∈ st.fds
  fresh : ∀ c p h s, st.clients c = .opened p h s → 0 ≤ s → s ∈ st.fds ∧
    (∀ i, Live st.bports i → (st.bports i).bp_sock ≠ s) ∧ (∀ d, st.clients d ≠ .holding s) ∧
    ∀ d p' h', st.clients d = .opened p' h' s → d = c
  hold : ∀ c p h s, st.clients c = .opened p h s → 0 < h

/-! ## The table -/

variable {i : Fin 16} {t : Table} {port sock now hold : Int} {clients : α → Client} {c : α}
  {st st' : State α}

theorem firstWhere_some {p : Fin 16 → Bool} (h : firstWhere p = some i) : p i = true :=
  List.find?_some h

theorem firstWhere_none {p : Fin 16 → Bool} (h : firstWhere p = none) (i : Fin 16) : p i = false := by
  have hno := List.find?_eq_none.mp h i (List.mem_finRange i)
  simpa using hno

theorem findPort_some (h : findPort t port = some i) :
    (t i).bp_port = port := beq_iff_eq.mp (firstWhere_some h)

theorem findPort_none (h : findPort t port = none) (i : Fin 16) :
    (t i).bp_port ≠ port := beq_eq_false_iff_ne.mp (firstWhere_none h i)

theorem findSock_some (h : findSock t sock = some i) :
    (t i).bp_sock = sock := beq_iff_eq.mp (firstWhere_some h)

theorem findSock_none (h : findSock t sock = none) (i : Fin 16) :
    (t i).bp_sock ≠ sock := beq_eq_false_iff_ne.mp (firstWhere_none h i)

/-- The entry that `addPort` takes is free or that of the port. -/
theorem slot_some (h : slot t port = some i) :
    findPort t port = some i ∨ (findPort t port = none ∧ (t i).bp_port = 0) := by
  unfold slot at h
  cases hp : findPort t port with
  | none =>
    rw [hp, Option.none_or] at h
    exact .inr ⟨rfl, findPort_some h⟩
  | some j =>
    rw [hp, Option.some_or] at h
    exact .inl h

theorem mem_pwatch :
    sock ∈ (pwatch t now).2 ↔ ∃ i, expired now (t i) = true ∧ (t i).bp_sock = sock := by
  unfold pwatch
  simp

theorem expired_iff {b : BoundPort} :
    expired now b = true ↔ b.bp_port ≠ 0 ∧ b.bp_nref = 0 ∧ b.bp_hold < now - b.bp_last := by
  unfold expired
  simp [and_assoc]

/-! ## Holders -/

omit [DecidableEq α] in
theorem holders_eq_zero : holders clients sock = 0 ↔ ∀ c, clients c ≠ .holding sock := by
  unfold holders
  rw [Finset.card_eq_zero, Finset.filter_eq_empty_iff]
  simp

/-- A client that begins to hold a descriptor. -/
theorem holders_hold {s : Int} (h : ∀ s, clients c ≠ .holding s) (s' : Int) :
    holders (Function.update clients c (.holding s)) s' =
      holders clients s' + if s' = s then 1 else 0 := by
  unfold holders
  by_cases hs : s' = s
  · subst hs
    have hfilter : (Finset.univ.filter fun d =>
        Function.update clients c (.holding s') d = .holding s') =
          insert c (Finset.univ.filter fun d => clients d = .holding s') := by
      ext d
      by_cases hd : d = c
      · simp [hd]
      · simp [hd]
    rw [hfilter, Finset.card_insert_of_notMem (by simp [h]), if_pos rfl]
  · rw [if_neg hs, Nat.add_zero]
    congr 1
    ext d
    by_cases hd : d = c
    · simp [hd, h, Ne.symm hs]
    · simp [Function.update_of_ne hd]

/-- A client that does not hold a descriptor before and after. -/
theorem holders_same {x : Client} (h : ∀ s, clients c ≠ .holding s) (hx : ∀ s, x ≠ .holding s)
    (s : Int) : holders (Function.update clients c x) s = holders clients s := by
  unfold holders
  congr 1
  ext d
  by_cases hd : d = c
  · simp [hd, h, hx]
  · simp [Function.update_of_ne hd]

/-- A client that gives a descriptor back. -/
theorem holders_release {s : Int} (h : clients c = .holding s) (s' : Int) :
    holders clients s' =
      holders (Function.update clients c .idle) s' + if s' = s then 1 else 0 := by
  have hself : Function.update (Function.update clients c .idle) c (.holding s) = clients := by
    rw [Function.update_idem, ← h, Function.update_eq_self]
  have hidle : ∀ s, Function.update clients c .idle c ≠ .holding s := by simp
  have := holders_hold (s := s) hidle s'
  rwa [hself] at this

omit [DecidableEq α] in
/-- The watcher closes only what nobody holds, if the counts are right. -/
theorem Counted.mk' (hsock : ∀ i, Live st.bports i → 0 ≤ (st.bports i).bp_sock)
    (hnref : ∀ i, Live st.bports i →
      (st.bports i).bp_nref = holders st.clients (st.bports i).bp_sock)
    (hone : ∀ i j, Live st.bports i → Live st.bports j →
      (st.bports i).bp_port = (st.bports j).bp_port → i = j) : Counted st := by
  refine ⟨hsock, hnref, hone, ?_⟩
  intro now sock hmem
  obtain ⟨i, hexp, rfl⟩ := mem_pwatch.mp hmem
  obtain ⟨hlive, hzero, -⟩ := expired_iff.mp hexp
  have hcount := hnref i hlive
  rw [hzero] at hcount
  exact holders_eq_zero.mp (by omega)

/-! ## Steps -/

omit [Fintype α] in
/-- The state of a client after a step of one client. -/
theorem update_cases {d : α} {x y : Client} (h : Function.update clients c x d = y) :
    (d = c ∧ x = y) ∨ (d ≠ c ∧ clients d = y) := by
  by_cases hd : d = c
  · rw [hd, Function.update_self] at h
    exact .inl ⟨hd, h⟩
  · rw [Function.update_of_ne hd] at h
    exact .inr ⟨hd, h⟩

/-- A client that neither holds nor has opened a descriptor gets another state of this kind. -/
theorem Inv.move (h : Inv st) {x : Client} (hc : (∀ s, st.clients c ≠ .holding s))
    (hx : ∀ s, x ≠ .holding s) (hx' : ∀ p k s, x = .opened p k s → 0 < k ∧ s < 0) :
    Inv (st.set c x) := by
  have hhold : ∀ d s, (st.set c x).clients d = .holding s → st.clients d = .holding s := by
    intro d s hd
    rcases update_cases hd with ⟨-, heq⟩ | ⟨-, hd⟩
    · exact absurd heq (hx s)
    · exact hd
  have hopen : ∀ d p k s, (st.set c x).clients d = .opened p k s → 0 ≤ s →
      st.clients d = .opened p k s := by
    intro d p k s hd hs
    rcases update_cases hd with ⟨-, heq⟩ | ⟨-, hd⟩
    · have := (hx' p k s heq).2
      omega
    · exact hd
  refine ⟨.mk' h.sock ?_ h.one, h.fd, h.distinct, ?_, ?_, ?_⟩
  · intro i hi
    exact (h.nref i hi).trans (by rw [State.set, holders_same hc hx])
  · exact fun d s hd => h.held d s (hhold d s hd)
  · intro d p k s hd hs
    obtain ⟨hfd, hlive, hnot, hown⟩ := h.fresh d p k s (hopen d p k s hd hs) hs
    exact ⟨hfd, hlive, fun e he => hnot e (hhold e s he),
      fun e p' k' he => hown e p' k' (hopen e p' k' s he hs)⟩
  · intro d p k s hd
    rcases update_cases hd with ⟨-, heq⟩ | ⟨-, hd⟩
    · exact (hx' p k s heq).1
    · exact h.hold d p k s hd

/-- A table with the same ports and descriptors. -/
def SameEntries (t t' : Table) : Prop :=
  ∀ i, (t' i).bp_port = (t i).bp_port ∧ (t' i).bp_sock = (t i).bp_sock

theorem SameEntries.live {t' : Table} (h : SameEntries t t') : Live t' i ↔ Live t i := by
  unfold Live
  rw [(h i).1]

theorem sameEntries_update {b : BoundPort} (hport : b.bp_port = (t i).bp_port)
    (hsock : b.bp_sock = (t i).bp_sock) : SameEntries t (Function.update t i b) := by
  intro j
  by_cases hj : j = i
  · rw [hj, Function.update_self]
    exact ⟨hport, hsock⟩
  · rw [Function.update_of_ne hj]
    exact ⟨rfl, rfl⟩

omit [DecidableEq α] in
/-- The counts change with the holders, and nothing else in the table. -/
theorem Inv.recount (h : Inv st) (hsame : SameEntries st.bports st'.bports)
    (hnref : ∀ i, Live st.bports i →
      (st'.bports i).bp_nref = holders st'.clients (st.bports i).bp_sock) (hfds : st'.fds = st.fds)
    (hheld : ∀ c s, st'.clients c = .holding s → 0 ≤ s ∧ s ∈ st.fds ∧
      ((∃ d, st.clients d = .holding s) ∨ ∃ i, Live st.bports i ∧ (st.bports i).bp_sock = s))
    (hopen : ∀ c p k s, st'.clients c = .opened p k s → st.clients c = .opened p k s) :
    Inv st' := by
  refine ⟨.mk' ?_ ?_ ?_, ?_, ?_, ?_, ?_, ?_⟩
  · intro i hi
    rw [(hsame i).2]
    exact h.sock i (hsame.live.mp hi)
  · intro i hi
    rw [(hsame i).2]
    exact hnref i (hsame.live.mp hi)
  · intro i j hi hj hij
    rw [(hsame i).1, (hsame j).1] at hij
    exact h.one i j (hsame.live.mp hi) (hsame.live.mp hj) hij
  · intro i hi
    rw [(hsame i).2, hfds]
    exact h.fd i (hsame.live.mp hi)
  · intro i j hi hj hij
    rw [(hsame i).2, (hsame j).2] at hij
    exact h.distinct i j (hsame.live.mp hi) (hsame.live.mp hj) hij
  · intro c s hc
    rw [hfds]
    exact ⟨(hheld c s hc).1, (hheld c s hc).2.1⟩
  · intro c p k s hc hs
    obtain ⟨hfd, hlive, hnot, hown⟩ := h.fresh c p k s (hopen c p k s hc) hs
    refine ⟨by rwa [hfds], ?_, ?_, fun d p' k' hd => hown d p' k' (hopen d p' k' s hd)⟩
    · intro i hi
      rw [(hsame i).2]
      exact hlive i (hsame.live.mp hi)
    · intro d hd
      rcases (hheld d s hd).2.2 with ⟨e, he⟩ | ⟨i, hi, his⟩
      · exact hnot e he
      · exact hlive i hi his
  · exact fun c p k s hc => h.hold c p k s (hopen c p k s hc)

theorem Inv.getPort (h : Inv st) (hc : st.clients c = .idle) (port now : Int) :
    Inv { st.set c (if 0 ≤ (ports.getPort st.bports port now).2
        then .holding (ports.getPort st.bports port now).2 else .missed port) with
      bports := (ports.getPort st.bports port now).1 } := by
  have hidle : ∀ s, st.clients c ≠ .holding s := by simp [hc]
  have hmiss : Inv (st.set c (.missed port)) := h.move hidle (by simp) (by simp)
  unfold ports.getPort
  by_cases hport : port ≤ 0
  · rw [if_pos hport]
    exact hmiss
  rw [if_neg hport]
  cases hfind : findPort st.bports port with
  | none => exact hmiss
  | some i =>
    have hi : (st.bports i).bp_port = port := findPort_some hfind
    have hlive : Live st.bports i := by
      unfold Live
      omega
    dsimp only
    rw [if_pos (h.sock i hlive)]
    apply h.recount
    · exact sameEntries_update rfl rfl
    · intro j hj
      dsimp only [State.set]
      rw [holders_hold hidle]
      by_cases hji : j = i
      · rw [hji, Function.update_self, if_pos rfl]
        have := h.nref i hlive
        push_cast
        omega
      · have hsock : (st.bports j).bp_sock ≠ (st.bports i).bp_sock :=
          fun heq => hji (h.distinct j i hj hlive heq)
        rw [Function.update_of_ne hji, if_neg hsock]
        exact h.nref j hj
    · rfl
    · intro d s hd
      rcases update_cases hd with ⟨-, hx⟩ | ⟨-, hd⟩
      · cases hx
        exact ⟨h.sock i hlive, h.fd i hlive, .inr ⟨i, hlive, rfl⟩⟩
      · exact ⟨(h.held d s hd).1, (h.held d s hd).2, .inl ⟨d, hd⟩⟩
    · intro d p k s hd
      rcases update_cases hd with ⟨-, hx⟩ | ⟨-, hd⟩
      · cases hx
      · exact hd

/-- A fresh descriptor is that of no entry and of no other client. -/
theorem Inv.findopen (h : Inv st) (hc : st.clients c = .missed port) (hhold : 0 < hold)
    (hnew : sock ∉ st.fds) :
    Inv { st.set c (.opened port hold sock) with fds := sock :: st.fds } := by
  have hmissed : ∀ s, st.clients c ≠ .holding s := by simp [hc]
  have hheld : ∀ d s, (st.set c (.opened port hold sock)).clients d = .holding s →
      st.clients d = .holding s := by
    intro d s hd
    rcases update_cases hd with ⟨-, heq⟩ | ⟨-, hd⟩
    · cases heq
    · exact hd
  refine ⟨.mk' h.sock ?_ h.one, ?_, h.distinct, ?_, ?_, ?_⟩
  · intro i hi
    exact (h.nref i hi).trans (by dsimp only [State.set]; rw [holders_same hmissed (by simp)])
  · exact fun i hi => List.mem_cons_of_mem _ (h.fd i hi)
  · intro d s hd
    obtain ⟨hs, hfd⟩ := h.held d s (hheld d s hd)
    exact ⟨hs, List.mem_cons_of_mem _ hfd⟩
  · intro d p k s hd hs
    rcases update_cases hd with ⟨rfl, heq⟩ | ⟨hdc, hd⟩
    · cases heq
      refine ⟨List.mem_cons_self, ?_, ?_, ?_⟩
      · intro i hi heq
        exact hnew (heq ▸ h.fd i hi)
      · intro e he
        exact hnew (h.held e _ (hheld e _ he)).2
      · intro e p' k' he
        rcases update_cases he with ⟨hed, -⟩ | ⟨-, he⟩
        · exact hed
        · exact absurd (h.fresh e p' k' _ he hs).1 hnew
    · obtain ⟨hfd, hlive, hnot, hown⟩ := h.fresh d p k s hd hs
      refine ⟨List.mem_cons_of_mem _ hfd, hlive, fun e he => hnot e (hheld e s he), ?_⟩
      intro e p' k' he
      rcases update_cases he with ⟨-, heq⟩ | ⟨-, he⟩
      · cases heq
        exact absurd hfd hnew
      · exact hown e p' k' he
  · intro d p k s hd
    rcases update_cases hd with ⟨-, heq⟩ | ⟨-, hd⟩
    · cases heq
      exact hhold
    · exact h.hold d p k s hd

/-- The entry that is found by the descriptor is that of the descriptor, if one is. -/
def FoundRight (t : Table) (sock : Int) : Prop :=
  ∀ i, findSock t sock = some i → Live t i ∨ ∀ j, Live t j → (t j).bp_sock ≠ sock

theorem Inv.freePort (h : Inv st) (hc : st.clients c = .holding sock) (now : Int)
    (hfound : FoundRight st.bports sock) :
    Inv { st.set c .idle with bports := ports.freePort st.bports sock now } := by
  have hsame : SameEntries st.bports (ports.freePort st.bports sock now) := by
    unfold ports.freePort
    cases findSock st.bports sock with
    | none => exact fun i => ⟨rfl, rfl⟩
    | some i => exact sameEntries_update rfl rfl
  apply h.recount hsame
  · intro j hj
    have hnref := h.nref j hj
    have hrelease := holders_release hc (st.bports j).bp_sock
    dsimp only [State.set]
    unfold ports.freePort
    cases hfind : findSock st.bports sock with
    | none =>
      rw [if_neg (findSock_none hfind j)] at hrelease
      dsimp only
      omega
    | some i =>
      have hi := findSock_some hfind
      dsimp only
      by_cases hji : j = i
      · rw [hji] at hrelease hnref ⊢
        rw [if_pos hi] at hrelease
        rw [Function.update_self]
        dsimp only
        omega
      · have hne : (st.bports j).bp_sock ≠ sock := by
          rcases hfound i hfind with hlive | hnone
          · exact fun heq => hji (h.distinct j i hj hlive (heq.trans hi.symm))
          · exact hnone j hj
        rw [if_neg hne] at hrelease
        rw [Function.update_of_ne hji]
        omega
  · rfl
  · intro d s hd
    rcases update_cases hd with ⟨-, heq⟩ | ⟨-, hd⟩
    · cases heq
    · exact ⟨(h.held d s hd).1, (h.held d s hd).2, .inl ⟨d, hd⟩⟩
  · intro d p k s hd
    rcases update_cases hd with ⟨-, heq⟩ | ⟨-, hd⟩
    · cases heq
    · exact hd

omit [DecidableEq α] in
/-- Entries that are taken away change nothing for the others. -/
theorem Inv.of_live (h : Inv st) (ht : ∀ i, Live t i → Live st.bports i ∧ t i = st.bports i) :
    Inv { st with bports := t } := by
  refine ⟨.mk' ?_ ?_ ?_, ?_, ?_, h.held, ?_, h.hold⟩
  · intro i hi
    dsimp only
    rw [(ht i hi).2]
    exact h.sock i (ht i hi).1
  · intro i hi
    dsimp only
    rw [(ht i hi).2]
    exact h.nref i (ht i hi).1
  · intro i j hi hj
    dsimp only
    rw [(ht i hi).2, (ht j hj).2]
    exact h.one i j (ht i hi).1 (ht j hj).1
  · intro i hi
    dsimp only
    rw [(ht i hi).2]
    exact h.fd i (ht i hi).1
  · intro i j hi hj
    dsimp only
    rw [(ht i hi).2, (ht j hj).2]
    exact h.distinct i j (ht i hi).1 (ht j hj).1
  · intro c p k s hc hs
    obtain ⟨hfd, hlive, hheld, hown⟩ := h.fresh c p k s hc hs
    refine ⟨hfd, ?_, hheld, hown⟩
    intro i hi
    dsimp only
    rw [(ht i hi).2]
    exact hlive i (ht i hi).1

omit [DecidableEq α] in
theorem Inv.pwatch (h : Inv st) (now : Int) :
    Inv { st with bports := (ports.pwatch st.bports now).1
                  fds := st.fds.filter (· ∉ (ports.pwatch st.bports now).2) } := by
  have hentry : ∀ i, Live (ports.pwatch st.bports now).1 i →
      Live st.bports i ∧ expired now (st.bports i) = false ∧
        (ports.pwatch st.bports now).1 i = st.bports i := by
    intro i hi
    unfold Live ports.pwatch at hi
    dsimp only at hi
    cases hexp : expired now (st.bports i) with
    | true =>
      rw [hexp, if_pos rfl] at hi
      exact absurd rfl hi
    | false =>
      rw [hexp, if_neg Bool.false_ne_true] at hi
      refine ⟨hi, rfl, ?_⟩
      unfold ports.pwatch
      dsimp only
      rw [hexp, if_neg Bool.false_ne_true]
  have hopen : ∀ s, s ∈ st.fds → s ∉ (ports.pwatch st.bports now).2 →
      s ∈ st.fds.filter (· ∉ (ports.pwatch st.bports now).2) := by
    intro s hs hno
    exact List.mem_filter.mpr ⟨hs, by simpa using hno⟩
  have hlive : ∀ i, expired now (st.bports i) = true → Live st.bports i :=
    fun i hi => (expired_iff.mp hi).1
  have hkeep : Inv { st with bports := (ports.pwatch st.bports now).1 } :=
    h.of_live fun i hi => ⟨(hentry i hi).1, (hentry i hi).2.2⟩
  refine ⟨⟨hkeep.sock, hkeep.nref, hkeep.one, hkeep.kept⟩, ?_, hkeep.distinct, ?_, ?_, h.hold⟩
  · intro i hi
    refine hopen _ (hkeep.fd i hi) ?_
    obtain ⟨hi, hno, heq⟩ := hentry i hi
    dsimp only
    rw [heq]
    intro hmem
    obtain ⟨j, hexp, hsock⟩ := mem_pwatch.mp hmem
    rw [h.distinct j i (hlive j hexp) hi hsock, hno] at hexp
    cases hexp
  · intro c s hc
    obtain ⟨hs, hfd⟩ := h.held c s hc
    exact ⟨hs, hopen s hfd fun hmem => h.kept now s hmem c hc⟩
  · intro c p k s hc hs
    obtain ⟨hfd, hnot, hheld, hown⟩ := hkeep.fresh c p k s hc hs
    refine ⟨hopen s hfd fun hmem => ?_, hnot, hheld, hown⟩
    obtain ⟨j, hexp, hsock⟩ := mem_pwatch.mp hmem
    exact (h.fresh c p k s hc hs).2.1 j (hlive j hexp) hsock

/-! ## Registration -/

/-- Nothing changes for ports without an entry. -/
theorem addPort_live (h : port = 0 ∨ slot t port = none)
    (hi : Live (addPort t port sock hold now) i) :
    Live t i ∧ addPort t port sock hold now i = t i := by
  unfold addPort at hi ⊢
  by_cases hhold : hold ≤ 0
  · rw [if_pos hhold] at hi ⊢
    exact ⟨hi, rfl⟩
  rw [if_neg hhold] at hi ⊢
  cases hslot : slot t port with
  | none =>
    rw [hslot] at hi
    exact ⟨hi, rfl⟩
  | some j =>
    rw [hslot] at hi h
    have hport := h.resolve_right (Option.some_ne_none j)
    dsimp only at hi ⊢
    by_cases hij : i = j
    · rw [hij, Live, Function.update_self] at hi
      exact absurd hport hi
    · rw [Live, Function.update_of_ne hij] at hi
      rw [Function.update_of_ne hij]
      exact ⟨hi, rfl⟩

/-- A client that holds its fresh descriptor, before it is registered. -/
theorem Inv.take (h : Inv st) (hc : st.clients c = .opened port hold sock) (hsock : 0 ≤ sock) :
    Inv (st.set c (.holding sock)) := by
  have hnot : ∀ s, st.clients c ≠ .holding s := by simp [hc]
  obtain ⟨hfd, hlive, hheld, hown⟩ := h.fresh c port hold sock hc hsock
  refine ⟨.mk' h.sock ?_ h.one, h.fd, h.distinct, ?_, ?_, ?_⟩
  · intro i hi
    dsimp only [State.set] at hi ⊢
    rw [holders_hold hnot, if_neg (hlive i hi)]
    exact h.nref i hi
  · intro d s hd
    rcases update_cases hd with ⟨-, heq⟩ | ⟨-, hd⟩
    · cases heq
      exact ⟨hsock, hfd⟩
    · exact h.held d s hd
  · intro d p k s hd hs
    rcases update_cases hd with ⟨-, heq⟩ | ⟨hdc, hd⟩
    · cases heq
    obtain ⟨hfd', hlive', hheld', hown'⟩ := h.fresh d p k s hd hs
    refine ⟨hfd', hlive', ?_, ?_⟩
    · intro e he
      rcases update_cases he with ⟨-, heq⟩ | ⟨-, he⟩
      · cases heq
        exact hdc (hown d p k hd)
      · exact hheld' e he
    · intro e p' k' he
      rcases update_cases he with ⟨-, heq⟩ | ⟨-, he⟩
      · cases heq
      · exact hown' e p' k' he
  · intro d p k s hd
    rcases update_cases hd with ⟨-, heq⟩ | ⟨-, hd⟩
    · cases heq
    · exact h.hold d p k s hd

omit [DecidableEq α] in
/-- The entry of a descriptor that only one client holds. -/
theorem Inv.register (h : Inv st) (hport : port ≠ 0) (hslot : slot st.bports port = some i)
    (hsock : 0 ≤ sock) (hfd : sock ∈ st.fds)
    (hlive : ∀ j, Live st.bports j → (st.bports j).bp_sock ≠ sock)
    (hone : holders st.clients sock = 1) (hopen : ∀ d p k, st.clients d ≠ .opened p k sock) :
    Inv { st with bports := Function.update st.bports i ⟨port, hold, sock, now, now, 1⟩ } := by
  generalize htable : Function.update st.bports i ⟨port, hold, sock, now, now, 1⟩ = t
  have hself : t i = ⟨port, hold, sock, now, now, 1⟩ := by rw [← htable, Function.update_self]
  have hother : ∀ j, j ≠ i → Live t j → Live st.bports j ∧ t j = st.bports j := by
    intro j hj hl
    have heq : t j = st.bports j := by rw [← htable, Function.update_of_ne hj]
    rw [Live, heq] at hl
    exact ⟨hl, heq⟩
  have hnew : ∀ j, j ≠ i → Live st.bports j → (st.bports j).bp_port ≠ port := by
    intro j hj hl heq
    rcases slot_some hslot with hfind | ⟨hnone, -⟩
    · have hi := findPort_some hfind
      exact hj (h.one j i hl (by rw [Live, hi]; exact hport) (heq.trans hi.symm))
    · exact findPort_none hnone j heq
  -- An entry is the new one, or one that was there.
  have hentry : ∀ P : BoundPort → Prop, P (t i) → (∀ j, Live st.bports j → P (st.bports j)) →
      ∀ j, Live t j → P (t j) := by
    intro P hP hold' j hj
    by_cases hji : j = i
    · rwa [hji]
    · obtain ⟨hl, heq⟩ := hother j hji hj
      rw [heq]
      exact hold' j hl
  have hpair : ∀ f : BoundPort → Int,
      (∀ j, j ≠ i → Live st.bports j → f (st.bports j) ≠ f (t i)) →
      (∀ j k, Live st.bports j → Live st.bports k → f (st.bports j) = f (st.bports k) → j = k) →
      ∀ j k, Live t j → Live t k → f (t j) = f (t k) → j = k := by
    intro f hne hinj j k hj hk hjk
    by_cases hji : j = i <;> by_cases hki : k = i
    · rw [hji, hki]
    · obtain ⟨hl, heq⟩ := hother k hki hk
      rw [hji, heq] at hjk
      exact absurd hjk.symm (hne k hki hl)
    · obtain ⟨hl, heq⟩ := hother j hji hj
      rw [hki, heq] at hjk
      exact absurd hjk (hne j hji hl)
    · obtain ⟨hl, heq⟩ := hother j hji hj
      obtain ⟨hl', heq'⟩ := hother k hki hk
      rw [heq, heq'] at hjk
      exact hinj j k hl hl' hjk
  rw [hself] at hentry hpair
  refine ⟨.mk' (hentry (0 ≤ ·.bp_sock) hsock h.sock) ?_ (hpair (·.bp_port) hnew h.one),
    hentry (·.bp_sock ∈ st.fds) hfd h.fd,
    hpair (·.bp_sock) (fun j _ hl => hlive j hl) h.distinct, h.held, ?_, h.hold⟩
  · refine hentry (fun b => b.bp_nref = holders st.clients b.bp_sock) ?_ h.nref
    dsimp only
    rw [hone]
    rfl
  · intro c p k s hc hs
    obtain ⟨hfd', hlive', hheld, hown⟩ := h.fresh c p k s hc hs
    refine ⟨hfd', hentry (·.bp_sock ≠ s) ?_ hlive', hheld, hown⟩
    rintro rfl
    exact hopen c p k hc

theorem Inv.addPort (h : Inv st) (hc : st.clients c = .opened port hold sock) (now : Int)
    (hsound : 0 ≤ sock ∨ port = 0 ∨ slot st.bports port = none) :
    Inv { st.set c (if 0 ≤ sock then .holding sock else .idle) with
      bports := ports.addPort st.bports port sock hold now } := by
  have hnot : ∀ s, st.clients c ≠ .holding s := by simp [hc]
  by_cases hsock : 0 ≤ sock
  · rw [if_pos hsock]
    have htake := h.take hc hsock
    obtain ⟨hfd, hlive, hheld, hown⟩ := h.fresh c port hold sock hc hsock
    by_cases hnone : port = 0 ∨ slot st.bports port = none
    · exact htake.of_live fun i hi => addPort_live hnone hi
    obtain ⟨hport, hsome⟩ := not_or.mp hnone
    obtain ⟨i, hslot⟩ := Option.ne_none_iff_exists'.mp hsome
    have hadd : ports.addPort st.bports port sock hold now =
        Function.update st.bports i ⟨port, hold, sock, now, now, 1⟩ := by
      unfold ports.addPort
      rw [if_neg (not_le.mpr (h.hold c port hold sock hc)), hslot]
    rw [hadd]
    apply htake.register hport hslot hsock hfd hlive
    · dsimp only [State.set]
      rw [holders_hold hnot, if_pos rfl, holders_eq_zero.mpr hheld]
    · intro d p k hd
      rcases update_cases hd with ⟨-, heq⟩ | ⟨hdc, hd⟩
      · cases heq
      · exact hdc (hown d p k hd)
  · rw [if_neg hsock]
    have hmove : Inv (st.set c .idle) := h.move hnot (by simp) (by simp)
    exact hmove.of_live fun i hi => addPort_live (hsound.resolve_left hsock) hi

/-! ## Runs -/

/-- A failed descriptor is not registered, and a freed entry does not take the place of the one that
a client gives back. -/
def Sound (st : State α) : Act α → Prop
  | .addPort c _ => ∀ port hold sock, st.clients c = .opened port hold sock →
      0 ≤ sock ∨ port = 0 ∨ slot st.bports port = none
  | .freePort c _ => ∀ sock, st.clients c = .holding sock → FoundRight st.bports sock
  | _ => True

theorem Inv.step {a : Act α} (h : Inv st) (hsound : Sound st a) (hstep : ports.step st a = some st')
    :
    Inv st' := by
  unfold ports.step at hstep
  cases a with
  | getPort c port now =>
    dsimp only at hstep
    cases hc : st.clients c with
    | idle =>
      rw [hc] at hstep
      cases hstep
      exact h.getPort hc port now
    | missed | opened | holding => simp [hc] at hstep
  | findopen c hold sock =>
    dsimp only at hstep
    cases hc : st.clients c with
    | missed port =>
      rw [hc] at hstep
      dsimp only at hstep
      by_cases hfail : 0 < hold ∧ sock = -1
      · rw [if_pos hfail] at hstep
        cases hstep
        apply h.move
        · simp [hc]
        · simp
        · intro p k s heq
          cases heq
          omega
      rw [if_neg hfail] at hstep
      by_cases hopen : 0 < hold ∧ 0 ≤ sock ∧ sock ∉ st.fds
      · rw [if_pos hopen] at hstep
        cases hstep
        exact h.findopen hc hopen.1 hopen.2.2
      · rw [if_neg hopen] at hstep
        cases hstep
    | idle | opened | holding => simp [hc] at hstep
  | addPort c now =>
    dsimp only at hstep
    cases hc : st.clients c with
    | opened port hold sock =>
      rw [hc] at hstep
      cases hstep
      exact h.addPort hc now (hsound port hold sock hc)
    | idle | missed | holding => simp [hc] at hstep
  | freePort c now =>
    dsimp only at hstep
    cases hc : st.clients c with
    | holding sock =>
      rw [hc] at hstep
      cases hstep
      exact h.freePort hc now (hsound sock hc)
    | idle | missed | opened => simp [hc] at hstep
  | pwatch now =>
    cases hstep
    exact h.pwatch now

/-- A failed descriptor in an entry of a port. -/
theorem sound_addPort (h : Inv st) (hstep : step st (.addPort c now) = some st')
    (hcounted : Counted st') : Sound st (.addPort c now) := by
  intro port hold sock hc
  by_contra hbad
  obtain ⟨hsock, hbad⟩ := not_or.mp hbad
  obtain ⟨hport, hsome⟩ := not_or.mp hbad
  obtain ⟨i, hslot⟩ := Option.ne_none_iff_exists'.mp hsome
  unfold step at hstep
  dsimp only at hstep
  rw [hc] at hstep
  cases hstep
  have hentry : addPort st.bports port sock hold now i = ⟨port, hold, sock, now, now, 1⟩ := by
    unfold addPort
    rw [if_neg (not_le.mpr (h.hold c port hold sock hc)), hslot]
    exact Function.update_self _ _ _
  have hnonneg := hcounted.sock i (by rw [Live]; dsimp only; rw [hentry]; exact hport)
  dsimp only at hnonneg
  rw [hentry] at hnonneg
  exact hsock hnonneg

/-- An entry that counts a client which has given its descriptor back. -/
theorem sound_freePort (h : Inv st) (hstep : step st (.freePort c now) = some st')
    (hcounted : Counted st') : Sound st (.freePort c now) := by
  intro sock hc i hfind
  by_contra hbad
  obtain ⟨hdead, hlive⟩ := not_or.mp hbad
  push Not at hlive
  obtain ⟨j, hj, hsock⟩ := hlive
  have hji : j ≠ i := fun heq => hdead (heq ▸ hj)
  unfold step at hstep
  dsimp only at hstep
  rw [hc] at hstep
  cases hstep
  have hentry : freePort st.bports sock now j = st.bports j := by
    unfold freePort
    rw [hfind]
    exact Function.update_of_ne hji _ _
  have hafter := hcounted.nref j (by rw [Live]; dsimp only; rw [hentry]; exact hj)
  dsimp only [State.set] at hafter
  rw [hentry] at hafter
  have hbefore := h.nref j hj
  have hrelease := holders_release hc (st.bports j).bp_sock
  rw [if_pos hsock] at hrelease
  omega

theorem Inv.sound {a : Act α} (h : Inv st) (hstep : ports.step st a = some st')
    (hcounted : Counted st') : Sound st a := by
  cases a with
  | addPort c now => exact sound_addPort h hstep hcounted
  | freePort c now => exact sound_freePort h hstep hcounted
  | getPort | findopen | pwatch => trivial

omit [DecidableEq α] in
theorem inv_init : Inv (init : State α) := by
  have hdead : ∀ i, ¬ Live (init : State α).bports i := fun i hi => hi rfl
  refine ⟨.mk' ?_ ?_ ?_, ?_, ?_, ?_, ?_, ?_⟩
  · exact fun i hi => absurd hi (hdead i)
  · exact fun i hi => absurd hi (hdead i)
  · exact fun i j hi => absurd hi (hdead i)
  · exact fun i hi => absurd hi (hdead i)
  · exact fun i j hi => absurd hi (hdead i)
  · intro c s hc
    cases hc
  · intro c p k s hc
    cases hc
  · intro c p k s hc
    cases hc

/-- The ports are counted in every state of a run exactly if its steps are sound ones. -/
theorem counted_iff (acts : List (Act α)) :
    Always step Counted (init : State α) acts ↔ Meets step Sound init acts := by
  apply @always_iff_meets _ _ step Counted Inv Sound
  · exact fun st a st' h hsound hstep => h.step hsound hstep
  · exact fun st h => h.toCounted
  · exact fun st a st' h hstep hcounted => h.sound hstep hcounted
  · exact inv_init

/-- Port 80 cannot be opened, and is registered with the descriptor -1. -/
def failedRun : List (Act (Fin 3)) := [.getPort 0 80 0, .findopen 0 60 (-1), .addPort 0 0]

/-- Two clients open port 81. Before the second one registers it, descriptor 3 of port 80 is closed
and is its descriptor. What it gives back is counted for the freed entry of port 80. -/
def reusedRun : List (Act (Fin 3)) :=
  [.getPort 2 81 0, .getPort 0 80 0, .findopen 0 60 3, .addPort 0 0, .getPort 1 81 0,
    .findopen 1 60 4, .addPort 1 0, .freePort 0 0, .pwatch 100, .findopen 2 60 3, .addPort 2 100,
    .freePort 2 100]

theorem ports_miscounted :
    ¬ Always step Counted (init : State (Fin 3)) failedRun ∧
      ¬ Always step Counted (init : State (Fin 3)) reusedRun := by
  constructor
  · intro h
    obtain ⟨st, hexec, hport, hsock⟩ : ∃ st, exec step (init : State (Fin 3)) failedRun = some st ∧
        (st.bports 0).bp_port = 80 ∧ (st.bports 0).bp_sock = -1 := ⟨_, rfl, rfl, rfl⟩
    have hnonneg := (h.exec hexec).sock 0 (by simp [Live, hport])
    omega
  · intro h
    obtain ⟨st, hexec, hport, hsock, hnref, hnone⟩ :
        ∃ st, exec step (init : State (Fin 3)) reusedRun = some st ∧ (st.bports 1).bp_port = 81 ∧
          (st.bports 1).bp_sock = 3 ∧ (st.bports 1).bp_nref = 1 ∧ holders st.clients 3 = 0 :=
      ⟨_, rfl, rfl, rfl, rfl, rfl⟩
    have hcount := (h.exec hexec).nref 1 (by simp [Live, hport])
    rw [hsock, hnone] at hcount
    omega

end Counts

end delegate.ports
