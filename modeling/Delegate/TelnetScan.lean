-- The scan of Telnet commands in telnet.cpp. It notes in three tables which options
-- the client and the server have said they will use. A command is looked at where it
-- begins, with the bytes behind it, and nothing of it is kept for the next buffer.
import Mathlib

namespace delegate.telnet

/-! ## The pure model -/

def SE : UInt8 := 240
def SB : UInt8 := 250
def WILL : UInt8 := 251
def WONT : UInt8 := 252
def DO : UInt8 := 253
def DONT : UInt8 := 254
def IAC : UInt8 := 255

def O_XDISPLOC : UInt8 := 35

/-- The directions in which the bytes are not rewritten. -/
inductive Direction
  | CtoD
  | StoC
deriving DecidableEq, Repr

/-- The words of `TelnetEnv` from `te_ClientsWill` on. `te_ServersWill` follows after 128 of
them, `te_ClientsDO` after 256. -/
abbrev Tables := Nat → Int

def ClientsWill (ch : UInt8) : Nat := ch.toNat

def ServersWill (ch : UInt8) : Nat := 128 + ch.toNat

def ClientsDO (ch : UInt8) : Nat := 256 + ch.toNat

def Tables.set (t : Tables) (i : Nat) (cch : UInt8) : Tables := Function.update t i cch.toNat

/-- A place that is read or written: of the buffer, or of one of the tables. -/
inductive Access
  | buf (i : Nat)
  | clientsWill (ch : UInt8)
  | serversWill (ch : UInt8)
  | clientsDO (ch : UInt8)
deriving DecidableEq, Repr

/-- Is the place inside the buffer or the table? -/
def Access.inside (cc : Nat) : Access → Prop
  | buf i => i < cc
  | clientsWill ch => ch.toNat < 128
  | serversWill ch => ch.toNat < 128
  | clientsDO ch => ch.toNat < 256

def negotiates (ch : UInt8) : Prop := WILL ≤ ch ∧ ch ≤ DONT

instance (ch : UInt8) : Decidable (negotiates ch) := inferInstanceAs (Decidable (_ ∧ _))

/-- What is done with an option, where `xdisplay` is `Xdisplay[0] != 0`. The byte that is written
back for an X display has been read before, and is not read again. -/
def negotiate (xdisplay : Bool) (i : Nat) (cch ch : UInt8) (t : Tables) :
    Direction → Tables × List Access
  | .CtoD =>
    let rewrites := ch = O_XDISPLOC ∧ cch = WONT ∧ xdisplay = true
    let cch := if rewrites then WILL else cch
    let t :=
      if cch = WILL ∨ (cch = WONT ∧ t (ClientsWill ch) = 0) then t.set (ClientsWill ch) cch else t
    let t := if cch = DO ∨ cch = DONT then t.set (ClientsDO ch) cch else t
    (t, (if rewrites then [.buf i] else []) ++
      (if cch = WILL ∨ cch = WONT then [.clientsWill ch] else []) ++
      (if cch = DO ∨ cch = DONT then [.clientsDO ch] else []))
  | .StoC => (t.set (ServersWill ch) cch, [.serversWill ch])

section
variable (cc : Nat)

/-- The loop over a subnegotiation: what is read, and the bytes behind `SE`. A byte is looked at
together with the one before it. -/
def scanSB : List UInt8 → List Access × List UInt8
  | [] => ([], [])
  | ch :: s =>
    let i := cc - (ch :: s).length
    let reads := .buf i :: if 32 < ch ∧ ch < 0x7F then [.buf (i - 1)] else []
    if ch = SE then (reads, s)
    else
      let rest := scanSB s
      (reads ++ rest.1, rest.2)

variable (dir : Direction) (xdisplay : Bool) (behind : List UInt8)

/-- One turn of the loop of `scanCommands`, at the byte `ch` with the bytes `s` behind it in the
buffer. It gives the tables, what was read, and the bytes of the next turn. -/
def turn (ch : UInt8) (s : List UInt8) (t : Tables) : Tables × List Access × List UInt8 :=
  let i := cc - (ch :: s).length
  let cch := (s ++ behind).getD 0 0
  let opt := (s ++ behind).getD 1 0
  if ch = IAC then
    if negotiates cch then
      let r := negotiate xdisplay (i + 1) cch opt t dir
      (r.1, [.buf i, .buf (i + 1), .buf (i + 2)] ++ r.2, s.drop 2)
    else if cch = SB then
      let r := scanSB cc (s.drop 2)
      (t, [.buf i, .buf (i + 1), .buf (i + 2)] ++ r.1, r.2)
    else (t, [.buf i, .buf (i + 1)], s.drop 1)
  else (t, [.buf i], s)

theorem length_scanSB (s : List UInt8) : (scanSB cc s).2.length ≤ s.length := by
  induction s with
  | nil => exact le_refl 0
  | cons ch s ih =>
    unfold scanSB
    dsimp only
    split
    · exact Nat.le_succ _
    · exact ih.trans (Nat.le_succ _)

theorem length_turn (ch : UInt8) (s : List UInt8) (t : Tables) :
    (turn cc dir xdisplay behind ch s t).2.2.length ≤ s.length := by
  have hsb := length_scanSB cc (s.drop 2)
  have hdrop := List.length_drop (l := s) (i := 2)
  unfold turn
  dsimp only
  split
  · split
    · exact hdrop.le.trans (Nat.sub_le _ _)
    · split
      · exact hsb.trans (hdrop.le.trans (Nat.sub_le _ _))
      · simp
  · exact le_refl _

/-- The loop of `scanCommands`, over the bytes of the buffer that are left. -/
def scan (s : List UInt8) (t : Tables) : Tables × List Access :=
  match s with
  | [] => (t, [])
  | ch :: s =>
    let r := turn cc dir xdisplay behind ch s t
    let rest := scan r.2.2 r.1
    (rest.1, r.2.1 ++ rest.2)
termination_by s.length
decreasing_by
  exact Nat.lt_succ_of_le (length_turn cc dir xdisplay behind _ _ _)

end

/-- The bytes of a buffer, and what stands behind them in memory. -/
structure Buf where
  data : List UInt8
  behind : List UInt8

section
variable (dir : Direction) (xdisplay : Bool)

/-- `scanCommands`: the tables, and what was read and written. The number of bytes that it
returns is that of the buffer. -/
def scanCommands (b : Buf) (t : Tables) : Tables × List Access :=
  scan b.data.length dir xdisplay b.behind b.data t

/-- The buffers one after the other: the tables, and what was read and written, with the number
of bytes of the buffer. -/
def scanBuffers : List Buf → Tables → Tables × List (Nat × Access)
  | [], t => (t, [])
  | b :: bs, t =>
    let r := scanCommands dir xdisplay b t
    let rest := scanBuffers bs r.1
    (rest.1, r.2.map (fun a => (b.data.length, a)) ++ rest.2)

/-- All reads and indexes are inside, and the tables are those of the whole stream in one call. -/
structure Sound (bufs : List Buf) (t : Tables) : Prop where
  inside : ∀ x ∈ (scanBuffers dir xdisplay bufs t).2, x.2.inside x.1
  whole : ∀ behind, (scanBuffers dir xdisplay bufs t).1 =
    (scanCommands dir xdisplay ⟨bufs.flatMap Buf.data, behind⟩ t).1

end

/-! ## Commands -/

/-- The option has its place in the table of the command. -/
def fits (opt cch : UInt8) : Direction → Prop
  | .CtoD => cch = WILL ∨ cch = WONT → opt.toNat < 128
  | .StoC => opt.toNat < 128

/-- The bytes are data and whole commands, with options that fit. If `cut` is set, the last of
them may be a subnegotiation without its end. -/
inductive Commands (dir : Direction) (cut : Bool) : List UInt8 → Prop
  | nil : Commands dir cut []
  | data {ch s} : ch ≠ IAC → Commands dir cut s → Commands dir cut (ch :: s)
  | option {cch opt s} : negotiates cch → fits opt cch dir → Commands dir cut s →
      Commands dir cut (IAC :: cch :: opt :: s)
  | sub {opt body s} : SE ∉ body → Commands dir cut s →
      Commands dir cut (IAC :: SB :: opt :: (body ++ SE :: s))
  | subCut {opt body} : cut = true → SE ∉ body → Commands dir cut (IAC :: SB :: opt :: body)
  | other {cch s} : ¬negotiates cch → cch ≠ SB → Commands dir cut s →
      Commands dir cut (IAC :: cch :: s)

/-- Data and commands that are passed over. -/
inductive Quiet : List UInt8 → Prop
  | nil : Quiet []
  | data {ch s} : ch ≠ IAC → Quiet s → Quiet (ch :: s)
  | other {cch s} : ¬negotiates cch → cch ≠ SB → Quiet s → Quiet (IAC :: cch :: s)

/-- A buffer, between the places before and behind it: is a place inside a subnegotiation? -/
inductive Step (dir : Direction) : Bool → List UInt8 → Bool → Prop
  | whole {s} : Commands dir false s → Step dir false s false
  | cut {s opt body} : Commands dir false s → SE ∉ body →
      Step dir false (s ++ IAC :: SB :: opt :: body) true
  | inside {body} : SE ∉ body → Quiet body → Step dir true body true
  | ends {body s p} : SE ∉ body → Quiet (body ++ [SE]) → Step dir false s p →
      Step dir true (body ++ SE :: s) p

/-- No buffer ends in the head of a command, and what is left of a subnegotiation in a later buffer
is quiet. -/
inductive Runs (dir : Direction) : Bool → List Buf → Prop
  | nil {p} : Runs dir p []
  | cons {p p' b bs} : Step dir p b.data p' → Runs dir p' bs → Runs dir p (b :: bs)

/-! ## One turn -/

theorem scanSB_append (cc : Nat) {body : List UInt8} (h : SE ∉ body) (s : List UInt8) :
    (scanSB cc (body ++ s)).2 = (scanSB cc s).2 := by
  induction body with
  | nil => rfl
  | cons ch body ih =>
    obtain ⟨hch, hbody⟩ := List.ne_and_not_mem_of_not_mem_cons h
    rw [List.cons_append, scanSB, if_neg (Ne.symm hch)]
    exact ih hbody

theorem scanSB_end (cc : Nat) {body : List UInt8} (h : SE ∉ body) (s : List UInt8) :
    (scanSB cc (body ++ SE :: s)).2 = s := by
  rw [scanSB_append cc h, scanSB, if_pos rfl]

theorem scanSB_none (cc : Nat) {body : List UInt8} (h : SE ∉ body) : (scanSB cc body).2 = [] := by
  have hnil := scanSB_append cc h []
  rwa [List.append_nil] at hnil

theorem scanSB_inside (cc : Nat) (s : List UInt8) (h : s.length ≤ cc) :
    ∀ a ∈ (scanSB cc s).1, a.inside cc := by
  induction s with
  | nil =>
    intro a ha
    cases ha
  | cons ch s ih =>
    have hhere : cc - (ch :: s).length < cc := by
      rw [List.length_cons] at h ⊢
      omega
    have hreads : ∀ a ∈ Access.buf (cc - (ch :: s).length) ::
        (if 32 < ch ∧ ch < 0x7F then [Access.buf (cc - (ch :: s).length - 1)] else []),
        a.inside cc := by
      intro a ha
      rcases List.mem_cons.mp ha with rfl | ha
      · exact hhere
      · split at ha
        · rw [List.mem_singleton.mp ha]
          exact (Nat.sub_le _ 1).trans_lt hhere
        · cases ha
    unfold scanSB
    dsimp only
    split
    · exact hreads
    · intro a ha
      rcases List.mem_append.mp ha with ha | ha
      · exact hreads a ha
      · exact ih ((Nat.le_succ _).trans h) a ha

section
variable (cc : Nat) (dir : Direction) (xdisplay : Bool) (behind : List UInt8)

theorem scan_nil (t : Tables) : scan cc dir xdisplay behind [] t = (t, []) := by
  rw [scan]

theorem scan_data {ch : UInt8} (h : ch ≠ IAC) (s : List UInt8) (t : Tables) :
    scan cc dir xdisplay behind (ch :: s) t =
      ((scan cc dir xdisplay behind s t).1,
        .buf (cc - (ch :: s).length) :: (scan cc dir xdisplay behind s t).2) := by
  rw [scan, turn, if_neg h]
  rfl

theorem scan_option {cch : UInt8} (h : negotiates cch) (opt : UInt8) (s : List UInt8)
    (t : Tables) :
    let i := cc - (IAC :: cch :: opt :: s).length
    let r := negotiate xdisplay (i + 1) cch opt t dir
    scan cc dir xdisplay behind (IAC :: cch :: opt :: s) t =
      ((scan cc dir xdisplay behind s r.1).1,
        [.buf i, .buf (i + 1), .buf (i + 2)] ++ r.2 ++ (scan cc dir xdisplay behind s r.1).2) := by
  have hcch : ((cch :: opt :: s) ++ behind).getD 0 0 = cch := rfl
  have hopt : ((cch :: opt :: s) ++ behind).getD 1 0 = opt := rfl
  rw [scan, turn, if_pos rfl, hcch, hopt, if_pos h]
  rfl

theorem not_negotiates_SB : ¬negotiates SB := by decide

theorem scan_sub (opt : UInt8) (s : List UInt8) (t : Tables) :
    let i := cc - (IAC :: SB :: opt :: s).length
    scan cc dir xdisplay behind (IAC :: SB :: opt :: s) t =
      ((scan cc dir xdisplay behind (scanSB cc s).2 t).1,
        [.buf i, .buf (i + 1), .buf (i + 2)] ++ (scanSB cc s).1 ++
          (scan cc dir xdisplay behind (scanSB cc s).2 t).2) := by
  have hcch : ((SB :: opt :: s) ++ behind).getD 0 0 = SB := rfl
  rw [scan, turn, if_pos rfl, hcch, if_neg not_negotiates_SB, if_pos rfl]
  rfl

theorem scan_other {cch : UInt8} (h : ¬negotiates cch) (hsb : cch ≠ SB) (s : List UInt8)
    (t : Tables) :
    let i := cc - (IAC :: cch :: s).length
    scan cc dir xdisplay behind (IAC :: cch :: s) t =
      ((scan cc dir xdisplay behind s t).1,
        [.buf i, .buf (i + 1)] ++ (scan cc dir xdisplay behind s t).2) := by
  have hcch : ((cch :: s) ++ behind).getD 0 0 = cch := rfl
  rw [scan, turn, if_pos rfl, hcch, if_neg h, if_neg hsb]
  rfl

/-- What is read at the head of a command goes behind the bytes that are left. -/
theorem scan_head_reads (s : List UInt8) (t : Tables) :
    .buf (cc - (IAC :: s).length + 1) ∈ (scan cc dir xdisplay behind (IAC :: s) t).2 ∧
      (negotiates ((s ++ behind).getD 0 0) ∨ (s ++ behind).getD 0 0 = SB →
        .buf (cc - (IAC :: s).length + 2) ∈ (scan cc dir xdisplay behind (IAC :: s) t).2) := by
  rw [scan, turn, if_pos rfl]
  by_cases hneg : negotiates ((s ++ behind).getD 0 0)
  · rw [if_pos hneg]
    exact ⟨by simp, fun _ => by simp⟩
  · rw [if_neg hneg]
    by_cases hsb : (s ++ behind).getD 0 0 = SB
    · rw [if_pos hsb]
      exact ⟨by simp, fun _ => by simp⟩
    · rw [if_neg hsb]
      exact ⟨by simp, fun h => absurd h (not_or.mpr ⟨hneg, hsb⟩)⟩

end

/-- The indexes of an option are inside the tables exactly if the option fits. -/
theorem negotiate_inside {cc i : Nat} (hi : i < cc) (dir : Direction) (xdisplay : Bool)
    {cch : UInt8} (opt : UInt8) (t : Tables) :
    (∀ a ∈ (negotiate xdisplay i cch opt t dir).2, a.inside cc) ↔ fits opt cch dir := by
  have hopt : opt.toNat < 256 := opt.toNat_lt
  cases dir with
  | StoC => simp [negotiate, fits, Access.inside]
  | CtoD =>
    unfold negotiate fits
    dsimp only
    by_cases hrewrites : opt = O_XDISPLOC ∧ cch = WONT ∧ xdisplay = true
    · obtain ⟨rfl, rfl, rfl⟩ := hrewrites
      simp [Access.inside, hi, O_XDISPLOC, WILL, WONT, DO, DONT]
    · rw [if_neg hrewrites, if_neg hrewrites, List.nil_append]
      by_cases hwill : cch = WILL ∨ cch = WONT
      · have hdo : ¬(cch = DO ∨ cch = DONT) := by
          rcases hwill with rfl | rfl <;> decide
        simp [hwill, hdo, Access.inside]
      · by_cases hdo : cch = DO ∨ cch = DONT <;> simp [hwill, hdo, Access.inside, hopt]

/-! ## Inside the buffer -/

theorem exists_first {s : List UInt8} (h : SE ∈ s) :
    ∃ body rest, s = body ++ SE :: rest ∧ SE ∉ body := by
  induction s with
  | nil => cases h
  | cons ch s ih =>
    by_cases hch : ch = SE
    · subst hch
      exact ⟨[], s, rfl, List.not_mem_nil⟩
    · obtain ⟨body, rest, rfl, hbody⟩ := ih ((List.mem_cons.mp h).resolve_left (Ne.symm hch))
      exact ⟨ch :: body, rest, rfl, by simp [hbody, Ne.symm hch]⟩

section
variable (dir : Direction) (xdisplay : Bool) (behind : List UInt8)

/-- A scan of whole commands stays inside. -/
theorem inside_of_commands {cc : Nat} {s : List UInt8} (h : Commands dir true s)
    (hlen : s.length ≤ cc) (t : Tables) :
    ∀ a ∈ (scan cc dir xdisplay behind s t).2, a.inside cc := by
  induction h generalizing t with
  | nil =>
    rw [scan_nil]
    intro a ha
    cases ha
  | @data ch s hch _ ih =>
    rw [List.length_cons] at hlen
    rw [scan_data _ _ _ _ hch]
    intro a ha
    rcases List.mem_cons.mp ha with rfl | ha
    · change cc - (s.length + 1) < cc
      omega
    · exact ih (by omega) t a ha
  | @option cch opt s hcch hfits _ ih =>
    simp only [List.length_cons] at hlen
    have hpos : cc - (s.length + 3) + 1 < cc := by omega
    have hneg := (negotiate_inside hpos dir xdisplay opt t).mpr hfits
    rw [scan_option _ _ _ _ hcch]
    intro a ha
    rw [List.mem_append, List.mem_append] at ha
    rcases ha with (ha | ha) | ha
    · simp only [List.length_cons, List.mem_cons, List.not_mem_nil, or_false] at ha
      rcases ha with rfl | rfl | rfl <;> change _ < cc <;> omega
    · exact hneg a ha
    · exact ih (by omega) _ a ha
  | @sub opt body s hbody _ ih =>
    simp only [List.length_cons, List.length_append] at hlen
    have hsb := scanSB_inside cc (body ++ SE :: s)
      (by simp only [List.length_cons, List.length_append]; omega)
    rw [scan_sub, scanSB_end cc hbody]
    intro a ha
    rw [List.mem_append, List.mem_append] at ha
    rcases ha with (ha | ha) | ha
    · simp only [List.length_cons, List.length_append, List.mem_cons, List.not_mem_nil,
        or_false] at ha
      rcases ha with rfl | rfl | rfl <;> change _ < cc <;> omega
    · exact hsb a ha
    · exact ih (by omega) _ a ha
  | @subCut opt body _ hbody =>
    simp only [List.length_cons] at hlen
    have hsb := scanSB_inside cc body (by omega)
    rw [scan_sub, scanSB_none cc hbody, scan_nil]
    intro a ha
    rw [List.append_nil, List.mem_append] at ha
    rcases ha with ha | ha
    · simp only [List.length_cons, List.mem_cons, List.not_mem_nil, or_false] at ha
      rcases ha with rfl | rfl | rfl <;> change _ < cc <;> omega
    · exact hsb a ha
  | @other cch s hcch hsb _ ih =>
    simp only [List.length_cons] at hlen
    rw [scan_other _ _ _ _ hcch hsb]
    intro a ha
    rcases List.mem_append.mp ha with ha | ha
    · simp only [List.length_cons, List.mem_cons, List.not_mem_nil, or_false] at ha
      rcases ha with rfl | rfl <;> change _ < cc <;> omega
    · exact ih (by omega) _ a ha

/-- A scan that stays inside is one of whole commands. -/
theorem commands_of_inside {cc : Nat} (s : List UInt8) (hlen : s.length ≤ cc) (t : Tables)
    (h : ∀ a ∈ (scan cc dir xdisplay behind s t).2, a.inside cc) : Commands dir true s := by
  induction hn : s.length using Nat.strong_induction_on generalizing s t with
  | _ n ih =>
    match s with
    | [] => exact .nil
    | ch :: s =>
      by_cases hch : ch = IAC
      · subst hch
        obtain ⟨hread1, hread2⟩ := scan_head_reads cc dir xdisplay behind s t
        match s with
        | [] =>
          have habs : cc - 1 + 1 < cc := h _ hread1
          rw [List.length_singleton] at hlen
          omega
        | cch :: s =>
          simp only [List.length_cons] at hlen hn
          by_cases hcch : negotiates cch
          · match s with
            | [] =>
              have habs : cc - 2 + 2 < cc := h _ (hread2 (.inl hcch))
              rw [List.length_nil] at hlen
              omega
            | opt :: s =>
              simp only [List.length_cons] at hlen hn
              rw [scan_option _ _ _ _ hcch] at h
              have hpos : cc - (s.length + 3) + 1 < cc := by omega
              have hneg := (negotiate_inside hpos dir xdisplay opt t).mp fun a ha =>
                h a (List.mem_append_left _ (List.mem_append_right _ ha))
              exact .option hcch hneg (ih s.length (by omega) s (by omega) _
                (fun a ha => h a (List.mem_append_right _ ha)) rfl)
          · by_cases hsb : cch = SB
            · subst hsb
              match s with
              | [] =>
                have habs : cc - 2 + 2 < cc := h _ (hread2 (.inr rfl))
                rw [List.length_nil] at hlen
                omega
              | opt :: s =>
                by_cases hse : SE ∈ s
                · obtain ⟨body, rest, rfl, hbody⟩ := exists_first hse
                  simp only [List.length_cons, List.length_append] at hlen hn
                  rw [scan_sub, scanSB_end cc hbody] at h
                  exact .sub hbody (ih rest.length (by omega) rest (by omega) _
                    (fun a ha => h a (List.mem_append_right _ ha)) rfl)
                · exact .subCut rfl hse
            · rw [scan_other _ _ _ _ hcch hsb] at h
              exact .other hcch hsb (ih s.length (by omega) s (by omega) _
                (fun a ha => h a (List.mem_append_right _ ha)) rfl)
      · rw [List.length_cons] at hlen hn
        rw [scan_data _ _ _ _ hch] at h
        exact .data hch (ih s.length (by omega) s (by omega) t
          (fun a ha => h a (List.mem_cons_of_mem _ ha)) rfl)

end

/-! ## Over the buffers -/

theorem negotiate_tables (xdisplay : Bool) (i j : Nat) (cch opt : UInt8) (t : Tables)
    (dir : Direction) :
    (negotiate xdisplay i cch opt t dir).1 = (negotiate xdisplay j cch opt t dir).1 := by
  cases dir <;> rfl

section
variable {dir : Direction}

theorem Quiet.commands {s : List UInt8} (h : Quiet s) (cut : Bool) : Commands dir cut s := by
  induction h with
  | nil => exact .nil
  | data hch _ ih => exact .data hch ih
  | other hcch hsb _ ih => exact .other hcch hsb ih

theorem Commands.append {cut : Bool} {a b : List UInt8} (ha : Commands dir false a)
    (hb : Commands dir cut b) : Commands dir cut (a ++ b) := by
  induction ha with
  | nil => exact hb
  | data hch _ ih => exact .data hch ih
  | option hcch hfits _ ih => exact .option hcch hfits ih
  | @sub opt body s hbody _ ih =>
    have hassoc : IAC :: SB :: opt :: (body ++ SE :: s) ++ b =
        IAC :: SB :: opt :: (body ++ SE :: (s ++ b)) := by simp
    rw [hassoc]
    exact .sub hbody ih
  | subCut habs => cases habs
  | other hcch hsb _ ih => exact .other hcch hsb ih

/-- What may come in a buffer is read inside of it. -/
theorem Step.commands {p p' : Bool} {s : List UInt8} (h : Step dir p s p') :
    Commands dir true s := by
  induction h with
  | whole hs =>
    have happend := hs.append (.nil : Commands dir true [])
    rwa [List.append_nil] at happend
  | cut hs hbody => exact hs.append (.subCut rfl hbody)
  | inside _ hquiet => exact hquiet.commands true
  | @ends body s p _ hquiet _ ih =>
    have happend := (hquiet.commands false).append ih
    rwa [List.append_assoc] at happend

variable (xdisplay : Bool)

/-- Whole commands leave the same tables wherever they are scanned, and what follows them is scanned
from there. -/
theorem scan_append {a : List UInt8} (h : Commands dir false a) (b : List UInt8) (t : Tables)
    (cc cc' : Nat) (behind behind' : List UInt8) :
    (scan cc dir xdisplay behind (a ++ b) t).1 =
      (scan cc dir xdisplay behind b (scan cc' dir xdisplay behind' a t).1).1 := by
  induction h generalizing t with
  | nil =>
    rw [scan_nil]
    rfl
  | data hch _ ih =>
    rw [List.cons_append, scan_data _ _ _ _ hch, scan_data _ _ _ _ hch]
    exact ih t
  | @option cch opt s hcch _ _ ih =>
    rw [List.cons_append, List.cons_append, List.cons_append, scan_option _ _ _ _ hcch,
      scan_option _ _ _ _ hcch]
    have hsame := negotiate_tables xdisplay (cc - (IAC :: cch :: opt :: (s ++ b)).length + 1)
      (cc' - (IAC :: cch :: opt :: s).length + 1) cch opt t dir
    dsimp only
    rw [hsame]
    exact ih _
  | @sub opt body s hbody _ ih =>
    have hassoc : IAC :: SB :: opt :: (body ++ SE :: s) ++ b =
        IAC :: SB :: opt :: (body ++ SE :: (s ++ b)) := by simp
    rw [hassoc, scan_sub, scan_sub, scanSB_end cc hbody, scanSB_end cc' hbody]
    exact ih t
  | subCut habs => cases habs
  | other hcch hsb _ ih =>
    rw [List.cons_append, List.cons_append, scan_other _ _ _ _ hcch hsb,
      scan_other _ _ _ _ hcch hsb]
    exact ih t

/-- Quiet bytes leave the tables. -/
theorem scan_quiet {s : List UInt8} (h : Quiet s) (cc : Nat) (behind : List UInt8) (t : Tables) :
    (scan cc dir xdisplay behind s t).1 = t := by
  induction h with
  | nil => rw [scan_nil]
  | data hch _ ih => rwa [scan_data _ _ _ _ hch]
  | other hcch hsb _ ih => rwa [scan_other _ _ _ _ hcch hsb]

/-- The stream in one call, from a place that may be inside a subnegotiation. -/
def scanFrom (dir : Direction) (cc : Nat) (behind : List UInt8) (p : Bool) (s : List UInt8)
    (t : Tables) : Tables :=
  (scan cc dir xdisplay behind (if p then (scanSB cc s).2 else s) t).1

/-- After a buffer the one call is where the scan of the buffer is, but for the place inside a
subnegotiation. -/
theorem Step.scanFrom {p p' : Bool} {s : List UInt8} (h : Step dir p s p') (rest : List UInt8)
    (t : Tables) (cc cc' : Nat) (behind behind' : List UInt8) :
    scanFrom xdisplay dir cc behind p (s ++ rest) t =
      scanFrom xdisplay dir cc behind p' rest (scan cc' dir xdisplay behind' s t).1 := by
  induction h generalizing t with
  | whole hs => exact scan_append xdisplay hs rest t cc cc' behind behind'
  | @cut s opt body hs hbody =>
    have hassoc : s ++ IAC :: SB :: opt :: body ++ rest =
        s ++ IAC :: SB :: opt :: (body ++ rest) := by simp
    unfold telnet.scanFrom
    rw [hassoc, if_neg Bool.false_ne_true, if_pos rfl,
      scan_append xdisplay hs _ t cc cc' behind behind', scan_sub, scanSB_append cc hbody,
      scan_append xdisplay hs _ t cc' cc' behind' behind', scan_sub, scanSB_none cc' hbody, scan_nil]
  | @inside body hbody hquiet =>
    unfold telnet.scanFrom
    rw [if_pos rfl, scanSB_append cc hbody, scan_quiet xdisplay hquiet]
    rfl
  | @ends body s p hbody hquiet _ ih =>
    have hassoc : body ++ SE :: s ++ rest = body ++ SE :: (s ++ rest) := by simp
    have hsplit : body ++ SE :: s = body ++ [SE] ++ s := by simp
    rw [hassoc, hsplit,
      scan_append xdisplay (hquiet.commands false) s t cc' cc' behind' behind',
      scan_quiet xdisplay hquiet, ← ih t]
    unfold telnet.scanFrom
    rw [if_pos rfl, if_neg Bool.false_ne_true, scanSB_end cc hbody]

/-- The run over the buffers ends with the tables of the one call. -/
theorem Runs.tables {p : Bool} {bufs : List Buf} (h : Runs dir p bufs) (t : Tables) (cc : Nat)
    (behind : List UInt8) :
    (scanBuffers dir xdisplay bufs t).1 =
      scanFrom xdisplay dir cc behind p (bufs.flatMap Buf.data) t := by
  induction h generalizing t with
  | @nil p =>
    unfold telnet.scanFrom scanBuffers
    cases p
    · exact (congrArg Prod.fst (scan_nil cc dir xdisplay behind t)).symm
    · exact (congrArg Prod.fst (scan_nil cc dir xdisplay behind t)).symm
  | @cons p p' b bs hstep _ ih =>
    rw [List.flatMap_cons, hstep.scanFrom xdisplay _ t cc b.data.length behind b.behind]
    exact ih _

theorem Runs.commands {p : Bool} {bufs : List Buf} (h : Runs dir p bufs) :
    ∀ b ∈ bufs, Commands dir true b.data := by
  induction h with
  | nil =>
    intro b hb
    cases hb
  | cons hstep _ ih =>
    intro b hb
    rcases List.mem_cons.mp hb with rfl | hb
    · exact hstep.commands
    · exact ih b hb

/-- The buffers are read inside of them exactly if none ends in the head of a command and the
options fit. -/
theorem inside_iff (bufs : List Buf) (t : Tables) :
    (∀ x ∈ (scanBuffers dir xdisplay bufs t).2, x.2.inside x.1) ↔
      ∀ b ∈ bufs, Commands dir true b.data := by
  induction bufs generalizing t with
  | nil => simp [scanBuffers]
  | cons b bs ih =>
    have hhere : (∀ a ∈ (scanCommands dir xdisplay b t).2, a.inside b.data.length) ↔
        Commands dir true b.data := by
      constructor
      · intro h
        exact commands_of_inside dir xdisplay b.behind b.data (le_refl _) t h
      · intro h
        exact inside_of_commands dir xdisplay b.behind h (le_refl _) t
    rw [scanBuffers, List.forall_mem_cons, ← hhere, ← ih (scanCommands dir xdisplay b t).1]
    simp only [List.forall_mem_append, List.forall_mem_map]

end

/-- Where no buffer ends in the head of a command, the options fit, and what is left of a
subnegotiation in a later buffer is quiet, the scan is safe and does not depend on the cuts. The
first two are also needed for it to be safe. -/
theorem scanBuffers_sound (dir : Direction) (xdisplay : Bool) (bufs : List Buf) (t : Tables) :
    ((∀ x ∈ (scanBuffers dir xdisplay bufs t).2, x.2.inside x.1) ↔
      ∀ b ∈ bufs, Commands dir true b.data) ∧
    (Runs dir false bufs → Sound dir xdisplay bufs t) := by
  refine ⟨inside_iff xdisplay bufs t, ?_⟩
  intro h
  refine ⟨(inside_iff xdisplay bufs t).mpr h.commands, ?_⟩
  intro behind
  exact h.tables xdisplay t _ behind

/-- An option, and a terminal type that is cut before its name. -/
theorem scanBuffers_sound_termtype :
    Sound .CtoD false [⟨[IAC, WILL, 24, IAC, SB, 24, 0], []⟩, ⟨[118, 116, IAC, SE], [9]⟩]
      (fun _ => 0) := by
  apply (scanBuffers_sound _ _ _ _).2
  refine .cons (?_ : Step .CtoD false _ true) (.cons (?_ : Step .CtoD true _ false) .nil)
  · exact @Step.cut _ [IAC, WILL, 24] 24 [0]
      (.option (by decide) (fun _ => by decide) .nil) (by decide)
  · refine @Step.ends _ [118, 116, IAC] [] false (by decide) ?_ (.whole .nil)
    exact .data (by decide) (.data (by decide) (.other (by decide) (by decide) .nil))

/-- A command that is cut behind `IAC`, an option without a place in the table, and a command in what
is left of a subnegotiation. -/
theorem scanBuffers_unsound :
    ¬Sound .CtoD false [⟨[IAC], []⟩, ⟨[WILL, 1], []⟩] (fun _ => 0) ∧
      ¬Sound .CtoD false [⟨[IAC, WILL, 200], []⟩] (fun _ => 0) ∧
      ¬Sound .CtoD false [⟨[IAC, SB, 24], []⟩, ⟨[IAC, DO, 1, IAC, SE], []⟩] (fun _ => 0) := by
  refine ⟨?_, ?_, ?_⟩
  · intro h
    have hhead := (inside_iff _ _ _).mp h.inside _ List.mem_cons_self
    cases hhead with
    | data hch _ => exact hch rfl
  · intro h
    have hhead := (inside_iff _ _ _).mp h.inside _ List.mem_cons_self
    cases hhead with
    | data hch _ => exact hch rfl
    | option _ hfits _ => exact absurd (hfits (.inl rfl)) (by decide)
    | other hcch _ _ => exact hcch (by decide)
  · intro h
    have hwhole := congrFun (h.whole []) (ClientsDO 1)
    have hcut : (scanBuffers .CtoD false [⟨[IAC, SB, 24], []⟩, ⟨[IAC, DO, 1, IAC, SE], []⟩]
        (fun _ => 0)).1 (ClientsDO 1) = 253 := by
      simp only [scanBuffers, scanCommands, scan_sub, scan_nil, scanSB,
        scan_option _ _ _ _ (by decide : negotiates DO),
        scan_other _ _ _ _ (by decide : ¬negotiates SE) (by decide : SE ≠ SB)]
      rfl
    have hone : (scanCommands .CtoD false ⟨[IAC, SB, 24, IAC, DO, 1, IAC, SE], []⟩
        (fun _ => 0)).1 (ClientsDO 1) = 0 := by
      have hsb := scanSB_end 8 (by decide : SE ∉ [IAC, DO, 1, IAC]) []
      unfold scanCommands
      rw [scan_sub]
      change (scan 8 _ _ _ (scanSB 8 ([IAC, DO, 1, IAC] ++ SE :: [])).2 _).1 _ = _
      rw [hsb, scan_nil]
    rw [hcut] at hwhole
    exact absurd (hwhole.trans hone) (by decide)

end delegate.telnet
