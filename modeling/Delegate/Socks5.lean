-- The SOCKS5 server up to the command of a client (`SOCKS_serverV5A`): the
-- choice of a method, the user and password, and the request.
import Delegate.DnsMessage

open reads
open delegate.dns (Octet Bytes ascii cstr)

namespace delegate.socks

/-! ## The session -/

/-- A call of the authorizer with a user and a password, or with none. -/
abbrev Call := Option (Bytes × Bytes)

/-- An authorizer answers a call after the calls before it. -/
abbrev Authorizer := List Call → Call → Int

/-- A session: what the client has still to send before the end of file, what was sent to it,
the buffer of requests, and the calls of the authorizer with their answers. -/
structure Sess where
  fc : Bytes
  feof : Bool := false
  tc : Bytes := []
  qbuf : Nat → Octet
  calls : List (Call × Int) := []

def EOF : Int := -1

def getc : StateM Sess Int := fun s =>
  match s.fc with
  | [] => (EOF, { s with feof := true })
  | b :: fc => (b.toNat, { s with fc })

/-- `fread` of `n` bytes. -/
def fread (n : Nat) : StateM Sess Bytes := fun s =>
  (s.fc.take n, { s with fc := s.fc.drop n, feof := s.feof || decide (s.fc.length < n) })

def fwrite (b : Bytes) : StateM Sess Unit := fun s => ((), { s with tc := s.tc ++ b })

/-- Bytes in the buffer of requests, from `i` on. -/
def setQbuf (i : Nat) (b : Bytes) : StateM Sess Unit := fun s =>
  ((), { s with qbuf := poke s.qbuf i b })

/-- A byte of the buffer from `getc`. -/
def getQ (i : Nat) : StateM Sess Octet := do
  let c ← getc
  setQbuf i [UInt8.ofNat (c % 256).toNat]
  pure (UInt8.ofNat (c % 256).toNat)

def CTX_auth (auth : Authorizer) (call : Call) : StateM Sess Int := fun s =>
  let rcode := auth (s.calls.map Prod.fst) call
  (rcode, { s with calls := s.calls ++ [(call, rcode)] })

/-! ## The server -/

def AUTH_M_NONE : Octet := 0
def AUTH_M_USERPASS : Octet := 2
def AUTH_M_ERROR : Octet := 0xFF

def AUTH_R_OK : Octet := 0
def AUTH_R_ERR : Octet := 1

/-- An `int` as an `unsigned int`. -/
def unsigned (i : Int) : Nat := (i % 2 ^ 32).toNat

structure Env where
  lNOAUTHPROXY : Bool
  lSINGLEP : Bool
  /-- The text of an IPv6 address. -/
  VSA_ltoa : Bytes → Bytes

/-- How a run ends, or where the processing of a command begins. -/
inductive Result
  | refused
  | errexit (rep : Nat)
  | accByConn (host : Bytes) (port : Int)
  | command (cmd : Octet) (host : Bytes) (port : Int)
  deriving DecidableEq, Repr

/-- The client offers a user and a password. -/
def offersUserPass (nmethods : Octet) (qbuf : Nat → Octet) : Bool :=
  (List.range nmethods.toNat).any fun ai => qbuf (2 + ai) == AUTH_M_USERPASS

/-- The method, before the try without a user and a password. -/
def firstMethod (env : Env) (auth : Authorizer) (nmethods : Octet) : StateM Sess Octet := do
  if env.lNOAUTHPROXY then pure AUTH_M_NONE
  else do
    let required ← CTX_auth auth none
    if required ≠ 0 then
      pure (if offersUserPass nmethods (← get).qbuf then AUTH_M_USERPASS else AUTH_M_ERROR)
    else pure AUTH_M_NONE

/-- The method for the client, from the methods it sent. -/
def chooseMethod (env : Env) (auth : Authorizer) (nmethods : Octet) : StateM Sess Octet := do
  let rauth ← firstMethod env auth nmethods
  if rauth = AUTH_M_ERROR then do
    let rcode ← CTX_auth auth (some ([], []))
    pure (if 0 ≤ rcode then AUTH_M_NONE else rauth)
  else pure rauth

/-- A length and as many bytes, for a buffer of 256 bytes: the length and the count of the bytes
as `unsigned`, and the bytes. -/
def readText : StateM Sess (Nat × Nat × Bytes) := do
  let len := unsigned (← getc)
  if 256 ≤ len then pure (len, unsigned (-1), [])
  else if len = 0 then pure (len, 0, [])
  else do
    let text ← fread len
    pure (len, text.length, text)

/-- How the subnegotiation of user and password ends. -/
inductive Gate
  | accepted
  | refused
  | errexit
  deriving DecidableEq, Repr

def userPass (auth : Authorizer) : StateM Sess Gate := do
  let ver := unsigned (← getc)
  let (ulen, rcc, user) ← readText
  if ver = unsigned EOF ∨ ulen = unsigned EOF ∨ rcc < ulen then pure .errexit
  else do
    let (plen, rcc, pass) ← readText
    if plen = unsigned EOF ∨ rcc < plen then pure .errexit
    else if (← get).feof then pure .errexit
    else do
      let rcode ← CTX_auth auth (some (cstr user, cstr pass))
      fwrite [1, if rcode < 0 then AUTH_R_ERR else AUTH_R_OK]
      if rcode < 0 then pure .refused else pure .accepted

/-- The text of a number. -/
def decimal (n : Nat) : Bytes := (Nat.toDigits 10 n).map fun c => UInt8.ofNat c.toNat

def ACCONN : Bytes := ascii ".accept.-"

/-- The host of a request, from the bytes of its address. -/
def requestHost (env : Env) (atyp : Octet) (aleng : Int) (qh : Bytes) : Bytes :=
  if atyp = 1 then
    decimal (qh.getD 0 0).toNat ++ [46] ++ decimal (qh.getD 1 0).toNat ++ [46] ++
      decimal (qh.getD 2 0).toNat ++ [46] ++ decimal (qh.getD 3 0).toNat
  else if atyp = 3 then cstr (qh.take aleng.toNat)
  else if atyp = 4 then env.VSA_ltoa (qh.take 16)
  else []

/-- The length of the address of a request. -/
def addressLength (atyp : Octet) : StateM Sess Int :=
  if atyp = 1 then pure 4
  else if atyp = 3 then getc
  else if atyp = 4 then pure 16
  else pure 0

/-- The request of the client, to the beginning of its processing. -/
def request (env : Env) : StateM Sess Result := do
  let _ ← getQ 0
  let cmd ← getQ 1
  let _ ← getQ 2
  let atyp ← getQ 3
  setQbuf 4 [0]
  let aleng ← addressLength atyp
  let addr ← fread aleng.toNat
  setQbuf 4 addr
  let qbuf := (← get).qbuf
  let host := requestHost env atyp aleng ((List.range 256).map fun i => qbuf (4 + i))
  let hi ← getc
  let lo ← getc
  let port := ((BitVec.ofInt 32 hi <<< 8) ||| BitVec.ofInt 32 lo).toInt
  if cmd = 1 ∧ env.lSINGLEP ∧ ACCONN.isSuffixOf host then pure (.accByConn host port)
  else if cmd = 1 ∨ cmd = 2 ∨ cmd = 3 then pure (.command cmd host port)
  else pure (.errexit 7)

/-- The methods that the client knows, in the buffer, and how many there are. -/
def readMethods : StateM Sess Octet := do
  let _ ← getQ 0
  let nmethods ← getQ 1
  setQbuf 2 [0, 0]
  let methods ← fread nmethods.toNat
  setQbuf 2 methods
  pure nmethods

def SOCKS_serverV5A (env : Env) (auth : Authorizer) : StateM Sess Result := do
  let nmethods ← readMethods
  let rauth ← chooseMethod env auth nmethods
  fwrite [5, rauth]
  if rauth = AUTH_M_ERROR then pure .refused
  else if rauth = AUTH_M_USERPASS then do
    match ← userPass auth with
    | .errexit => pure (.errexit 0)
    | .refused => pure .refused
    | .accepted => request env
  else request env

/-! ## The parts -/

theorem bind_apply {α β : Type} (m : StateM Sess α) (f : α → StateM Sess β) (s : Sess) :
    (m >>= f) s = f (m s).1 (m s).2 := rfl

theorem pure_apply {α : Type} (a : α) (s : Sess) : (pure a : StateM Sess α) s = (a, s) := rfl

theorem get_apply (s : Sess) : (get : StateM Sess Sess) s = (s, s) := rfl

theorem ofNat_getc (b : Octet) : UInt8.ofNat ((b.toNat : Int) % 256).toNat = b := by
  have hlt : (b.toNat : Int) < 256 := Int.ofNat_lt.mpr (UInt8.toNat_lt b)
  rw [Int.emod_eq_of_lt (Int.natCast_nonneg _) hlt, Int.toNat_natCast, UInt8.ofNat_toNat]

theorem unsigned_byte (b : Octet) : unsigned b.toNat = b.toNat := by
  have hlt := UInt8.toNat_lt b
  unfold unsigned
  omega

section Parts
variable {env : Env} {auth : Authorizer}

/-- The methods are read whole, or nothing is left. -/
theorem readMethods_fc (s : Sess) :
    (readMethods s).2.calls = s.calls ∧
      ((readMethods s).2.fc = [] ∨
        ∃ v n methods, s.fc = v :: n :: (methods ++ (readMethods s).2.fc) ∧
          methods.length = n.toNat) := by
  refine ⟨?_, ?_⟩
  · obtain ⟨fc, feof, tc, qbuf, calls⟩ := s
    rcases fc with _ | ⟨v, _ | ⟨n, fc⟩⟩ <;> rfl
  · obtain ⟨fc, feof, tc, qbuf, calls⟩ := s
    rcases fc with _ | ⟨v, _ | ⟨n, fc⟩⟩
    · exact .inl List.drop_nil
    · exact .inl List.drop_nil
    · have hfc : (readMethods ⟨v :: n :: fc, feof, tc, qbuf, calls⟩).2.fc = fc.drop n.toNat := by
        change fc.drop (UInt8.ofNat ((n.toNat : Int) % 256).toNat).toNat = _
        rw [ofNat_getc]
      rw [hfc]
      by_cases hlen : fc.length ≤ n.toNat
      · exact .inl (List.drop_of_length_le hlen)
      · refine .inr ⟨v, n, fc.take n.toNat, ?_, ?_⟩
        · rw [List.take_append_drop]
        · rw [List.length_take]
          omega

/-- With an authorizer, no method is needed only if it accepts the empty user and password. -/
theorem chooseMethod_calls (s : Sess) (nmethods : Octet) (hno : env.lNOAUTHPROXY = false)
    (hauth : auth (s.calls.map Prod.fst) none ≠ 0) :
    (chooseMethod env auth nmethods s).2.fc = s.fc ∧
      ((chooseMethod env auth nmethods s).1 = AUTH_M_ERROR ∨
        (chooseMethod env auth nmethods s).1 = AUTH_M_USERPASS ∨
        (chooseMethod env auth nmethods s).1 = AUTH_M_NONE ∧
          ∃ rcode, 0 ≤ rcode ∧
            (some ([], []), rcode) ∈ (chooseMethod env auth nmethods s).2.calls) := by
  have hfirst : firstMethod env auth nmethods s =
      (if offersUserPass nmethods s.qbuf then AUTH_M_USERPASS else AUTH_M_ERROR,
        (CTX_auth auth none s).2) := by
    unfold firstMethod
    rw [hno, if_neg Bool.false_ne_true, bind_apply, if_pos (by exact hauth), bind_apply, get_apply,
      pure_apply]
    rfl
  unfold chooseMethod
  rw [bind_apply, hfirst]
  by_cases hoffer : offersUserPass nmethods s.qbuf = true
  · simp only [if_pos hoffer]
    rw [if_neg (by decide)]
    exact ⟨rfl, .inr (.inl rfl)⟩
  · simp only [if_neg hoffer, if_true, bind_apply, pure_apply]
    refine ⟨rfl, ?_⟩
    by_cases hok : 0 ≤ (CTX_auth auth (some ([], [])) (CTX_auth auth none s).2).1
    · exact .inr (.inr ⟨if_pos hok, _, hok, List.mem_append_right _ List.mem_cons_self⟩)
    · rw [if_neg hok]
      exact .inl rfl

theorem readText_fc (s : Sess) {len rcc : Nat} {text : Bytes} {s' : Sess}
    (h : readText s = ((len, rcc, text), s')) (hlen : len ≠ unsigned EOF) (hrcc : ¬rcc < len) :
    s'.calls = s.calls ∧ ∃ b, s.fc = b :: (text ++ s'.fc) ∧ text.length = b.toNat := by
  obtain ⟨fc, feof, tc, qbuf, calls⟩ := s
  unfold readText at h
  rw [bind_apply] at h
  rcases fc with _ | ⟨b, fc⟩
  · -- the end of file is no length
    have heof : getc ⟨[], feof, tc, qbuf, calls⟩ = (EOF, ⟨[], true, tc, qbuf, calls⟩) := rfl
    have hbig : 256 ≤ unsigned EOF := by decide
    rw [heof, if_pos hbig] at h
    exact absurd (congrArg (·.1.1) h).symm hlen
  · have hget : getc ⟨b :: fc, feof, tc, qbuf, calls⟩ = ((b.toNat : Int), ⟨fc, feof, tc, qbuf, calls⟩) :=
      rfl
    have hlt := UInt8.toNat_lt b
    rw [hget, unsigned_byte, if_neg (by omega)] at h
    by_cases h0 : b.toNat = 0
    · rw [if_pos h0, pure_apply] at h
      obtain ⟨⟨-, -, rfl⟩, rfl⟩ := h
      exact ⟨rfl, b, rfl, h0.symm⟩
    · rw [if_neg h0] at h
      change ((b.toNat, (fc.take b.toNat).length, fc.take b.toNat),
        (⟨fc.drop b.toNat, _, tc, qbuf, calls⟩ : Sess)) = _ at h
      simp only [Prod.mk.injEq] at h
      obtain ⟨⟨rfl, rfl, rfl⟩, rfl⟩ := h
      refine ⟨rfl, b, ?_, ?_⟩
      · rw [List.take_append_drop]
      · rw [List.length_take] at hrcc ⊢
        omega

theorem userPass_accepted {s s' : Sess} (h : userPass auth s = (.accepted, s')) :
    ∃ ver ulen user plen pass, s.fc = ver :: ulen :: (user ++ plen :: (pass ++ s'.fc)) ∧
      user.length = ulen.toNat ∧ pass.length = plen.toNat ∧
      ∃ rcode, 0 ≤ rcode ∧ (some (cstr user, cstr pass), rcode) ∈ s'.calls := by
  unfold userPass at h
  rw [bind_apply] at h
  rcases hget : getc s with ⟨ver, s₁⟩
  rcases hu : readText s₁ with ⟨⟨ulen, rcc, user⟩, s₂⟩
  rw [hget, bind_apply, hu] at h
  dsimp only at h
  by_cases hbad : unsigned ver = unsigned EOF ∨ ulen = unsigned EOF ∨ rcc < ulen
  · rw [if_pos hbad] at h
    cases h
  rw [if_neg hbad, bind_apply] at h
  obtain ⟨hver, hulen, hrcc⟩ := not_or.mp hbad |>.imp_right not_or.mp
  obtain ⟨-, ub, hfc₁, hub⟩ := readText_fc s₁ hu hulen hrcc
  rcases hp : readText s₂ with ⟨⟨plen, rcc', pass⟩, s₃⟩
  rw [hp] at h
  dsimp only at h
  by_cases hbad' : plen = unsigned EOF ∨ rcc' < plen
  · rw [if_pos hbad'] at h
    cases h
  rw [if_neg hbad', bind_apply, get_apply] at h
  obtain ⟨hplen, hrcc'⟩ := not_or.mp hbad'
  obtain ⟨-, pb, hfc₂, hpb⟩ := readText_fc s₂ hp hplen hrcc'
  dsimp only at h
  by_cases heof : s₃.feof = true
  · rw [if_pos heof] at h
    cases h
  rw [if_neg heof, bind_apply, bind_apply] at h
  by_cases hneg : (CTX_auth auth (some (cstr user, cstr pass)) s₃).1 < 0
  · rw [if_pos hneg, pure_apply] at h
    cases h
  rw [if_neg hneg, pure_apply, Prod.mk.injEq] at h
  obtain ⟨-, rfl⟩ := h
  obtain ⟨vb, hfc⟩ : ∃ vb, s.fc = vb :: s₁.fc := by
    obtain ⟨fc, feof, tc, qbuf, calls⟩ := s
    rcases fc with _ | ⟨vb, fc⟩
    · -- no version was read
      exact absurd (congrArg (fun r => unsigned r.1) hget).symm hver
    · exact ⟨vb, congrArg (fun r => vb :: r.2.fc) hget⟩
  refine ⟨vb, ub, user, pb, pass, ?_, hub, hpb, _, not_lt.mp hneg, ?_⟩
  · rw [hfc, hfc₁, hfc₂]
    rfl
  · exact List.mem_append_right _ List.mem_cons_self

/-- A part that does not call the authorizer. -/
def Keeps {α : Type} (m : StateM Sess α) : Prop := ∀ s, (m s).2.calls = s.calls

theorem keeps_pure {α : Type} (a : α) : Keeps (pure a : StateM Sess α) := fun _ => rfl

theorem keeps_bind {α β : Type} {m : StateM Sess α} {f : α → StateM Sess β} (hm : Keeps m)
    (hf : ∀ a, Keeps (f a)) : Keeps (m >>= f) := by
  intro s
  rw [bind_apply, hf, hm]

theorem keeps_getc : Keeps getc := by
  intro s
  unfold getc
  split <;> rfl

theorem keeps_setQbuf (i : Nat) (b : Bytes) : Keeps (setQbuf i b) := fun _ => rfl

theorem keeps_fread (n : Nat) : Keeps (fread n) := fun _ => rfl

theorem keeps_getQ (i : Nat) : Keeps (getQ i) :=
  keeps_bind keeps_getc fun _ => keeps_bind (keeps_setQbuf _ _) fun _ => keeps_pure _

theorem keeps_addressLength (atyp : Octet) : Keeps (addressLength atyp) := by
  unfold addressLength
  split
  · exact keeps_pure _
  split
  · exact keeps_getc
  split
  · exact keeps_pure _
  · exact keeps_pure _

theorem keeps_request : Keeps (request env) := by
  unfold request
  refine keeps_bind (keeps_getQ 0) fun _ => keeps_bind (keeps_getQ 1) fun cmd =>
    keeps_bind (keeps_getQ 2) fun _ => keeps_bind (keeps_getQ 3) fun atyp =>
    keeps_bind (keeps_setQbuf _ _) fun _ => keeps_bind (keeps_addressLength atyp) fun aleng =>
    keeps_bind (keeps_fread _) fun addr => keeps_bind (keeps_setQbuf _ _) fun _ =>
    keeps_bind (fun _ => rfl) fun s => keeps_bind keeps_getc fun hi =>
    keeps_bind keeps_getc fun lo => ?_
  dsimp only
  split
  · exact keeps_pure _
  split
  · exact keeps_pure _
  · exact keeps_pure _

end Parts

/-! ## The gate -/

/-- The processing of a command begins. -/
def Result.Reached : Result → Prop
  | .accByConn _ _ => True
  | .command _ _ _ => True
  | _ => False

/-- The authorizer accepted the empty user and password, or the user and password that the
client sent, as texts that end at a NUL. -/
def Authorized (input : Bytes) (calls : List (Call × Int)) : Prop :=
  ∃ rcode, 0 ≤ rcode ∧
    ((some ([], []), rcode) ∈ calls ∨
      ∃ v n methods ver ulen user plen pass rest,
        input = v :: n :: (methods ++ ver :: ulen :: (user ++ plen :: (pass ++ rest))) ∧
          methods.length = n.toNat ∧ user.length = ulen.toNat ∧ pass.length = plen.toNat ∧
          (some (cstr user, cstr pass), rcode) ∈ calls)

/-- With an authorizer, a command is reached only if it has accepted. -/
theorem command_authorized (env : Env) (auth : Authorizer) (input : Bytes) (qbuf : Nat → Octet)
    (hno : env.lNOAUTHPROXY = false) (hauth : auth [] none ≠ 0)
    (h : (SOCKS_serverV5A env auth { fc := input, qbuf }).1.Reached) :
    Authorized input (SOCKS_serverV5A env auth { fc := input, qbuf }).2.calls := by
  obtain ⟨hcalls, hfc⟩ := readMethods_fc { fc := input, qbuf }
  rcases hm : readMethods { fc := input, qbuf } with ⟨nmethods, s₁⟩
  rw [hm] at hcalls hfc
  dsimp only at hcalls hfc
  obtain ⟨hfc₂, hmethod⟩ := chooseMethod_calls s₁ nmethods hno (by rw [hcalls]; exact hauth)
  rcases hc : chooseMethod env auth nmethods s₁ with ⟨rauth, s₂⟩
  rw [hc] at hfc₂ hmethod
  dsimp only at hfc₂ hmethod
  unfold SOCKS_serverV5A at h ⊢
  rw [bind_apply, hm, bind_apply, hc, bind_apply] at h ⊢
  dsimp only at h ⊢
  rcases hmethod with rfl | rfl | ⟨rfl, rcode, hpos, hmem⟩
  · exact h.elim
  · rw [if_neg (by decide), if_pos rfl, bind_apply] at h ⊢
    rcases hup : userPass auth (fwrite [5, AUTH_M_USERPASS] s₂).2 with ⟨gate, s₃⟩
    rw [hup] at h
    cases gate with
    | errexit => exact h.elim
    | refused => exact h.elim
    | accepted =>
      obtain ⟨ver, ulen, user, plen, pass, hin, hulen, hplen, rcode, hpos, hmem⟩ :=
        userPass_accepted hup
      change s₂.fc = _ at hin
      rw [hfc₂] at hin
      rcases hfc with hnil | ⟨v, n, methods, hinput, hn⟩
      · rw [hnil] at hin
        cases hin
      · refine ⟨rcode, hpos, .inr ⟨v, n, methods, ver, ulen, user, plen, pass, s₃.fc, ?_, hn, hulen,
          hplen, ?_⟩⟩
        · rw [hinput, hin]
        · dsimp only
          rw [keeps_request]
          exact hmem
  · rw [if_neg (by decide), if_neg (by decide)] at h ⊢
    refine ⟨rcode, hpos, .inl ?_⟩
    rw [keeps_request]
    exact hmem

/-- A user and a password, and then the request to connect to 10.0.0.5 at port 80. -/
def connectAs (user pass : Bytes) : Bytes :=
  [5, 1, 2] ++ [1, UInt8.ofNat user.length] ++ user ++ [UInt8.ofNat pass.length] ++ pass ++
    [5, 1, 0, 1, 10, 0, 0, 5, 0, 80]

def plainEnv : Env := ⟨false, false, fun _ => []⟩

/-- The authorizer knows one user, `a`, with the password `p`. -/
def onlyA : Authorizer := fun _ call =>
  if call = none then 1 else if call = some ([97], [112]) then 0 else -1

theorem command_authorized_a :
    Authorized (connectAs [97] [112])
      (SOCKS_serverV5A plainEnv onlyA { fc := connectAs [97] [112], qbuf := fun _ => 0 }).2.calls := by
  refine command_authorized plainEnv onlyA _ _ rfl (by decide) ?_
  have hrun : (SOCKS_serverV5A plainEnv onlyA { fc := connectAs [97] [112], qbuf := fun _ => 0 }).1 =
      .command 1 (ascii "10.0.0.5") 80 := by decide +kernel
  rw [hrun]
  trivial

/-- A user of three bytes, with a NUL, is accepted as the user of its first byte. -/
theorem user_cut_at_nul :
    (SOCKS_serverV5A plainEnv onlyA
        { fc := connectAs [97, 0, 98] [112], qbuf := fun _ => 0 }).1 =
        .command 1 (ascii "10.0.0.5") 80 ∧
      (SOCKS_serverV5A plainEnv onlyA
        { fc := connectAs [97, 0, 98] [112], qbuf := fun _ => 0 }).2.calls =
        [(none, 1), (some ([97], [112]), 0)] := by
  decide +kernel

end delegate.socks
