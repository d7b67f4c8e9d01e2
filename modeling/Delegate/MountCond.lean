-- The conditions of a MOUNT rule, and the memo of their last value. The key of
-- the memo is a text made of some of the inputs: a part of the URL is cut, and
-- the port of the host and the method CONNECT are not in it.
import Delegate.HostCompile
import Delegate.Memo
import Delegate.UrlSite

open ctext delegate.url

namespace delegate.mount

/-! ## Conditions -/

inductive Direction
  | CFO
  | CBO
  | CFB
deriving DecidableEq, Repr

def Direction.code : Direction → BitVec 8
  | .CFO => 1
  | .CBO => 2
  | .CFB => 3

def C_QHOST : BitVec 32 := 0x400
def C_RHOST : BitVec 32 := 0x800
def C_UDST : BitVec 32 := 0x400000

def VHOST_BYNAME : BitVec 8 := 0x1
def VHOST_ORIGDST : BitVec 8 := 0x2
def VHOST_AVHOST : BitVec 8 := 0x4
def VHOST_TLSSNI : BitVec 8 := 0x8

def VSERV_ORIGDST : BitVec 8 := 0x20

/-- The conditions of an entry of the table. A list is known by its number, and 0 is no list. -/
structure Conds where
  fromList : Nat := 0
  authList : Nat := 0
  vhostList : Nat := 0
  clifList : Nat := 0
  udstList : Nat := 0
  dstList : Nat := 0
  pathList : Nat := 0
  viaList : Nat := 0
  D_vhostList : BitVec 8 := 3
  D_clifList : BitVec 8 := 3
  u_D_method : BitVec 8 := 3
  u_method : Option Text := none
  u_dstproto : Option Text := none
  u_reqpat : Option Nat := none
  u_xcond : Nat := 0
  u_conds : BitVec 32 := 0
  Src_u_vserv : BitVec 8 := 0
  Src_u_src : Text := []
  Dst_u_vserv : BitVec 8 := 0
  Dst_u_path2site : Bool := false
  Dst_u_hostn : Option Text := none
  Dst_u_iport : Int := 0
  Dst_u_proto : Text := []
deriving Repr

/-- The client of a run, its authentication, and the configured lists: what the conditions read
besides the inputs of a call. -/
structure Client (δ : Type) where
  matchFROM : Nat → Bool
  matchAUTH : Nat → Bool
  matchPath1 : Nat → Text → Int → Bool
  matchPATHs : Nat → Bool
  matchPATH1 : Nat → Bool
  evalCondition : Nat → Bool
  /-- The address and the port of the original destination. -/
  odst : Text × Int
  /-- The protocol of the interface to the client. -/
  clif_proto : Text
  tlssni : Text
  serviceport : Text → Int
  reqstr : Option Text
  frex_match : Nat → Text → Bool
  /-- The URL stands in a Referer, and the rule is for such URLs. -/
  byReferer : Bool
  lMULTIST : Bool
  toMD5X : Text → δ

/-- The inputs of a call of `evalCondX`. A `none` is NULL. -/
structure Call where
  direction : Direction
  clif : Option Text
  dstproto : Option Text
  method : Option Text
  srcurl : Option Text
  rhost : Option Text
  rport : Int
deriving DecidableEq, Repr

def isConnect (method : Option Text) : Bool :=
  method.any fun m => strcaseeq m ['C', 'O', 'N', 'N', 'E', 'C', 'T']

section Eval
variable {δ : Type} (C : Client δ) (mt : Conds)

/-- The end of `dstNoMatch`: the destination that was found is not in the list. -/
def notInList (dstL : Nat) (got : Bool) (proto host port : Text) : Bool :=
  got && !C.matchPath1 dstL host (if port = [] then C.serviceport proto else atoi port)

/-- What `dstNoMatch` returns, and the texts of `clif` and `srcurl`, which it may cut. -/
structure DstMatch where
  noMatch : Bool
  clif : Option Text
  srcurl : Text
deriving DecidableEq, Repr

def dstNoMatch (dstL : Nat) (clif : Option Text) (connect : Bool) (srcurl : Text) : DstMatch :=
  if mt.Src_u_vserv &&& VHOST_ORIGDST ≠ 0 then
    ⟨!(decide (0 < C.odst.2) && C.matchPath1 mt.dstList C.odst.1 C.odst.2), clif, srcurl⟩
  else if !mt.Dst_u_path2site ∧ srcurl.head? = some '/' then
    -- the destination is in the rule, or in the name of the virtual host
    if mt.Dst_u_hostn.any (fun h => h ≠ [] ∧ C.matchPath1 mt.dstList h mt.Dst_u_iport) then
      ⟨false, clif, srcurl⟩
    else
      match clif with
      | some clif =>
        let d := decomp_URL_site clif
        ⟨notInList C dstL true C.clif_proto d.userpasshost d.port, some d.site, srcurl⟩
      | none => ⟨true, none, srcurl⟩
  else if mt.Dst_u_path2site then
    let site := scan_URI_site (srcurl.drop mt.Src_u_src.length) 256
    let d := decomp_URL_site site
    ⟨notInList C dstL (site ≠ []) mt.Dst_u_proto d.userpasshost d.port, clif, srcurl⟩
  else
    let s := scan_protositeport srcurl
    if s.got = 0 ∧ connect then
      let d := decomp_URL_site srcurl
      ⟨notInList C dstL (0 < atoi d.port) s.proto d.userpasshost d.port, clif, d.site⟩
    else ⟨notInList C dstL (s.got ≠ 0) s.proto s.userpasshost s.port, clif, srcurl⟩

/-- The condition on the virtual host. It also gives the name of the host that the conditions
after it read. -/
def vhostCond (direction : Direction) (clif : Option Text) : Option (Option Text) :=
  if direction.code &&& mt.D_vhostList ≠ 0 ∧ mt.vhostList ≠ 0 then
    match clif with
    | none => some none
    | some clif =>
      let name : Option Text :=
        if mt.Src_u_vserv &&& VHOST_TLSSNI ≠ 0 then some C.tlssni
        else if mt.Src_u_vserv &&& VHOST_AVHOST ≠ 0 ∧ clif.head? = some '-' then some clif.tail
        else if mt.D_vhostList = Direction.CFB.code ∧ mt.Src_u_vserv &&& VHOST_BYNAME ≠ 0 ∧
            direction = .CBO ∧ clif.head? ≠ some '-' then some clif
        else if clif.head? ≠ some '-' then none
        else some clif
      match name with
      | none => none
      | some clif =>
        let hp := scan_hostport1X clif 256
        if C.matchPath1 mt.vhostList hp.1 hp.2 then some (some clif) else none
  else some clif

def clifCond (direction : Direction) (clif : Option Text) : Bool :=
  if direction.code &&& mt.D_clifList ≠ 0 ∧ mt.clifList ≠ 0 then
    clif.all fun clif =>
      let hp := scan_hostport1X clif 256
      C.matchPath1 mt.clifList hp.1 hp.2
  else true

/-- The conditions `udst=` and `dst=` on the URL. -/
def dstConds (clif : Option Text) (connect : Bool) (srcurl : Option Text) : Bool :=
  match srcurl with
  | none => true
  | some url =>
    let u : DstMatch :=
      if mt.udstList ≠ 0 then
        if mt.u_conds &&& C_UDST = 0 then ⟨true, clif, url⟩
        else dstNoMatch C mt mt.udstList clif connect url
      else ⟨false, clif, url⟩
    !u.noMatch &&
      (mt.dstList == 0 || (mt.u_conds &&& C_QHOST != 0 &&
        !(dstNoMatch C mt mt.dstList u.clif connect
          (if C.byReferer then ['/'] else u.srcurl)).noMatch))

def rhostCond (rhost : Option Text) (rport : Int) : Bool :=
  mt.dstList == 0 || rhost.all fun rhost =>
    mt.u_conds &&& C_RHOST != 0 && C.matchPath1 mt.dstList rhost rport

def methodCond (direction : Direction) (method : Option Text) : Bool :=
  if direction.code &&& mt.u_D_method ≠ 0 then
    match mt.u_method, method with
    | some u_method, some method => u_method == ['*'] || strcasestr u_method method
    | _, _ => true
  else true

/-- The conditions that only read the client. -/
def clientConds : Bool :=
  (mt.fromList == 0 || C.matchFROM mt.fromList) && (mt.authList == 0 || C.matchAUTH mt.authList) &&
    (mt.pathList == 0 || C.matchPATHs mt.pathList) && (mt.viaList == 0 || C.matchPATH1 mt.viaList) &&
    (mt.u_xcond == 0 || C.evalCondition mt.u_xcond)

def evalCond1X (c : Call) : Bool :=
  clientConds C mt &&
    match vhostCond C mt c.direction c.clif with
    | none => false
    | some clif =>
      clifCond C mt c.direction clif && dstConds C mt clif (isConnect c.method) c.srcurl &&
        rhostCond C mt c.rhost c.rport && methodCond mt c.direction c.method

end Eval

/-! ## The memo -/

/-- The memo of an entry of the table. -/
structure CondMemo (δ : Type) where
  u_conds_value : Int
  u_conds_param : Text
  u_conds_param_md5 : δ
deriving DecidableEq, Repr

/-- The memo with another value and key. -/
def CondMemo.store {δ : Type} (C : Client δ) (m : CondMemo δ) (param : Text) (value : Bool) :
    CondMemo δ :=
  let u_conds_value := if value then 1 else -1
  if C.lMULTIST then { m with u_conds_value, u_conds_param_md5 := C.toMD5X param }
  else { m with u_conds_value, u_conds_param := param }

def wordIsinList (list word : Text) : Bool :=
  (hostlist.scan_ListL ',' list).any fun e => e.text == word

def readsClif (mt : Conds) : Bool := mt.clifList != 0 || mt.vhostList != 0 || mt.dstList != 0

def keyClif (mt : Conds) (c : Call) : Text := if readsClif mt then c.clif.getD [] else []

def keyRhost (mt : Conds) (c : Call) : Text := if mt.dstList ≠ 0 then c.rhost.getD [] else []

def keyMethod (mt : Conds) (c : Call) : Text := if mt.u_method.isSome then c.method.getD [] else []

def keySite (mt : Conds) (c : Call) : Option Text :=
  if mt.udstList ≠ 0 then c.srcurl.map absurlLogin else none

def Direction.digit (d : Direction) : Char := Char.ofNat ('0'.toNat + d.code.toNat)

/-- The part of `param` before the URL. -/
def keyHead (mt : Conds) (c : Call) : Text :=
  c.direction.digit :: '/' :: (keyClif mt c ++ '/' :: (keyRhost mt c ++ '/' :: (keyMethod mt c ++
    '/' :: (keySite mt c).elim [] fun site => site ++ ['/'])))

/-- The URL in `param`. The size of the copy is the length of the text before it. -/
def keyUrl (mt : Conds) (c : Call) : Text :=
  if mt.dstList ≠ 0 then XStrncpy (c.srcurl.getD []) (keyHead mt c).length else []

/-- The text in `param`, a buffer of 1024 bytes. -/
def condKey (mt : Conds) (c : Call) : Text := (keyHead mt c ++ keyUrl mt c).take 1023

section EvalX
variable {δ : Type} [DecidableEq δ] (C : Client δ) (mt : Conds)

/-- The tests before the memo. -/
def refused (c : Call) : Bool :=
  ((mt.Src_u_vserv &&& VHOST_ORIGDST != 0 || mt.Dst_u_vserv &&& VSERV_ORIGDST != 0) &&
      decide (C.odst.2 ≤ 0)) ||
    (match mt.u_dstproto, c.dstproto with
      | some list, some word => !wordIsinList list word
      | _, _ => false) ||
    (match mt.u_reqpat, C.reqstr with
      | some pat, some req => !C.frex_match pat req
      | _, _ => false)

/-- Is the value of the memo for this key? -/
def hits (m : CondMemo δ) (param : Text) : Bool :=
  m.u_conds_value != 0 &&
    if C.lMULTIST then m.u_conds_param_md5 == C.toMD5X param else param == m.u_conds_param

/-- `evalCondX`: the value, and the memo afterwards. -/
def evalCondX (m : CondMemo δ) (c : Call) : Bool × CondMemo δ :=
  if refused C mt c then (false, m)
  else
    let param := condKey mt c
    if hits C m param then (0 < m.u_conds_value, m)
    else
      let value := evalCond1X C mt c
      (value, if c.clif.isSome then m.store C param value else m)

end EvalX

/-! ## What the conditions read -/

/-- Two calls agree in all that the conditions of the entry read. -/
structure SameReads (mt : Conds) (c d : Call) : Prop where
  direction : c.direction = d.direction
  clif : readsClif mt = true ∨ mt.udstList ≠ 0 → c.clif = d.clif
  srcurl : mt.dstList ≠ 0 ∨ mt.udstList ≠ 0 → c.srcurl = d.srcurl
  connect : mt.dstList ≠ 0 ∨ mt.udstList ≠ 0 → isConnect c.method = isConnect d.method
  rhost : mt.dstList ≠ 0 → c.rhost = d.rhost
  rport : mt.dstList ≠ 0 → c.rhost.isSome = true → c.rport = d.rport
  method : mt.u_method.isSome = true → c.method.getD [] = d.method.getD []

section Congr
variable {δ : Type} (C : Client δ) {mt : Conds} {c d : Call}

theorem dstConds_of_noList (hd : mt.dstList = 0) (hu : mt.udstList = 0) (clif : Option Text)
    (connect : Bool) (srcurl : Option Text) : dstConds C mt clif connect srcurl = true := by
  unfold dstConds
  cases srcurl with
  | none => rfl
  | some url => simp [hd, hu]

theorem vhostCond_of_noList (hv : mt.vhostList = 0) (direction : Direction) (clif : Option Text) :
    vhostCond C mt direction clif = some clif := by
  unfold vhostCond
  rw [if_neg fun h => h.2 hv]

theorem clifCond_of_noList (hl : mt.clifList = 0) (direction : Direction) (clif : Option Text) :
    clifCond C mt direction clif = true := by
  unfold clifCond
  rw [if_neg fun h => h.2 hl]

theorem rhostCond_congr (hhost : mt.dstList ≠ 0 → c.rhost = d.rhost)
    (hport : mt.dstList ≠ 0 → c.rhost.isSome = true → c.rport = d.rport) :
    rhostCond C mt c.rhost c.rport = rhostCond C mt d.rhost d.rport := by
  unfold rhostCond
  by_cases hd : mt.dstList = 0
  · simp [hd]
  · rw [← hhost hd]
    cases hr : c.rhost with
    | none => rfl
    | some rhost => rw [hport hd (by rw [hr]; rfl)]

theorem methodCond_congr (direction : Direction) {m m' : Option Text}
    (h : mt.u_method.isSome = true → m.getD [] = m'.getD []) :
    methodCond mt direction m = methodCond mt direction m' := by
  -- a NULL method passes like the empty text, which is found in every text
  have hempty : ∀ u : Text, strcasestr u [] = true := by
    intro u
    unfold strcasestr
    cases u with
    | nil => rfl
    | cons c u => simp [strstr]
  unfold methodCond
  cases hu : mt.u_method with
  | none => rfl
  | some u =>
    have heq := h (by rw [hu]; rfl)
    cases m with
    | none =>
      cases m' with
      | none => rfl
      | some m' =>
        have hm' : m' = [] := by simpa using heq.symm
        simp [hm', hempty]
    | some m =>
      cases m' with
      | none =>
        have hm : m = [] := by simpa using heq
        simp [hm, hempty]
      | some m' =>
        have hm : m = m' := by simpa using heq
        rw [hm]

/-- The conditions have the same value for calls that agree in what they read. -/
theorem evalCond1X_congr (h : SameReads mt c d) : evalCond1X C mt c = evalCond1X C mt d := by
  have hr := rhostCond_congr C h.rhost h.rport
  have hm := methodCond_congr d.direction h.method
  unfold evalCond1X
  rw [h.direction, hr, hm]
  by_cases hurl : mt.dstList ≠ 0 ∨ mt.udstList ≠ 0
  · have hclif : c.clif = d.clif := by
      apply h.clif
      rcases hurl with hd | hu
      · left
        simp [readsClif, hd]
      · exact .inr hu
    rw [hclif, h.srcurl hurl, h.connect hurl]
  · have hd : mt.dstList = 0 := not_not.mp fun hd => hurl (.inl hd)
    have hu : mt.udstList = 0 := not_not.mp fun hu => hurl (.inr hu)
    simp only [dstConds_of_noList C hd hu]
    by_cases hlists : mt.clifList = 0 ∧ mt.vhostList = 0
    · simp only [vhostCond_of_noList C hlists.2, clifCond_of_noList C hlists.1]
    · rw [h.clif (.inl (by simpa [readsClif, hd, imp_iff_not_or] using hlists))]

end Congr

/-! ## What the key keeps -/

/-- The parts of the key. -/
structure Kept where
  direction : Direction
  clif : Text
  rhost : Text
  method : Text
  site : Option Text
  url : Text
deriving DecidableEq, Repr

def kept (mt : Conds) (c : Call) : Kept :=
  ⟨c.direction, keyClif mt c, keyRhost mt c, keyMethod mt c, keySite mt c, keyUrl mt c⟩

/-- The parts of the key can be told from its text: the names in it have no `/`, and it fits in
the buffer. -/
structure WellKeyed (mt : Conds) (c : Call) : Prop where
  clif : '/' ∉ keyClif mt c
  rhost : '/' ∉ keyRhost mt c
  method : '/' ∉ keyMethod mt c
  fits : (keyHead mt c ++ keyUrl mt c).length ≤ 1023

theorem Direction.digit_inj {c d : Direction} (h : c.digit = d.digit) : c = d := by
  revert h
  cases c <;> cases d <;> decide

theorem slash_not_mem_absurlLogin (url : Text) : '/' ∉ absurlLogin url := by
  unfold absurlLogin
  split
  · intro h
    have := List.mem_takeWhile_imp h
    revert this
    decide
  · exact List.not_mem_nil

/-- The site and the URL at the end of the key are told apart. -/
theorem keyTail_inj {mt : Conds} {c d : Call}
    (h : ((keySite mt c).elim [] fun site => site ++ ['/']) ++ keyUrl mt c =
      ((keySite mt d).elim [] fun site => site ++ ['/']) ++ keyUrl mt d) :
    keySite mt c = keySite mt d ∧ keyUrl mt c = keyUrl mt d := by
  by_cases hu : mt.udstList = 0
  · have hnone : ∀ e, keySite mt e = none := by
      intro e
      unfold keySite
      rw [if_neg fun h => h hu]
    rw [hnone c, hnone d] at h ⊢
    exact ⟨rfl, h⟩
  · have hsite : ∀ e, keySite mt e = e.srcurl.map absurlLogin := by
      intro e
      unfold keySite
      rw [if_pos hu]
    -- without a URL there is no text at all
    have hurl : ∀ e : Call, e.srcurl = none → keyUrl mt e = [] := by
      intro e he
      unfold keyUrl
      rw [he]
      split
      · exact List.take_nil
      · rfl
    rw [hsite c, hsite d] at h ⊢
    cases hc : c.srcurl with
    | none =>
      cases hd : d.srcurl with
      | none => exact ⟨rfl, by rw [hurl c hc, hurl d hd]⟩
      | some v =>
        rw [hc, hd, hurl c hc] at h
        simp at h
    | some u =>
      cases hd : d.srcurl with
      | none =>
        rw [hc, hd, hurl d hd] at h
        simp at h
      | some v =>
        rw [hc, hd] at h
        simp only [Option.map_some, Option.elim_some, List.append_assoc, List.singleton_append] at h
        obtain ⟨hs, hx⟩ := append_cons_inj (slash_not_mem_absurlLogin u)
          (slash_not_mem_absurlLogin v) h
        exact ⟨congrArg some hs, hx⟩

/-- Calls with the same key agree in the parts of it. -/
theorem kept_of_condKey {mt : Conds} {c d : Call} (hc : WellKeyed mt c) (hd : WellKeyed mt d)
    (h : condKey mt c = condKey mt d) : kept mt c = kept mt d := by
  unfold condKey at h
  rw [List.take_of_length_le hc.fits, List.take_of_length_le hd.fits] at h
  unfold keyHead at h
  simp only [List.cons_append, List.append_assoc, List.cons.injEq, true_and] at h
  obtain ⟨hdir, h⟩ := h
  obtain ⟨hclif, h⟩ := append_cons_inj hc.clif hd.clif h
  obtain ⟨hrhost, h⟩ := append_cons_inj hc.rhost hd.rhost h
  obtain ⟨hmethod, h⟩ := append_cons_inj hc.method hd.method h
  obtain ⟨hsite, hurl⟩ := keyTail_inj h
  unfold kept
  rw [Direction.digit_inj hdir, hclif, hrhost, hmethod, hsite, hurl]

/-- Two calls agree in what the conditions read and the key leaves out: the rest of the URL and
the method CONNECT, a NULL for the host of the response and its port, and, with no other list
than `udst=`, the interface to the client. -/
structure LeftOut (mt : Conds) (c d : Call) : Prop where
  srcurl : mt.dstList ≠ 0 ∨ mt.udstList ≠ 0 → c.srcurl = d.srcurl
  connect : mt.dstList ≠ 0 ∨ mt.udstList ≠ 0 → isConnect c.method = isConnect d.method
  rhost : mt.dstList ≠ 0 → c.rhost = d.rhost
  rport : mt.dstList ≠ 0 → c.rhost.isSome = true → c.rport = d.rport
  clif : readsClif mt = false → mt.udstList ≠ 0 → c.clif = d.clif

theorem sameReads_of_kept {mt : Conds} {c d : Call} (hc : c.clif.isSome = true)
    (hd : d.clif.isSome = true) (hk : kept mt c = kept mt d) (hl : LeftOut mt c d) :
    SameReads mt c d := by
  simp only [kept, Kept.mk.injEq] at hk
  obtain ⟨hdir, hclif, -, hmethod, -, -⟩ := hk
  refine ⟨hdir, ?_, hl.srcurl, hl.connect, hl.rhost, hl.rport, ?_⟩
  · intro h
    by_cases hr : readsClif mt = true
    · obtain ⟨u, hu⟩ := Option.isSome_iff_exists.mp hc
      obtain ⟨v, hv⟩ := Option.isSome_iff_exists.mp hd
      unfold keyClif at hclif
      rw [if_pos hr, if_pos hr, hu, hv] at hclif
      rw [hu, hv]
      exact congrArg some hclif
    · exact hl.clif (by simpa using hr) (h.resolve_left hr)
  · intro h
    unfold keyMethod at hmethod
    rwa [if_pos h, if_pos h] at hmethod

/-! ## Runs -/

section Cell
variable {δ : Type} (C : Client δ) (mt : Conds)

/-- The key as the memo stores it. -/
def storedKey (c : Call) : Text ⊕ δ :=
  if C.lMULTIST then .inr (C.toMD5X (condKey mt c)) else .inl (condKey mt c)

/-- The cell of a memo. -/
def cellOf (m : CondMemo δ) : Option ((Text ⊕ δ) × Bool) :=
  if m.u_conds_value = 0 then none
  else some (if C.lMULTIST then .inr m.u_conds_param_md5 else .inl m.u_conds_param,
    0 < m.u_conds_value)

theorem cellOf_store (m : CondMemo δ) (c : Call) (value : Bool) :
    cellOf C (m.store C (condKey mt c) value) = some (storedKey C mt c, value) := by
  unfold cellOf CondMemo.store storedKey
  cases C.lMULTIST <;> cases value <;> rfl

end Cell

section Run
variable {δ : Type} [DecidableEq δ] (C : Client δ) (mt : Conds)

def early (c : Call) : Option Bool := if refused C mt c then some false else none

theorem hits_iff (m : CondMemo δ) (hv : m.u_conds_value ≠ 0) (c : Call) :
    hits C m (condKey mt c) = true ↔
      (if C.lMULTIST then .inr m.u_conds_param_md5 else .inl m.u_conds_param) =
        storedKey C mt c := by
  unfold hits storedKey
  rw [bne_iff_ne.mpr hv, Bool.true_and]
  by_cases hmt : C.lMULTIST = true
  · rw [if_pos hmt, if_pos hmt, if_pos hmt, beq_iff_eq, Sum.inr.injEq]
  · rw [if_neg hmt, if_neg hmt, if_neg hmt, beq_iff_eq, Sum.inl.injEq, eq_comm]

/-- `evalCondX` is a call with a memo of one cell. -/
theorem evalCondX_sim (m : CondMemo δ) (c : Call) (hclif : c.clif.isSome = true) :
    (evalCondX C mt m c).1 =
        (memo.call (early C mt) (storedKey C mt) (evalCond1X C mt) (cellOf C m) c).1 ∧
      cellOf C (evalCondX C mt m c).2 =
        (memo.call (early C mt) (storedKey C mt) (evalCond1X C mt) (cellOf C m) c).2 := by
  unfold evalCondX memo.call early
  by_cases hr : refused C mt c = true
  · simp only [hr, if_true, and_self]
  simp only [hr, Bool.false_eq_true, if_false, hclif, if_true]
  by_cases hv : m.u_conds_value = 0
  · have hno : hits C m (condKey mt c) = false := by
      unfold hits
      rw [hv]
      rfl
    have hcell : cellOf C m = none := if_pos hv
    rw [hno, hcell]
    exact ⟨rfl, cellOf_store C mt m c _⟩
  · have hcell : cellOf C m = some (if C.lMULTIST then .inr m.u_conds_param_md5
        else .inl m.u_conds_param, decide (0 < m.u_conds_value)) := if_neg hv
    have hiff := hits_iff C mt m hv c
    rw [hcell]
    by_cases hh : hits C m (condKey mt c) = true
    · simp only [hh, if_true, hiff.mp hh, hcell, and_self]
    · have hne := fun h => hh (hiff.mpr h)
      simp only [hh, Bool.false_eq_true, if_false, if_neg hne]
      exact ⟨trivial, cellOf_store C mt m c _⟩

/-- In a run from a cleared memo whose calls have keys that tell them apart, as far as the
conditions read them, each call gives the value that it gives with the memo cleared. -/
theorem conds_memo_transparent (m : CondMemo δ) (hm : m.u_conds_value = 0) (calls : List Call)
    (hclif : ∀ c ∈ calls, c.clif.isSome = true) (hkey : ∀ c ∈ calls, WellKeyed mt c)
    (hleft : ∀ c ∈ calls, ∀ d ∈ calls, kept mt c = kept mt d → LeftOut mt c d)
    (hmd5 : C.lMULTIST = true → ∀ c ∈ calls, ∀ d ∈ calls,
      C.toMD5X (condKey mt c) = C.toMD5X (condKey mt d) → condKey mt c = condKey mt d) :
    memo.run (evalCondX C mt) m calls = calls.map fun c => (evalCondX C mt m c).1 := by
  have hcell : cellOf C m = none := by
    unfold cellOf
    rw [if_pos hm]
  have hstored : ∀ c ∈ calls, ∀ d ∈ calls, storedKey C mt c = storedKey C mt d →
      evalCond1X C mt c = evalCond1X C mt d := by
    intro c hc d hd h
    have hsame : condKey mt c = condKey mt d := by
      unfold storedKey at h
      by_cases hmt : C.lMULTIST = true
      · rw [if_pos hmt, if_pos hmt] at h
        exact hmd5 hmt c hc d hd (Sum.inr.inj h)
      · rw [if_neg hmt, if_neg hmt] at h
        exact Sum.inl.inj h
    have hk := kept_of_condKey (hkey c hc) (hkey d hd) hsame
    exact evalCond1X_congr C
      (sameReads_of_kept (hclif c hc) (hclif d hd) hk (hleft c hc d hd hk))
  rw [memo.run_congr (cellOf C) calls fun c hc m => evalCondX_sim C mt m c (hclif c hc), hcell,
    memo.run_call hstored calls (fun c hc => hc) (by rintro p ⟨⟩)]
  apply List.map_congr_left
  intro c hc
  rw [(evalCondX_sim C mt m c (hclif c hc)).1, hcell, memo.call_none]

end Run

/-- A client whose lists hold the host `a` alone. -/
def onlyA : Client Unit where
  matchFROM _ := false
  matchAUTH _ := false
  matchPath1 _ host _ := host == ['a']
  matchPATHs _ := false
  matchPATH1 _ := false
  evalCondition _ := false
  odst := ([], 0)
  clif_proto := ['h', 't', 't', 'p']
  tlssni := []
  serviceport _ := 80
  reqstr := none
  frex_match _ _ := false
  byReferer := false
  lMULTIST := false
  toMD5X _ := ()

/-- A rule with `dst=` of one list. -/
def dstRule : Conds := { dstList := 1, u_conds := C_QHOST ||| C_RHOST }

def cleared : CondMemo Unit := ⟨0, [], ()⟩

/-- A request for a URL. -/
def request (srcurl : Text) : Call := ⟨.CFO, some ['-'], none, none, some srcurl, none, 0⟩

theorem conds_memo_transparent_short :
    memo.run (evalCondX onlyA dstRule) cleared
        [request ['/', '/', 'a'], request ['x', ':', '/', 'b']] =
      [request ['/', '/', 'a'], request ['x', ':', '/', 'b']].map fun c =>
        (evalCondX onlyA dstRule cleared c).1 := by
  apply conds_memo_transparent onlyA dstRule cleared rfl
  · simp [request]
  · simp only [List.mem_cons, List.not_mem_nil, or_false, forall_eq_or_imp, forall_eq]
    exact ⟨⟨by decide, by decide, by decide, by decide⟩, ⟨by decide, by decide, by decide, by decide⟩⟩
  · have hself : ∀ c : Call, LeftOut dstRule c c :=
      fun c => ⟨fun _ => rfl, fun _ => rfl, fun _ => rfl, fun _ _ => rfl, fun _ _ => rfl⟩
    simp only [List.mem_cons, List.not_mem_nil, or_false, forall_eq_or_imp, forall_eq]
    exact ⟨⟨fun _ => hself _, fun h => absurd h (by decide)⟩,
      ⟨fun h => absurd h (by decide), fun _ => hself _⟩⟩
  · intro h
    cases h

/-- Two URLs that differ after the part in the key: the second request gets the value of the
first. -/
theorem conds_memo_stale :
    memo.run (evalCondX onlyA dstRule) cleared
        [request ['h', 't', 't', 'p', ':', '/', '/', 'a', '/'],
          request ['h', 't', 't', 'p', ':', '/', '/', 'b', '/']] ≠
      [request ['h', 't', 't', 'p', ':', '/', '/', 'a', '/'],
          request ['h', 't', 't', 'p', ':', '/', '/', 'b', '/']].map fun c =>
        (evalCondX onlyA dstRule cleared c).1 := by
  decide

end delegate.mount
