-- No association is used after it is deleted, as long as none is deleted while
-- one of its sockets waits in the same round and `newUA` does not fail where its
-- caller does not expect it.
import Delegate.UdpRelay

open runs

namespace delegate.udp

/-! ## What holds of a record -/

/-- Every association that is used is one, and has not been deleted before. -/
def Safe : List Event → Prop
  | [] => True
  | .use none :: _ => False
  | .use (some id) :: l => .del id ∉ l ∧ Safe l
  | _ :: l => Safe l

/-- An association that was made and not deleted. -/
def Live (st : Relay) (id : Nat) : Prop := 1 ≤ id ∧ id ≤ st.uaid ∧ .del id ∉ st.log

/-- The arrays list the live associations, with their sockets. -/
structure Listed (st : Relay) : Prop where
  cls : st.cls = clSlots st.uassocv
  svs : st.svs = svSlots st.uassocv
  ctls : st.ctls = ctlSlots st.uassocv
  live : ∀ id, Live st id ↔ ∃ s ∈ st.svs, s.id = id

/-- Nothing deleted was used so far, and if a round begins, its arrays list what is live. -/
structure Alive (st : Relay) : Prop where
  safe : Safe st.log
  listed : st.top → Listed st.updated

/-! ## The table -/

/-- The table has the live associations, each once. -/
structure Table (uav : List Assoc) (uaid : Nat) (log : List Event) : Prop where
  ids : (uav.map Assoc.ua_id).Nodup
  adrs : (uav.map Assoc.adr).Nodup
  dels : ∀ id, .del id ∈ log → id ≤ uaid
  live : ∀ id, id ∈ uav.map Assoc.ua_id ↔ 1 ≤ id ∧ id ≤ uaid ∧ .del id ∉ log
  safe : Safe log

namespace Table

variable {uav uav' : List Assoc} {uaid : Nat} {log : List Event}

theorem cons (h : Table uav uaid log) {e : Event} (hdel : ∀ id, e ≠ .del id)
    (hsafe : Safe (e :: log)) : Table uav uaid (e :: log) := by
  refine ⟨h.ids, h.adrs, ?_, ?_, hsafe⟩
  · intro id hmem
    rcases List.mem_cons.mp hmem with heq | hmem
    · exact absurd heq.symm (hdel id)
    · exact h.dels id hmem
  · intro id
    rw [h.live id, List.mem_cons, not_or]
    simp [Ne.symm (hdel id)]

theorem use (h : Table uav uaid log) {id : Nat} (hid : id ∈ uav.map Assoc.ua_id) :
    Table uav uaid (.use (some id) :: log) :=
  h.cons (by simp) ⟨((h.live id).mp hid).2.2, h.safe⟩

theorem scan (h : Table uav uaid log) :
    Table uav uaid ((uav.map fun ua => .use (some ua.ua_id)) ++ log) := by
  have hall : ∀ l : List Assoc, (∀ ua ∈ l, ua.ua_id ∈ uav.map Assoc.ua_id) →
      Table uav uaid ((l.map fun ua => .use (some ua.ua_id)) ++ log) := by
    intro l hl
    induction l with
    | nil => exact h
    | cons ua l ih =>
      exact (ih fun u hu => hl u (List.mem_cons_of_mem _ hu)).use (hl ua List.mem_cons_self)
  exact hall uav fun ua hua => List.mem_map_of_mem hua

theorem erase (h : Table uav uaid log) {ux : Nat} {ua : Assoc} (hux : uav[ux]? = some ua) :
    Table (uav.eraseIdx ux) uaid (.del ua.ua_id :: .use (some ua.ua_id) :: log) := by
  obtain ⟨hlt, rfl⟩ := List.getElem?_eq_some_iff.mp hux
  have hperm : uav.Perm (uav[ux] :: uav.eraseIdx ux) := (List.getElem_cons_eraseIdx_perm hlt).symm
  have hids := (hperm.map Assoc.ua_id).nodup_iff.mp h.ids
  have hadrs := (hperm.map Assoc.adr).nodup_iff.mp h.adrs
  rw [List.map_cons, List.nodup_cons] at hids hadrs
  have hmem : uav[ux].ua_id ∈ uav.map Assoc.ua_id := List.mem_map_of_mem (List.getElem_mem hlt)
  obtain ⟨hone, hle, hno⟩ := (h.live _).mp hmem
  refine ⟨hids.2, hadrs.2, ?_, ?_, hno, h.safe⟩
  · intro id hdel
    simp only [List.mem_cons, Event.del.injEq, reduceCtorEq, false_or] at hdel
    rcases hdel with rfl | hdel
    · exact hle
    · exact h.dels id hdel
  · intro id
    have hiff := h.live id
    rw [(hperm.map Assoc.ua_id).mem_iff, List.map_cons, List.mem_cons] at hiff
    by_cases heq : id = uav[ux].ua_id
    · simp [heq, hids.1]
    · simpa [heq] using hiff

theorem insert (h : Table uav uaid log) {ua : Assoc} (hperm : uav'.Perm (ua :: uav))
    (hid : ua.ua_id = uaid + 1) (hadr : ua.adr ∉ uav.map Assoc.adr) :
    Table uav' (uaid + 1) log := by
  have hnew : ua.ua_id ∉ uav.map Assoc.ua_id := by
    intro hmem
    have := ((h.live _).mp hmem).2.1
    omega
  refine ⟨?_, ?_, ?_, ?_, h.safe⟩
  · rw [(hperm.map Assoc.ua_id).nodup_iff, List.map_cons, List.nodup_cons]
    exact ⟨hnew, h.ids⟩
  · rw [(hperm.map Assoc.adr).nodup_iff, List.map_cons, List.nodup_cons]
    exact ⟨hadr, h.adrs⟩
  · intro id hdel
    have := h.dels id hdel
    omega
  · intro id
    rw [(hperm.map Assoc.ua_id).mem_iff, List.map_cons, List.mem_cons, h.live id, hid]
    constructor
    · rintro (rfl | ⟨hone, hle, hno⟩)
      · refine ⟨by omega, le_refl _, fun hdel => ?_⟩
        have := h.dels _ hdel
        omega
      · exact ⟨hone, by omega, hno⟩
    · rintro ⟨hone, hle, hno⟩
      by_cases heq : id = uaid + 1
      · exact .inl heq
      · exact .inr ⟨hone, by omega, hno⟩

/-- Changes that leave the address and the number of an association. -/
theorem map (h : Table uav uaid log) {f : Assoc → Assoc}
    (hf : ∀ ua, (f ua).ua_id = ua.ua_id ∧ (f ua).adr = ua.adr) : Table (uav.map f) uaid log := by
  have hids : (uav.map f).map Assoc.ua_id = uav.map Assoc.ua_id := by simp [hf]
  have hadrs : (uav.map f).map Assoc.adr = uav.map Assoc.adr := by simp [hf]
  exact ⟨hids ▸ h.ids, hadrs ▸ h.adrs, h.dels, hids ▸ h.live, h.safe⟩

/-- An address is that of one association. -/
theorem deref_eq (h : Table uav uaid log) {ua : Assoc} (hua : ua ∈ uav) :
    deref uav ua.adr = some ua := by
  unfold deref
  cases hfind : uav.find? fun u => u.adr == ua.adr with
  | none => simpa using List.find?_eq_none.mp hfind ua hua
  | some u =>
    have hadr : u.adr = ua.adr := by simpa using List.find?_some hfind
    rw [List.inj_on_of_nodup_map h.adrs (List.mem_of_find?_eq_some hfind) hua hadr]

end Table

/-! ## `newUA` -/

theorem longestIdleFrom_lt (uav : List Assoc) (ai mtime mx : Nat)
    (h : mx < ai + uav.length) : longestIdleFrom uav ai mtime mx < ai + uav.length := by
  induction uav generalizing ai mtime mx with
  | nil => exact h
  | cons ua uav ih =>
    rw [List.length_cons] at h ⊢
    unfold longestIdleFrom
    by_cases hlt : mtime = 0 ∨ ua.ua_mtime < mtime
    · rw [if_pos hlt]
      have := ih (ai + 1) ua.ua_mtime ai (by omega)
      omega
    · rw [if_neg hlt]
      have := ih (ai + 1) mtime mx (by omega)
      omega

theorem longestIdle_lt {uav : List Assoc} (h : uav ≠ []) : longestIdle uav < uav.length := by
  have hpos := List.length_pos_iff.mpr h
  have := longestIdleFrom_lt uav 0 0 0 (by omega)
  unfold longestIdle
  omega

/-- The association that `newUA` pushes out. -/
def idlest (uav : List Assoc) : Option Assoc := uav[longestIdle uav]?

theorem idlest_some {uav : List Assoc} (h : uav ≠ []) : ∃ ua, idlest uav = some ua :=
  ⟨_, List.getElem?_eq_getElem (longestIdle_lt h)⟩

def Relay.pushOut (st : Relay) : Relay := st.scan.delUA (longestIdle st.uassocv) true

theorem pushOut_eq {st : Relay} {ua : Assoc} (h : idlest st.uassocv = some ua) :
    st.pushOut =
      { st with
        uassocv := st.uassocv.eraseIdx (longestIdle st.uassocv)
        fds := st.fds.filter (· ∉ ua.closes)
        log := .del ua.ua_id :: .use (some ua.ua_id) :: st.scan.log } := by
  unfold idlest at h
  unfold Relay.pushOut Relay.delUA Relay.scan
  dsimp only
  rw [h]
  rfl

/-- No socket could be opened, so that one has to be closed. -/
def Open.pushes (o : Open) (uav : List Assoc) : Prop :=
  o.permitted = true ∧ o.viaSocks = none ∧ o.vsocket = none ∧ o.open1 = none ∧ uav ≠ []

/-- There is a socket for the association. -/
def Open.gets (o : Open) (cf : Conf) (uav : List Assoc) : Prop :=
  o.permitted = true ∧ (o.viaSocks ≠ none ∨ o.vsocket ≠ none ∨
    ((o.open1 ≠ none ∨ (uav ≠ [] ∧ o.open2 ≠ none)) ∧
      (cf.UDPRELAY_RPORT_FIX = true → o.connect = true)))

/-- An association is pushed out, for a socket or for a place in the table. -/
def Open.pushesOut (o : Open) (cf : Conf) (uav : List Assoc) : Prop :=
  o.pushes uav ∨ (o.gets cf uav ∧ cf.maxassoc ≤ uav.length)

/-- The peer that a socket of `newUA` has. -/
def Open.peerOk (o : Open) (cf : Conf) (sv : Addr) (peer : Option Addr) : Prop :=
  o.viaSocks ≠ none ∨ peer = some sv ∨
    (peer = none ∧ (cf.UDPRELAY_RPORT_FIX = false ∨ o.vsocket ≠ none))

/-- A new association is in the table. -/
structure Added (cf : Conf) (o : Open) (cl sv : Addr) (st st' : Relay) (ua : Assoc) : Prop where
  frame : st' = { st with uassocv := st'.uassocv, uaid := st.uaid + 1, fds := st'.fds
                          peer := st'.peer }
  perm : st'.uassocv.Perm (ua :: st.uassocv)
  id : ua.ua_id = st.uaid + 1
  adr : ua.adr ∉ st.uassocv.map Assoc.adr
  cl : ua.ua_cl = cl
  tcp : ua.ua_svtcp = !o.isUDP
  priv : ua.ua_clpriv = false
  nonneg : 0 ≤ ua.ua_svsock
  fresh : ua.ua_svsock ∉ st.fds
  socks : o.viaSocks = none → ua.ua_svSOCKS = -1 ∧ st'.fds = ua.ua_svsock :: st.fds
  peers : ∃ peer, o.peerOk cf sv peer ∧ st'.peer = Function.update st.peer ua.ua_svsock peer ∧
    ua.ua_svbound = peer.any fun a => decide (0 < a.2)

/-- The table is not longer than allowed. -/
def Room (cf : Conf) (uav : List Assoc) : Prop := (uav.length : Int) ≤ max 0 cf.maxassoc

theorem addUA_cases {cf : Conf} {o : Open} {cl sv : Addr} {svsock ctl : Int} {peer : Option Addr}
    {st st' : Relay} {r : Option Assoc} (hmax : 0 < cf.maxassoc) (hroom : Room cf st.uassocv)
    (hctl : o.viaSocks = none → ctl = -1) (hpeer : o.peerOk cf sv peer)
    (h : st.addUA cf o cl sv svsock peer ctl = some (st', r)) :
    ∃ ua s, r = some ua ∧ Added cf o cl sv s st' ua ∧ Room cf st'.uassocv ∧
      (s = st ∨ (s = st.pushOut ∧ st.uassocv ≠ [] ∧ cf.maxassoc ≤ st.uassocv.length)) := by
  unfold Room at hroom
  unfold Relay.addUA at h
  dsimp only at h
  by_cases hfull : cf.maxassoc ≤ st.uassocv.length
  · have hne : st.uassocv ≠ [] := by
      intro hnil
      rw [hnil] at hfull
      simp at hfull
      omega
    obtain ⟨e, he⟩ := idlest_some hne
    have hlt := longestIdle_lt hne
    simp only [decide_eq_true hfull, if_true] at h
    split at h
    · cases h
    rename_i hguard
    simp only [not_or] at hguard
    obtain ⟨hneg, hfd, hctlfd, hadr⟩ := hguard
    cases h
    have hdel : st.scan.delUA (longestIdle st.uassocv) false =
        { st.pushOut with uassocv := st.uassocv } := by
      rw [pushOut_eq he]
      unfold idlest at he
      unfold Relay.delUA Relay.scan
      dsimp only
      rw [he]
      rfl
    refine ⟨_, st.pushOut, rfl, ?_, ?_, .inr ⟨rfl, hne, hfull⟩⟩
    · rw [hdel, pushOut_eq he]
      refine ⟨rfl, ?_, rfl, hadr, rfl, rfl, rfl, not_lt.mp hneg, ?_, ?_, peer, hpeer, rfl, rfl⟩
      · exact List.set_perm_cons_eraseIdx hlt _
      · exact fun hmem => hfd (List.mem_filter.mp hmem).1
      · intro hsocks
        rw [hctl hsocks]
        exact ⟨rfl, rfl⟩
    · rw [hdel]
      unfold Room
      simpa using hroom
  · simp only [decide_eq_false hfull, Bool.false_eq_true, if_false] at h
    split at h
    · cases h
    rename_i hguard
    simp only [not_or] at hguard
    obtain ⟨hneg, hfd, hctlfd, hadr⟩ := hguard
    rw [List.eraseIdx_of_length_le (le_refl _)] at hadr
    cases h
    refine ⟨_, st, rfl, ?_, ?_, .inl rfl⟩
    · refine ⟨rfl, ?_, rfl, hadr, rfl, rfl, rfl, not_lt.mp hneg, hfd, ?_, peer, hpeer, rfl, rfl⟩
      · exact List.perm_append_singleton _ _
      · intro hsocks
        rw [hctl hsocks]
        exact ⟨rfl, rfl⟩
    · unfold Room
      simp
      omega

theorem bindUA_cases {cf : Conf} {o : Open} {cl sv : Addr} {svsock : Int} {st st' : Relay}
    {r : Option Assoc}
    (hmax : (cf.UDPRELAY_RPORT_FIX = true → o.connect = true) → 0 < cf.maxassoc)
    (hroom : Room cf st.uassocv) (h : st.bindUA cf o cl sv svsock = some (st', r)) :
    (r = none ∧ st' = st ∧ ¬ (cf.UDPRELAY_RPORT_FIX = true → o.connect = true)) ∨
      ((cf.UDPRELAY_RPORT_FIX = true → o.connect = true) ∧
        ∃ ua s, r = some ua ∧ Added cf o cl sv s st' ua ∧ Room cf st'.uassocv ∧
          (s = st ∨ (s = st.pushOut ∧ st.uassocv ≠ [] ∧ cf.maxassoc ≤ st.uassocv.length))) := by
  unfold Relay.bindUA at h
  cases hfix : cf.UDPRELAY_RPORT_FIX with
  | false =>
    rw [hfix, if_neg Bool.false_ne_true] at h
    refine .inr ⟨by simp, ?_⟩
    exact addUA_cases (hmax (by simp [hfix])) hroom (fun _ => rfl) (.inr (.inr ⟨rfl, .inl hfix⟩)) h
  | true =>
    rw [hfix, if_pos rfl] at h
    cases hcon : o.connect with
    | false =>
      rw [hcon, if_neg Bool.false_ne_true] at h
      cases h
      exact .inl ⟨rfl, rfl, by simp⟩
    | true =>
      rw [hcon, if_pos rfl] at h
      refine .inr ⟨by simp, ?_⟩
      exact addUA_cases (hmax (by simp [hcon])) hroom (fun _ => rfl) (.inr (.inl rfl)) h

/-- After one association is pushed out, there is a place for another one. -/
theorem room_pushOut {cf : Conf} {st : Relay} (hroom : Room cf st.uassocv) (hne : st.uassocv ≠ []) :
    (st.pushOut.uassocv.length : Int) < max 0 cf.maxassoc := by
  obtain ⟨ua, hua⟩ := idlest_some hne
  rw [pushOut_eq hua]
  dsimp only
  rw [List.length_eraseIdx_of_lt (longestIdle_lt hne)]
  have hpos := List.length_pos_iff.mpr hne
  unfold Room at hroom
  omega

/-- What `newUA` can do. -/
theorem newUA_cases {cf : Conf} {o : Open} {cl sv : Addr} {st st' : Relay} {r : Option Assoc}
    (hmax : o.gets cf st.uassocv → 0 < cf.maxassoc) (hroom : Room cf st.uassocv)
    (h : st.newUA cf o cl sv = some (st', r)) :
    (r = none ∧ ¬ o.gets cf st.uassocv ∧
        (st' = st ∨ (st' = st.pushOut ∧ o.pushes st.uassocv))) ∨
      ∃ ua s, r = some ua ∧ o.gets cf st.uassocv ∧ Added cf o cl sv s st' ua ∧
        Room cf st'.uassocv ∧
        (s = st ∨ (s = st.pushOut ∧ st.uassocv ≠ [] ∧ o.pushesOut cf st.uassocv)) := by
  unfold Relay.newUA at h
  cases hperm : o.permitted with
  | false =>
    simp only [hperm, Bool.not_false, if_true] at h
    cases h
    exact .inl ⟨rfl, fun hgets => absurd hgets.1 (by simp [hperm]), .inl rfl⟩
  | true =>
  simp only [hperm, Bool.not_true, Bool.false_eq_true, if_false] at h
  have hadd : ∀ {svsock ctl : Int} {peer : Option Addr}, o.gets cf st.uassocv →
      (o.viaSocks = none → ctl = -1) → o.peerOk cf sv peer →
      st.addUA cf o cl sv svsock peer ctl = some (st', r) →
      ∃ ua s, r = some ua ∧ o.gets cf st.uassocv ∧ Added cf o cl sv s st' ua ∧
        Room cf st'.uassocv ∧
        (s = st ∨ (s = st.pushOut ∧ st.uassocv ≠ [] ∧ o.pushesOut cf st.uassocv)) := by
    intro svsock ctl peer hgets hctl hpeer hadd
    obtain ⟨ua, s, hr, hadded, hroom', hs⟩ := addUA_cases (hmax hgets) hroom hctl hpeer hadd
    refine ⟨ua, s, hr, hgets, hadded, hroom', ?_⟩
    exact hs.imp_right fun hs => ⟨hs.1, hs.2.1, .inr ⟨hgets, hs.2.2⟩⟩
  cases hvia : o.viaSocks with
  | some x =>
    obtain ⟨svsock, ctl, peer⟩ := x
    simp only [hvia] at h
    exact .inr (hadd ⟨hperm, .inl (by simp [hvia])⟩ (by simp [hvia]) (.inl (by simp [hvia])) h)
  | none =>
  cases hvs : o.vsocket with
  | some x =>
    obtain ⟨svsock, conn⟩ := x
    simp only [hvia, hvs] at h
    refine .inr (hadd ⟨hperm, .inr (.inl (by simp [hvs]))⟩ (fun _ => rfl) ?_ h)
    cases conn with
    | true => exact .inr (.inl rfl)
    | false => exact .inr (.inr ⟨rfl, .inr (by simp [hvs])⟩)
  | none =>
  cases hopen : o.open1 with
  | some svsock =>
    simp only [hvia, hvs, hopen] at h
    have hgets : o.gets cf st.uassocv ↔ (cf.UDPRELAY_RPORT_FIX = true → o.connect = true) := by
      unfold Open.gets
      simp [hperm, hvia, hvs, hopen]
    rcases bindUA_cases (fun hfix => hmax (hgets.mpr hfix)) hroom h with
      ⟨hr, hst, hno⟩ | ⟨hyes, ua, s, hr, hadded, hroom', hs⟩
    · exact .inl ⟨hr, fun hg => hno (hgets.mp hg), .inl hst⟩
    · refine .inr ⟨ua, s, hr, hgets.mpr hyes, hadded, hroom', ?_⟩
      exact hs.imp_right fun hs => ⟨hs.1, hs.2.1, .inr ⟨hgets.mpr hyes, hs.2.2⟩⟩
  | none =>
  simp only [hvia, hvs, hopen] at h
  by_cases hnil : st.uassocv = []
  · rw [if_pos hnil] at h
    cases h
    refine .inl ⟨rfl, ?_, .inl rfl⟩
    unfold Open.gets
    simp [hvia, hvs, hopen, hnil]
  rw [if_neg hnil] at h
  have hpush : o.pushes st.uassocv := ⟨hperm, hvia, hvs, hopen, hnil⟩
  cases hopen2 : o.open2 with
  | none =>
    rw [hopen2] at h
    cases h
    refine .inl ⟨rfl, ?_, .inr ⟨rfl, hpush⟩⟩
    unfold Open.gets
    simp [hvia, hvs, hopen, hopen2]
  | some svsock =>
    rw [hopen2] at h
    change st.pushOut.bindUA cf o cl sv svsock = some (st', r) at h
    have hgets : o.gets cf st.uassocv ↔ (cf.UDPRELAY_RPORT_FIX = true → o.connect = true) := by
      unfold Open.gets
      simp [hperm, hvia, hvs, hopen, hopen2, hnil]
    have hlt := room_pushOut hroom hnil
    rcases bindUA_cases (fun hfix => hmax (hgets.mpr hfix)) hlt.le h with
      ⟨hr, hst, hno⟩ | ⟨hyes, ua, s, hr, hadded, hroom', hs⟩
    · exact .inl ⟨hr, fun hg => hno (hgets.mp hg), .inr ⟨hst, hpush⟩⟩
    · refine .inr ⟨ua, s, hr, hgets.mpr hyes, hadded, hroom', .inr ?_⟩
      rcases hs with hs | ⟨-, -, hfull⟩
      · exact ⟨hs, hnil, .inl hpush⟩
      · omega

/-! ## The invariant -/

/-- The table is right, and the server sockets that wait in the round are those of associations in
it. -/
structure Core (cf : Conf) (st : Relay) : Prop where
  table : Table st.uassocv st.uaid st.log
  room : Room cf st.uassocv
  todo : ∀ s ∈ st.todoSvs, s ∈ svSlots st.uassocv
  once : (st.todoSvs.map Slot.id).Nodup

/-- The arrays list the table. -/
structure Filled (st : Relay) : Prop where
  cls : st.cls = clSlots st.uassocv
  svs : st.svs = svSlots st.uassocv
  ctls : st.ctls = ctlSlots st.uassocv

structure Inv (cf : Conf) (st : Relay) : Prop extends Core cf st where
  filled : st.update = false → Filled st

variable {cf : Conf} {st st' : Relay}

theorem mem_svSlots {uav : List Assoc} {s : Slot} (h : s ∈ svSlots uav) :
    ∃ ua ∈ uav, s = ua.slot ua.ua_svsock := by
  obtain ⟨ua, hua, rfl⟩ := List.mem_map.mp h
  exact ⟨ua, hua, rfl⟩

theorem ids_svSlots (uav : List Assoc) : (svSlots uav).map Slot.id = uav.map Assoc.ua_id := by
  unfold svSlots
  rw [List.map_map]
  rfl

theorem Core.dirty (h : Core cf st) (hupdate : st.update = true) : Inv cf st :=
  ⟨h, fun hno => absurd (hupdate.symm.trans hno) (by decide)⟩

/-- A change of associations that leaves what the arrays hold of them. -/
theorem Core.modify (h : Core cf st) (adr : Nat) {f : Assoc → Assoc}
    (hf : ∀ ua, (f ua).ua_id = ua.ua_id ∧ (f ua).adr = ua.adr ∧ (f ua).ua_svsock = ua.ua_svsock) :
    Core cf (st.modify adr f) := by
  have hg : ∀ ua : Assoc, (if ua.adr = adr then f ua else ua).ua_id = ua.ua_id ∧
      (if ua.adr = adr then f ua else ua).adr = ua.adr ∧
      (if ua.adr = adr then f ua else ua).ua_svsock = ua.ua_svsock := by
    intro ua
    split
    · exact hf ua
    · exact ⟨rfl, rfl, rfl⟩
  refine ⟨h.table.map fun ua => ⟨(hg ua).1, (hg ua).2.1⟩, ?_, ?_, h.once⟩
  · have := h.room
    unfold Room Relay.modify at *
    simpa using this
  · intro s hs
    obtain ⟨ua, hua, rfl⟩ := mem_svSlots (h.todo s hs)
    refine List.mem_map.mpr ⟨_, List.mem_map_of_mem hua, ?_⟩
    unfold Assoc.slot
    rw [(hg ua).1, (hg ua).2.1, (hg ua).2.2]

/-- The time of an association is not in the arrays. -/
theorem Filled.touch (h : Filled st) (adr now : Nat) :
    Filled (st.modify adr fun u => { u with ua_mtime := now }) := by
  have hmap : ∀ (p : Assoc → Bool) (g : Assoc → Slot) (uav : List Assoc),
      (∀ ua, p { ua with ua_mtime := now } = p ua) → (∀ ua, g { ua with ua_mtime := now } = g ua) →
      ((uav.map fun ua => if ua.adr = adr then { ua with ua_mtime := now } else ua).filter p).map g =
        (uav.filter p).map g := by
    intro p g uav hp hg
    rw [List.filter_map, List.map_map]
    have hp' : (p ∘ fun ua => if ua.adr = adr then { ua with ua_mtime := now } else ua) = p := by
      funext ua
      dsimp only [Function.comp]
      split
      · exact hp ua
      · rfl
    have hg' : (g ∘ fun ua => if ua.adr = adr then { ua with ua_mtime := now } else ua) = g := by
      funext ua
      dsimp only [Function.comp]
      split
      · exact hg ua
      · rfl
    rw [hp', hg']
  refine ⟨h.cls.trans ?_, h.svs.trans ?_, h.ctls.trans ?_⟩
  · exact (hmap _ _ _ (fun _ => rfl) (fun _ => rfl)).symm
  · have := (hmap (fun _ => true) (fun ua => ua.slot ua.ua_svsock) st.uassocv (fun _ => rfl)
      (fun _ => rfl)).symm
    rwa [List.filter_true, List.filter_true] at this
  · exact (hmap _ _ _ (fun _ => rfl) (fun _ => rfl)).symm

theorem Core.log (h : Core cf st) {log : List Event} (hlog : Table st.uassocv st.uaid log) :
    Core cf { st with log := log } := ⟨hlog, h.room, h.todo, h.once⟩

theorem Inv.log (h : Inv cf st) {log : List Event} (hlog : Table st.uassocv st.uaid log) :
    Inv cf { st with log := log } :=
  ⟨h.toCore.log hlog, fun hno => ⟨(h.filled hno).cls, (h.filled hno).svs, (h.filled hno).ctls⟩⟩

/-- The invariant does not depend on the rest of the state. -/
theorem Inv.same (h : Inv cf st) {svport : Int} {lastrelay : Nat} {ports : List Nat}
    {cls ctls : List Slot} {stopped : Bool} {fds : List Int} {peer : Int → Option Addr} :
    Inv cf { st with
      svport := svport, lastrelay := lastrelay, todoPorts := ports, todoCls := cls
      todoCtls := ctls, stopped := stopped, fds := fds, peer := peer } :=
  ⟨⟨h.table, h.room, h.todo, h.once⟩,
    fun hno => ⟨(h.filled hno).cls, (h.filled hno).svs, (h.filled hno).ctls⟩⟩

/-- No server socket of the association waits in the round. -/
def Relay.spares (st : Relay) (ua : Assoc) : Prop := ∀ s ∈ st.todoSvs, s.id ≠ ua.ua_id

theorem Core.delUA (h : Core cf st) {ux : Nat} {ua : Assoc} (hux : st.uassocv[ux]? = some ua)
    (hspare : st.spares ua) : Core cf (st.delUA ux true) := by
  unfold Relay.delUA
  rw [hux]
  refine ⟨h.table.erase hux, ?_, ?_, h.once⟩
  · have hle := List.length_eraseIdx_le st.uassocv ux
    have hroom := h.room
    unfold Room at *
    dsimp only
    rw [if_pos rfl]
    omega
  · intro s hs
    obtain ⟨u, hu, rfl⟩ := mem_svSlots (h.todo s hs)
    obtain ⟨i, hi, rfl⟩ := List.getElem_of_mem hu
    refine List.mem_map_of_mem (List.mem_eraseIdx_iff_getElem.mpr ⟨i, hi, ?_, rfl⟩)
    rintro rfl
    rw [List.getElem?_eq_getElem hi] at hux
    cases hux
    exact hspare _ hs rfl

theorem Core.pushOut (h : Core cf st) {ua : Assoc} (hua : idlest st.uassocv = some ua)
    (hspare : st.spares ua) : Core cf st.pushOut :=
  Core.delUA (h.log h.table.scan) hua hspare

theorem Core.added (h : Core cf st) {o : Open} {cl sv : Addr} {ua : Assoc}
    (hadded : Added cf o cl sv st st' ua) (hroom : Room cf st'.uassocv) : Core cf st' := by
  have htable := h.table.insert hadded.perm hadded.id hadded.adr
  rw [hadded.frame]
  refine ⟨htable, hroom, ?_, h.once⟩
  intro s hs
  obtain ⟨u, hu, rfl⟩ := mem_svSlots (h.todo s hs)
  exact List.mem_map_of_mem (hadded.perm.mem_iff.mpr (List.mem_cons_of_mem _ hu))

/-! ## Steps -/

theorem Core.toServ (h : Core cf st) {ua : Assoc} (hua : ua.ua_id ∈ st.uassocv.map Assoc.ua_id)
    (data : List UInt8) (cl : Addr) (sx : Option Nat) (now : Nat) :
    Core cf (st.toServ cf ua data cl sx now) := by
  have hmod : Core cf (st.modify ua.adr fun u => { u with ua_mtime := now % 2 ^ 32 }) :=
    h.modify ua.adr fun u => ⟨rfl, rfl, rfl⟩
  apply hmod.log
  have hmem : ua.ua_id ∈ (st.modify ua.adr fun u =>
      { u with ua_mtime := now % 2 ^ 32 }).uassocv.map Assoc.ua_id :=
    (hmod.table.live _).mpr ((h.table.live _).mp hua)
  have huse := hmod.table.use hmem
  generalize (if 0 ≤ ua.ua_svSOCKS then some (cf.svhost, st.svport)
    else if ua.ua_svtcp || ua.ua_svbound || cf.UDPRELAY_RPORT_FIX then st.peer ua.ua_svsock
    else some (cf.svhost, st.svport)) = dst
  cases dst with
  | none => exact huse
  | some a => exact huse.cons (by simp) huse.safe

theorem Inv.toServ (h : Inv cf st) {ua : Assoc} (hua : ua.ua_id ∈ st.uassocv.map Assoc.ua_id)
    (data : List UInt8) (cl : Addr) (sx : Option Nat) (now : Nat) :
    Inv cf (st.toServ cf ua data cl sx now) := by
  refine ⟨h.toCore.toServ hua data cl sx now, fun hno => ?_⟩
  have htouch := (h.filled hno).touch ua.adr (now % 2 ^ 32)
  exact ⟨htouch.cls, htouch.svs, htouch.ctls⟩

theorem setPort_eq (cf : Conf) (st : Relay) (sx : Nat) :
    ∃ port, st.setPort cf sx = { st with svport := port } := by
  unfold Relay.setPort
  split
  · exact ⟨_, rfl⟩
  · exact ⟨st.svport, rfl⟩

theorem getUAx_some {uav : List Assoc} {s : Slot} {ux : Nat} (h : getUAx uav s = some ux) :
    ∃ ua, uav[ux]? = some ua ∧ ua.adr = s.adr := by
  obtain ⟨hlt, hadr, -⟩ := List.findIdx?_eq_some_iff_getElem.mp h
  exact ⟨uav[ux], List.getElem?_eq_getElem hlt, by simpa using hadr⟩

theorem Inv.reset (h : Inv cf st) {s : Slot}
    (hspare : ∀ ua ∈ st.uassocv, ua.adr = s.adr → st.spares ua) : Inv cf (st.reset s) := by
  unfold Relay.reset
  cases hux : getUAx st.uassocv s with
  | none => exact h
  | some ux =>
    obtain ⟨ua, hua, hadr⟩ := getUAx_some hux
    have hdel := h.toCore.delUA hua (hspare ua (List.mem_of_getElem? hua) hadr)
    exact Core.dirty ⟨hdel.table, hdel.room, hdel.todo, hdel.once⟩ rfl

theorem Core.killFrom {now : Nat} (n : Nat) (h : Core cf st) (htodo : st.todoSvs = []) (ux : Nat) :
    Core cf (Relay.killFrom cf now n st ux) := by
  induction n generalizing st ux with
  | zero => exact h
  | succ n ih =>
    unfold Relay.killFrom
    cases hux : st.uassocv[ux]? with
    | none => exact h
    | some ua =>
      have huse : Core cf (st.use (some ua.ua_id)) :=
        h.log (h.table.use (List.mem_map_of_mem (List.mem_of_getElem? hux)))
      dsimp only
      split
      · apply ih
        · apply huse.delUA hux
          intro s hs
          rw [show (st.use (some ua.ua_id)).todoSvs = [] from htodo] at hs
          cases hs
        · unfold Relay.delUA
          rw [show (st.use (some ua.ua_id)).uassocv[ux]? = some ua from hux]
          exact htodo
      · exact ih huse htodo (ux + 1)

theorem Inv.updated (h : Inv cf st) : Inv cf st.updated ∧ Filled st.updated := by
  unfold Relay.updated
  cases hupdate : st.update with
  | true =>
    have hfilled : Filled { st.scan with
        update := false, cls := clSlots st.uassocv, svs := svSlots st.uassocv
        ctls := ctlSlots st.uassocv } := ⟨rfl, rfl, rfl⟩
    exact ⟨⟨⟨h.table.scan, h.room, h.todo, h.once⟩, fun _ => hfilled⟩, hfilled⟩
  | false => exact ⟨h, h.filled hupdate⟩

@[simp]
theorem updated_todoSvs (st : Relay) : st.updated.todoSvs = st.todoSvs := by
  unfold Relay.updated
  split <;> rfl

theorem pick_sublist {α : Type} (readyv : Nat → Bool) (base : Nat) (l : List α) :
    (pick readyv base l).Sublist l := by
  have h := ((l.zipIdx base).filter_sublist (p := fun p => readyv p.2)).map Prod.fst
  rwa [List.zipIdx_map_fst] at h

theorem Inv.poll (h : Inv cf st) (hfilled : Filled st) (htodo : st.todoSvs = []) (nready : Int)
    (readyv : Nat → Bool) (now : Nat) : Inv cf (st.poll cf nready readyv now) := by
  unfold Relay.poll
  by_cases hneg : nready < 0
  · rw [if_pos hneg]
    exact h.same
  rw [if_neg hneg]
  by_cases hzero : nready = 0
  · rw [if_pos hzero]
    split
    · exact h.same
    · have hkill : Core cf (st.killTimeouts cf now) := Core.killFrom _ h.toCore htodo 0
      exact Core.dirty ⟨hkill.table, hkill.room, hkill.todo, hkill.once⟩ rfl
  rw [if_neg hzero]
  have hsub := pick_sublist readyv (cf.csc + st.cls.length) st.svs
  rw [hfilled.svs] at hsub
  refine ⟨⟨h.table, h.room, ?_, ?_⟩, fun _ => ⟨hfilled.cls, hfilled.svs, hfilled.ctls⟩⟩
  · intro s hs
    rw [hfilled.svs] at hs
    exact hsub.subset hs
  · dsimp only
    rw [hfilled.svs]
    apply (hsub.map Slot.id).nodup
    rw [ids_svSlots]
    exact h.table.ids

/-! ## Runs -/

/-- What is pushed out has no server socket that waits in the round. -/
def Spared (cf : Conf) (st : Relay) (o : Open) : Prop :=
  o.pushesOut cf st.uassocv → ∀ ua, idlest st.uassocv = some ua → st.spares ua

/-- A TCP client gets an association; `newUA` does not fail after it has pushed one out; the table
has a place; the server sockets of an association that is pushed out, or deleted with its client, do
not wait; and nothing is received for a client whose association was pushed out. -/
def Sound (cf : Conf) (st : Relay) : Act → Prop
  | .accept clsk src o => 0 < clsk → 0 < src.2 →
      o.gets cf st.uassocv ∧ 0 < cf.maxassoc ∧ Spared cf st o
  | .recvPort data src o _ => data ≠ [] → findUAbysrc st.uassocv src = none →
      (o.pushes st.uassocv → o.gets cf st.uassocv) ∧
        (o.gets cf st.uassocv → 0 < cf.maxassoc) ∧ Spared cf st o
  | .recvClient data _ => ∀ s rest, st.todoCls = s :: rest →
      (data ≠ [] → s.id ∈ st.uassocv.map Assoc.ua_id) ∧
        (data = [] → ∀ ua ∈ st.uassocv, ua.adr = s.adr → st.spares ua)
  | _ => True

theorem Core.newUA (h : Core cf st) {o : Open} {cl sv : Addr} {r : Option Assoc}
    (hmax : o.gets cf st.uassocv → 0 < cf.maxassoc) (hspared : Spared cf st o)
    (hgets : o.pushes st.uassocv → o.gets cf st.uassocv)
    (hnew : st.newUA cf o cl sv = some (st', r)) :
    (r = none ∧ ¬ o.gets cf st.uassocv ∧ st' = st) ∨
      ∃ ua s, r = some ua ∧ Core cf st' ∧ Core cf s ∧ Added cf o cl sv s st' ua ∧
        (s = st ∨ (s = st.pushOut ∧ st.uassocv ≠ [])) := by
  rcases newUA_cases hmax h.room hnew with ⟨hr, hno, hst⟩ | ⟨ua, s, hr, hyes, hadded, hroom, hs⟩
  · rcases hst with hst | ⟨-, hpush⟩
    · exact .inl ⟨hr, hno, hst⟩
    · exact absurd (hgets hpush) hno
  · have hcore : Core cf s := by
      rcases hs with rfl | ⟨rfl, hne, hpush⟩
      · exact h
      · obtain ⟨e, he⟩ := idlest_some hne
        exact h.pushOut he (hspared hpush e he)
    exact .inr ⟨ua, s, hr, hcore.added hadded hroom, hcore, hadded,
      hs.imp_right fun hs => ⟨hs.1, hs.2.1⟩⟩

theorem Inv.accept (h : Inv cf st) {sx : Nat} {clsk : Int} {src : Addr} {o : Open}
    (hsound : Sound cf st (.accept clsk src o))
    (hstep : st.accept cf sx clsk src o = some st') : Inv cf st' := by
  unfold Relay.accept at hstep
  split at hstep
  · cases hstep
  obtain ⟨fds, hfds⟩ : ∃ fds, (if 0 ≤ clsk then { st with fds := clsk :: st.fds } else st) =
      { st with fds := fds } := by
    split
    · exact ⟨_, rfl⟩
    · exact ⟨st.fds, rfl⟩
  dsimp only at hstep
  rw [hfds] at hstep
  by_cases hfail : clsk ≤ 0 ∨ src.2 ≤ 0
  · rw [if_pos hfail] at hstep
    cases hstep
    exact h.same
  rw [if_neg hfail] at hstep
  obtain ⟨hclsk, hsrc⟩ := not_or.mp hfail
  obtain ⟨hgets, hmax, hspared⟩ := hsound (by omega) (by omega)
  obtain ⟨port, hport⟩ := setPort_eq cf { st with fds := fds } sx
  rw [hport] at hstep
  cases hnew : { st with fds := fds, svport := port }.newUA cf o src (cf.svhost, port) with
  | none =>
    rw [hnew] at hstep
    cases hstep
  | some x =>
    obtain ⟨s, r⟩ := x
    rw [hnew] at hstep
    have hst : Inv cf { st with fds := fds, svport := port } := h.same
    rcases hst.toCore.newUA (fun _ => hmax) hspared (fun _ => hgets) hnew with
      ⟨-, hno, -⟩ | ⟨ua, t, rfl, hs, -, hadded, -⟩
    · exact absurd hgets hno
    · cases hstep
      have hmem : ua.ua_id ∈ s.uassocv.map Assoc.ua_id :=
        List.mem_map_of_mem (hadded.perm.mem_iff.mpr List.mem_cons_self)
      have hmod : Core cf ((s.use (some ua.ua_id)).modify ua.adr fun u =>
          { u with ua_clsock := clsk, ua_clpriv := true }) :=
        (hs.log (hs.table.use hmem)).modify ua.adr fun u => ⟨rfl, rfl, rfl⟩
      exact Core.dirty ⟨hmod.table, hmod.room, hmod.todo, hmod.once⟩ rfl

theorem Inv.recvPort (h : Inv cf st) {sx now : Nat} {data : List UInt8} {src : Addr} {o : Open}
    (hsound : Sound cf st (.recvPort data src o now))
    (hstep : st.recvPort cf sx data src o now = some st') : Inv cf st' := by
  unfold Relay.recvPort at hstep
  by_cases hdata : data = []
  · rw [if_pos hdata] at hstep
    cases hstep
    exact h.same
  rw [if_neg hdata] at hstep
  obtain ⟨port, hport⟩ := setPort_eq cf st sx
  dsimp only at hstep
  rw [hport] at hstep
  have hst : Inv cf { st with svport := port } := h.same
  have hscan : Inv cf { st with svport := port }.scan := hst.log hst.table.scan
  cases hfind : findUAbysrc { st with svport := port }.scan.uassocv src with
  | some ua =>
    rw [hfind] at hstep
    cases hstep
    exact hscan.toServ (List.mem_map_of_mem (List.mem_of_find?_eq_some hfind)) data src _ now
  | none =>
    rw [hfind] at hstep
    obtain ⟨hgets, hmax, hspared⟩ := hsound hdata hfind
    cases hnew : { st with svport := port }.scan.newUA cf o src
        (cf.svhost, { st with svport := port }.scan.svport) with
    | none =>
      rw [hnew] at hstep
      cases hstep
    | some x =>
      obtain ⟨s, r⟩ := x
      rw [hnew] at hstep
      rcases hscan.toCore.newUA hmax hspared hgets hnew with
        ⟨rfl, -, rfl⟩ | ⟨ua, t, rfl, hs, -, hadded, -⟩
      · cases hstep
        exact hscan
      · dsimp only at hstep
        rw [if_neg (not_lt.mpr hadded.nonneg)] at hstep
        cases hstep
        have hmem : ua.ua_id ∈ s.uassocv.map Assoc.ua_id :=
          List.mem_map_of_mem (hadded.perm.mem_iff.mpr List.mem_cons_self)
        have hmod : Core cf ((s.use (some ua.ua_id)).modify ua.adr fun u =>
            { u with ua_clsock := cf.csv sx }) :=
          (hs.log (hs.table.use hmem)).modify ua.adr fun u => ⟨rfl, rfl, rfl⟩
        have hdirty : Inv cf { (s.use (some ua.ua_id)).modify ua.adr fun u =>
            { u with ua_clsock := cf.csv sx } with update := true } :=
          Core.dirty ⟨hmod.table, hmod.room, hmod.todo, hmod.once⟩ rfl
        apply hdirty.toServ
        have hlive := (hs.table.live ua.ua_id).mp hmem
        refine (hmod.table.live ua.ua_id).mpr ⟨hlive.1, hlive.2.1, ?_⟩
        simpa [Relay.modify, Relay.use] using hlive.2.2

theorem Inv.recvClient (h : Inv cf st) {s : Slot} {data : List UInt8} {now : Nat}
    (hlive : data ≠ [] → s.id ∈ st.uassocv.map Assoc.ua_id)
    (hspare : data = [] → ∀ ua ∈ st.uassocv, ua.adr = s.adr → st.spares ua) :
    Inv cf (st.recvClient cf s data now) := by
  unfold Relay.recvClient
  by_cases hdata : data = []
  · rw [if_pos hdata]
    exact h.reset (hspare hdata)
  rw [if_neg hdata]
  have huse : Inv cf (st.use (some s.id)) := h.log (h.table.use (hlive hdata))
  cases hderef : deref st.uassocv s.adr with
  | none => exact huse
  | some ua =>
    exact huse.toServ (List.mem_map_of_mem (List.mem_of_find?_eq_some hderef)) data ua.ua_cl none now

theorem Inv.recvServer (h : Inv cf st) {s : Slot} {rest : List Slot} (htodo : st.todoSvs = s :: rest)
    (data : List UInt8) (src : Addr) (now : Nat) :
    Inv cf ({ st with todoSvs := rest }.recvServer s data src now) := by
  obtain ⟨ua, hua, rfl⟩ := mem_svSlots (h.todo s (htodo ▸ List.mem_cons_self))
  have honce := h.once
  rw [htodo, List.map_cons, List.nodup_cons] at honce
  have hrest : Inv cf { st with todoSvs := rest } := by
    refine ⟨⟨h.table, h.room, ?_, honce.2⟩, ?_⟩
    · exact fun t ht => h.todo t (htodo ▸ List.mem_cons_of_mem _ ht)
    · exact fun hno => ⟨(h.filled hno).cls, (h.filled hno).svs, (h.filled hno).ctls⟩
  have huse : Inv cf ({ st with todoSvs := rest }.use (some ua.ua_id)) :=
    hrest.log (hrest.table.use (List.mem_map_of_mem hua))
  unfold Relay.recvServer
  dsimp only
  rw [show (ua.slot ua.ua_svsock).adr = ua.adr from rfl, h.table.deref_eq hua]
  dsimp only
  split
  · split
    · apply huse.reset
      -- the association of the element is not that of another one which still waits
      intro u hu hadr t ht heq
      have hu : u = ua := List.inj_on_of_nodup_map h.table.adrs hu hua hadr
      exact honce.1 (List.mem_map.mpr ⟨t, ht, hu ▸ heq⟩)
    · exact huse
  · have hmod : Core cf (({ st with todoSvs := rest }.use (some ua.ua_id)).modify ua.adr fun u =>
        { u with ua_mtime := now % 2 ^ 32 }) := huse.toCore.modify ua.adr fun u => ⟨rfl, rfl, rfl⟩
    refine ⟨hmod.log (hmod.table.cons (by simp) hmod.table.safe), fun hno => ?_⟩
    have htouch := (huse.filled hno).touch ua.adr (now % 2 ^ 32)
    exact ⟨htouch.cls, htouch.svs, htouch.ctls⟩

theorem Inv.step {a : Act} (h : Inv cf st) (hsound : Sound cf st a)
    (hstep : udp.step cf st a = some st') : Inv cf st' := by
  unfold udp.step at hstep
  cases a with
  | poll nready readyv now =>
    dsimp only at hstep
    by_cases htop : st.top
    · rw [if_pos htop] at hstep
      cases hstep
      obtain ⟨hupdated, hfilled⟩ := h.updated
      exact hupdated.poll hfilled ((updated_todoSvs st).trans htop.2.2.2.1) nready readyv now
    · rw [if_neg htop] at hstep
      cases hstep
  | accept clsk src o =>
    dsimp only at hstep
    split at hstep
    · rename_i sx rest hports
      split at hstep
      · have hrest : Inv cf { st with todoPorts := rest } := h.same
        exact hrest.accept hsound hstep
      · cases hstep
    · cases hstep
  | recvPort data src o now =>
    dsimp only at hstep
    split at hstep
    · rename_i sx rest hports
      split at hstep
      · cases hstep
      · have hrest : Inv cf { st with todoPorts := rest } := h.same
        exact hrest.recvPort hsound hstep
    · cases hstep
  | recvClient data now =>
    dsimp only at hstep
    split at hstep
    · rename_i s rest hports hcls
      cases hstep
      have hrest : Inv cf { st with todoCls := rest } := h.same
      obtain ⟨hlive, hspare⟩ := hsound s rest hcls
      exact hrest.recvClient hlive hspare
    · cases hstep
  | recvServer data src now =>
    dsimp only at hstep
    split at hstep
    · rename_i s rest hports hcls hsvs
      cases hstep
      exact h.recvServer hsvs data src now
    · cases hstep
  | control =>
    dsimp only at hstep
    split at hstep
    · rename_i s rest hports hcls hsvs hctls
      cases hstep
      have hrest : Inv cf { st with todoCtls := rest } := h.same
      apply hrest.reset
      intro ua hua hadr t ht
      have hnil : ({ st with todoCtls := rest } : Relay).todoSvs = [] := hsvs
      rw [hnil] at ht
      cases ht
    · cases hstep

theorem inv_init (cf : Conf) : Inv cf (init cf) := by
  have htable : Table [] 0 [] :=
    ⟨List.nodup_nil, List.nodup_nil, by simp, by simp; omega, trivial⟩
  have hroom : Room cf [] := by
    unfold Room
    simp
  exact ⟨⟨htable, hroom, by simp [init], List.nodup_nil⟩, fun _ => ⟨rfl, rfl, rfl⟩⟩

theorem Inv.alive (h : Inv cf st) : Alive st := by
  refine ⟨h.table.safe, fun _ => ?_⟩
  obtain ⟨hupdated, hfilled⟩ := h.updated
  refine ⟨hfilled.cls, hfilled.svs, hfilled.ctls, fun id => ?_⟩
  have hlive := hupdated.table.live id
  rw [← ids_svSlots, ← hfilled.svs, List.mem_map] at hlive
  exact hlive.symm

/-- In a run whose steps are sound, no association is used after it is deleted, and each round begins
with arrays that list the live ones. -/
theorem alive_of_sound (cf : Conf) (acts : List Act) (h : Meets (step cf) (Sound cf) (init cf) acts) :
    Always (step cf) Alive (init cf) acts := by
  apply always_of_meets _ _ (inv_init cf) h
  · exact fun st a st' hinv hsound hstep => hinv.step hsound hstep
  · exact fun st hinv => hinv.alive

/-- One port, which is a TCP port or not, and one place in the table. -/
def onePort (tcp : Bool) : Conf where
  csc := 1
  csv := fun _ => 3
  istcp := fun _ => tcp
  sockPort := fun _ => 53
  svhost := "server"
  DST_PORT := 53
  svportmap := 0
  UDPRELAY_MAXASSOC := 1
  UDPRELAY_RPORT_FIX := false
  IO_TIMEOUT := 600
  SERVER_TIMEOUT := 0

/-- A client after another one, whose association is pushed out. -/
def twoClients : List Act :=
  [.poll 1 (· == 0) 1, .recvPort [1] ("a", 1000) { open1 := some 4, calloc := 1 } 1,
    .poll 1 (· == 0) 2, .recvPort [2] ("b", 1000) { open1 := some 5, calloc := 1 } 2]

theorem twoClients_alive :
    (exec (step (onePort false)) (init (onePort false)) twoClients).isSome ∧
      Always (step (onePort false)) Alive (init (onePort false)) twoClients := by
  refine ⟨by decide, alive_of_sound (onePort false) twoClients ?_⟩
  intro s1 h1
  obtain rfl := Option.some.inj h1
  refine ⟨trivial, ?_⟩
  intro s2 h2
  obtain rfl := Option.some.inj h2
  refine ⟨fun _ _ => ⟨fun h => absurd h.2.2.2.1 (by simp), fun _ => by decide, ?_⟩, ?_⟩
  · exact fun _ ua hua s hs => absurd hs List.not_mem_nil
  intro s3 h3
  obtain rfl := Option.some.inj h3
  refine ⟨trivial, ?_⟩
  intro s4 h4
  obtain rfl := Option.some.inj h4
  refine ⟨fun _ _ => ⟨fun h => absurd h.2.2.2.1 (by simp), fun _ => by decide, ?_⟩, trivial⟩
  exact fun _ ua hua s hs => absurd hs List.not_mem_nil

/-- A TCP client is not permitted, and the association that it does not get is used. -/
def refusedRun : List Act :=
  [.poll 1 (· == 0) 1, .accept 4 ("a", 1000) { permitted := false }]

/-- The association of the first client is pushed out while an answer for it waits. -/
def pushedRun : List Act :=
  [.poll 1 (· == 0) 1, .recvPort [1] ("a", 1000) { open1 := some 4, calloc := 1 } 1,
    .poll 2 (fun _ => true) 2, .recvPort [2] ("b", 1000) { open1 := some 5, calloc := 2 } 2,
    .recvServer [3] ("server", 53) 2]

/-- There is no socket for the second client even after the first one is pushed out. -/
def failedRun : List Act :=
  [.poll 1 (· == 0) 1, .recvPort [1] ("a", 1000) { open1 := some 4, calloc := 1 } 1,
    .poll 1 (· == 0) 2, .recvPort [2] ("b", 1000) {} 2]

theorem associations_misused :
    ¬ Always (step (onePort true)) Alive (init (onePort true)) refusedRun ∧
      ¬ Always (step (onePort false)) Alive (init (onePort false)) pushedRun ∧
      ¬ Always (step (onePort false)) Alive (init (onePort false)) failedRun := by
  refine ⟨fun h => ?_, fun h => ?_, fun h => ?_⟩
  · obtain ⟨st, hexec, hlog⟩ : ∃ st, exec (step (onePort true)) (init (onePort true)) refusedRun =
        some st ∧ ¬ Safe st.log := ⟨_, rfl, fun hsafe => hsafe⟩
    exact hlog (h.exec hexec).safe
  · obtain ⟨st, hexec, hlog⟩ : ∃ st, exec (step (onePort false)) (init (onePort false)) pushedRun =
        some st ∧ ¬ Safe st.log := ⟨_, rfl, fun hsafe => hsafe.1 (by decide)⟩
    exact hlog (h.exec hexec).safe
  · obtain ⟨st, hexec, htop, hsvs, htable⟩ :
        ∃ st, exec (step (onePort false)) (init (onePort false)) failedRun = some st ∧ st.top ∧
          st.updated.svs = [⟨1, 1, 4⟩] ∧ st.updated.uassocv = [] :=
      ⟨_, rfl, by decide, by decide, by decide⟩
    have hlisted := ((h.exec hexec).listed htop).svs
    rw [hsvs, htable] at hlisted
    cases hlisted

end delegate.udp
