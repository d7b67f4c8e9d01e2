-- A datagram of a client goes to the server of the incoming port it came to, and
-- the answers go back to the client from this port, as long as no client uses a
-- second port while it has an association and nothing deleted is used.
import Delegate.UdpAlive

open runs

namespace delegate.udp

/-! ## What is delivered -/

/-- Datagrams go to the server of their port. What the server of a port sends to an association that
has sent it datagrams of a client goes to this client, from this port. -/
def Right (cf : Conf) : List Event → Prop
  | [] => True
  | .toServ _ (some sx) _ dst _ :: l => dst = (cf.svhost, cf.portOf sx) ∧ Right cf l
  | .toClnt (some id) src cl clsock _ :: l =>
      (∀ c sx dst data, .toServ c (some sx) id dst data ∈ l → src = (cf.svhost, cf.portOf sx) →
        cl = c ∧ clsock = cf.csv sx) ∧ Right cf l
  | _ :: l => Right cf l

/-- A run without SOCKS and TCP. -/
def Plain : Act → Prop
  | .recvPort _ _ o _ => o.viaSocks = none ∧ o.isUDP = true
  | _ => True

/-- A client that has an association uses the port it was made for. -/
def OwnPort (cf : Conf) (st : Relay) : Act → Prop
  | .recvPort _ src _ _ => ∀ sx rest ua, st.todoPorts = sx :: rest →
      findUAbysrc st.uassocv src = some ua → ua.ua_clsock = cf.csv sx
  | _ => True

/-! ## The invariant -/

/-- Each association is that of one client and one port, with its own socket. -/
structure Peers (cf : Conf) (st : Relay) : Prop where
  port : cf.svportmap = 0 → st.svport = cf.DST_PORT
  plain : ∀ ua ∈ st.uassocv, ua.ua_clpriv = false ∧ ua.ua_svSOCKS = -1 ∧ ua.ua_svtcp = false
  socks : (st.uassocv.map Assoc.ua_svsock).Nodup
  fds : ∀ ua ∈ st.uassocv, ua.ua_svsock ∈ st.fds
  serves : ∀ ua ∈ st.uassocv, ∃ sx, ua.ua_clsock = cf.csv sx ∧
    (st.peer ua.ua_svsock = none ∨ st.peer ua.ua_svsock = some (cf.svhost, cf.portOf sx))
  sent : ∀ ua ∈ st.uassocv, ∀ c sx dst data, .toServ c (some sx) ua.ua_id dst data ∈ st.log →
    ua.ua_cl = c ∧ ua.ua_clsock = cf.csv sx
  made : ∀ c sx id dst data, .toServ c sx id dst data ∈ st.log → id ≤ st.uaid
  right : Right cf st.log

variable {cf : Conf} {st st' : Relay}

/-- The port of the server depends on the incoming socket only. -/
theorem portOf_congr {sx sy : Nat} (h : cf.csv sx = cf.csv sy) : cf.portOf sx = cf.portOf sy := by
  unfold Conf.portOf Conf.portnumv
  rw [h]

theorem Peers.same (h : Peers cf st) {update stopped : Bool} {lastrelay : Nat} {ports : List Nat}
    {cls svs ctls todoCls todoSvs todoCtls : List Slot} :
    Peers cf { st with
      update := update, lastrelay := lastrelay, cls := cls, svs := svs, ctls := ctls
      todoPorts := ports, todoCls := todoCls, todoSvs := todoSvs, todoCtls := todoCtls
      stopped := stopped } :=
  ⟨h.port, h.plain, h.socks, h.fds, h.serves, h.sent, h.made, h.right⟩

/-- A use or a deletion of an association, not a datagram. -/
def Event.quiet : Event → Prop
  | .use _ => True
  | .del _ => True
  | _ => False

theorem Peers.quiet (h : Peers cf st) {l : List Event} (hl : ∀ e ∈ l, e.quiet) :
    Peers cf { st with log := l ++ st.log } := by
  have hmem : ∀ {c sx id dst data}, Event.toServ c sx id dst data ∈ l ++ st.log →
      Event.toServ c sx id dst data ∈ st.log := by
    intro c sx id dst data hmem
    exact (List.mem_append.mp hmem).resolve_left fun hin => hl _ hin
  refine ⟨h.port, h.plain, h.socks, h.fds, h.serves, ?_, ?_, ?_⟩
  · exact fun ua hua c sx dst data hin => h.sent ua hua c sx dst data (hmem hin)
  · exact fun c sx id dst data hin => h.made c sx id dst data (hmem hin)
  · clear hmem
    dsimp only
    induction l with
    | nil => exact h.right
    | cons e l ih =>
      have hrest := ih fun e he => hl e (List.mem_cons_of_mem _ he)
      have he := hl e List.mem_cons_self
      cases e with
      | use id => exact hrest
      | del id => exact hrest
      | toServ | toClnt => exact absurd he id

theorem Peers.use (h : Peers cf st) (id : Option Nat) : Peers cf (st.use id) :=
  h.quiet (l := [.use id]) (by simp [Event.quiet])

/-- One more event. A datagram to a server is for the client of its association. -/
theorem Peers.logged (h : Peers cf st) {e : Event}
    (hsent : ∀ ua ∈ st.uassocv, ∀ c sx dst data, e = .toServ c (some sx) ua.ua_id dst data →
      ua.ua_cl = c ∧ ua.ua_clsock = cf.csv sx)
    (hmade : ∀ c sx id dst data, e = .toServ c sx id dst data → id ≤ st.uaid)
    (hright : Right cf (e :: st.log)) : Peers cf { st with log := e :: st.log } := by
  refine ⟨h.port, h.plain, h.socks, h.fds, h.serves, ?_, ?_, hright⟩
  · intro ua hua c sx dst data hin
    rcases List.mem_cons.mp hin with heq | hin
    · exact hsent ua hua c sx dst data heq.symm
    · exact h.sent ua hua c sx dst data hin
  · intro c sx id dst data hin
    rcases List.mem_cons.mp hin with heq | hin
    · exact hmade c sx id dst data heq.symm
    · exact h.made c sx id dst data hin

theorem Peers.scan (h : Peers cf st) : Peers cf st.scan := by
  apply h.quiet
  intro e he
  obtain ⟨ua, -, rfl⟩ := List.mem_map.mp he
  trivial

/-- The associations that are left keep their sockets. -/
theorem Peers.delUA (h : Peers cf st) (ux : Nat) : Peers cf (st.delUA ux true) := by
  unfold Relay.delUA
  cases hux : st.uassocv[ux]? with
  | none => exact h.use none
  | some ua =>
    have hua := List.mem_of_getElem? hux
    obtain ⟨hlt, hget⟩ := List.getElem?_eq_some_iff.mp hux
    have hsub : ∀ u ∈ st.uassocv.eraseIdx ux, u ∈ st.uassocv := fun u hu =>
      (List.eraseIdx_subset) hu
    have hperm : st.uassocv.Perm (ua :: st.uassocv.eraseIdx ux) :=
      hget ▸ (List.getElem_cons_eraseIdx_perm hlt).symm
    have hsocks := (hperm.map Assoc.ua_svsock).nodup_iff.mp h.socks
    rw [List.map_cons, List.nodup_cons] at hsocks
    have hcloses : ua.closes = [ua.ua_svsock] := by
      obtain ⟨hpriv, hctl, -⟩ := h.plain ua hua
      unfold Assoc.closes
      simp [hpriv, hctl]
    have hquiet : Peers cf { st with log := [.del ua.ua_id, .use (some ua.ua_id)] ++ st.log } :=
      h.quiet (by simp [Event.quiet])
    refine ⟨h.port, fun u hu => h.plain u (hsub u hu), hsocks.2, ?_,
      fun u hu => h.serves u (hsub u hu), fun u hu => hquiet.sent u (hsub u hu), hquiet.made,
      hquiet.right⟩
    intro u hu
    refine List.mem_filter.mpr ⟨h.fds u (hsub u hu), ?_⟩
    rw [hcloses]
    have hne : u.ua_svsock ≠ ua.ua_svsock := fun heq => hsocks.1 (heq ▸ List.mem_map_of_mem hu)
    simpa using hne

theorem Peers.pushOut (h : Peers cf st) : Peers cf st.pushOut := h.scan.delUA _

theorem Peers.killFrom {now : Nat} (n : Nat) (h : Peers cf st) (ux : Nat) :
    Peers cf (Relay.killFrom cf now n st ux) := by
  induction n generalizing st ux with
  | zero => exact h
  | succ n ih =>
    unfold Relay.killFrom
    cases hux : st.uassocv[ux]? with
    | none => exact h
    | some ua =>
      dsimp only
      split
      · exact ih ((h.use _).delUA ux) (ux + 1)
      · exact ih (h.use _) (ux + 1)

theorem Peers.touch (h : Peers cf st) (adr now : Nat) :
    Peers cf (st.modify adr fun u => { u with ua_mtime := now }) := by
  have hmem : ∀ v ∈ (st.modify adr fun u => { u with ua_mtime := now }).uassocv,
      ∃ u ∈ st.uassocv, v = { u with ua_mtime := v.ua_mtime } := by
    intro v hv
    obtain ⟨u, hu, rfl⟩ := List.mem_map.mp hv
    refine ⟨u, hu, ?_⟩
    split <;> rfl
  have hsocks : (st.modify adr fun u => { u with ua_mtime := now }).uassocv.map Assoc.ua_svsock =
      st.uassocv.map Assoc.ua_svsock := by
    unfold Relay.modify
    rw [List.map_map]
    congr 1
    funext u
    dsimp only [Function.comp]
    split <;> rfl
  refine ⟨h.port, ?_, hsocks ▸ h.socks, ?_, ?_, ?_, h.made, h.right⟩
  · intro v hv
    obtain ⟨u, hu, heq⟩ := hmem v hv
    rw [heq]
    exact h.plain u hu
  · intro v hv
    obtain ⟨u, hu, heq⟩ := hmem v hv
    rw [heq]
    exact h.fds u hu
  · intro v hv
    obtain ⟨u, hu, heq⟩ := hmem v hv
    rw [heq]
    exact h.serves u hu
  · intro v hv
    obtain ⟨u, hu, heq⟩ := hmem v hv
    rw [heq]
    exact h.sent u hu

/-- The new association with the port that its client came to. -/
theorem Peers.added (h : Peers cf st) {o : Open} {cl : Addr} {ua : Assoc} {sx : Nat}
    (hadded : Added cf o cl (cf.svhost, cf.portOf sx) st st' ua) (hvia : o.viaSocks = none)
    (hudp : o.isUDP = true) :
    Peers cf (st'.modify ua.adr fun u => { u with ua_clsock := cf.csv sx }) := by
  have hmem : ∀ v ∈ (st'.modify ua.adr fun u => { u with ua_clsock := cf.csv sx }).uassocv,
      v = { ua with ua_clsock := cf.csv sx } ∨ v ∈ st.uassocv := by
    intro v hv
    obtain ⟨u, hu, rfl⟩ := List.mem_map.mp hv
    rcases List.mem_cons.mp (hadded.perm.mem_iff.mp hu) with rfl | hold
    · rw [if_pos rfl]
      exact .inl rfl
    · have hne : u.adr ≠ ua.adr := fun heq => hadded.adr (heq ▸ List.mem_map_of_mem hold)
      rw [if_neg hne]
      exact .inr hold
  have hsocks : ((st'.modify ua.adr fun u => { u with ua_clsock := cf.csv sx }).uassocv.map
      Assoc.ua_svsock).Perm (ua.ua_svsock :: st.uassocv.map Assoc.ua_svsock) := by
    have hmap : (st'.modify ua.adr fun u => { u with ua_clsock := cf.csv sx }).uassocv.map
        Assoc.ua_svsock = st'.uassocv.map Assoc.ua_svsock := by
      unfold Relay.modify
      rw [List.map_map]
      congr 1
      funext u
      dsimp only [Function.comp]
      split <;> rfl
    rw [hmap]
    exact hadded.perm.map Assoc.ua_svsock
  obtain ⟨hctl, hfds⟩ := hadded.socks hvia
  obtain ⟨peer, hpeer, hpeers, -⟩ := hadded.peers
  have hlog : st'.log = st.log := by rw [hadded.frame]
  have huaid : st'.uaid = st.uaid + 1 := by rw [hadded.frame]
  have hport : st'.svport = st.svport := by rw [hadded.frame]
  have hother : ∀ v ∈ st.uassocv, v.ua_svsock ≠ ua.ua_svsock :=
    fun v hv heq => hadded.fresh (heq ▸ h.fds v hv)
  refine ⟨fun hmap => hport.trans (h.port hmap), ?_, ?_, ?_, ?_, ?_, ?_, ?_⟩
  · intro v hv
    rcases hmem v hv with rfl | hv
    · exact ⟨hadded.priv, hctl, by rw [hadded.tcp, hudp]; rfl⟩
    · exact h.plain v hv
  · rw [hsocks.nodup_iff, List.nodup_cons]
    refine ⟨fun hin => ?_, h.socks⟩
    obtain ⟨v, hv, heq⟩ := List.mem_map.mp hin
    exact hother v hv heq
  · intro v hv
    change v.ua_svsock ∈ st'.fds
    rw [hfds]
    rcases hmem v hv with rfl | hv
    · exact List.mem_cons_self
    · exact List.mem_cons_of_mem _ (h.fds v hv)
  · intro v hv
    change ∃ sx, v.ua_clsock = cf.csv sx ∧ (st'.peer v.ua_svsock = none ∨
      st'.peer v.ua_svsock = some (cf.svhost, cf.portOf sx))
    rw [hpeers]
    rcases hmem v hv with rfl | hv
    · refine ⟨sx, rfl, ?_⟩
      rw [Function.update_self]
      rcases hpeer with hsome | hsome | hnone
      · exact absurd hvia hsome
      · exact .inr hsome
      · exact .inl hnone.1
    · rw [Function.update_of_ne (hother v hv)]
      exact h.serves v hv
  · intro v hv c sy dst data hin
    change _ ∈ st'.log at hin
    rw [hlog] at hin
    rcases hmem v hv with rfl | hv
    · have hle := h.made c (some sy) _ dst data hin
      have hid := hadded.id
      dsimp only at hle
      omega
    · exact h.sent v hv c sy dst data hin
  · intro c sy id dst data hin
    change id ≤ st'.uaid
    change _ ∈ st'.log at hin
    rw [hlog] at hin
    have := h.made c sy id dst data hin
    omega
  · change Right cf st'.log
    rw [hlog]
    exact h.right

/-! ## Steps -/

theorem Peers.toServ (h : Peers cf st) {ua : Assoc} (hua : ua ∈ st.uassocv)
    (hids : (st.uassocv.map Assoc.ua_id).Nodup) (hid : ua.ua_id ≤ st.uaid) {sx : Nat}
    (hsx : ua.ua_clsock = cf.csv sx) (hport : st.svport = cf.portOf sx) (data : List UInt8)
    (now : Nat) : Peers cf (st.toServ cf ua data ua.ua_cl (some sx) now) := by
  have htouch := (h.touch ua.adr (now % 2 ^ 32)).use (some ua.ua_id)
  obtain ⟨sy, hsy, hpeer⟩ := h.serves ua hua
  have hdst : ∀ a, (if 0 ≤ ua.ua_svSOCKS then some (cf.svhost, st.svport)
      else if ua.ua_svtcp || ua.ua_svbound || cf.UDPRELAY_RPORT_FIX then st.peer ua.ua_svsock
      else some (cf.svhost, st.svport)) = some a → a = (cf.svhost, cf.portOf sx) := by
    intro a ha
    rw [if_neg (by rw [(h.plain ua hua).2.1]; decide)] at ha
    split at ha
    · rcases hpeer with hnone | hsome
      · rw [hnone] at ha
        cases ha
      · rw [hsome] at ha
        cases ha
        rw [portOf_congr (hsy.symm.trans hsx)]
    · cases ha
      rw [hport]
  unfold Relay.toServ
  dsimp only
  generalize (if 0 ≤ ua.ua_svSOCKS then some (cf.svhost, st.svport)
      else if ua.ua_svtcp || ua.ua_svbound || cf.UDPRELAY_RPORT_FIX then st.peer ua.ua_svsock
      else some (cf.svhost, st.svport)) = dst at hdst ⊢
  cases dst with
  | none => exact htouch
  | some a =>
    refine htouch.logged ?_ ?_ ⟨hdst a rfl, htouch.right⟩
    · intro v hv c sz dst' data' heq
      simp only [Event.toServ.injEq, Option.some.injEq] at heq
      obtain ⟨rfl, rfl, hvid, -, -⟩ := heq
      obtain ⟨u, hu, rfl⟩ := List.mem_map.mp hv
      have huid : (if u.adr = ua.adr then { u with ua_mtime := now % 2 ^ 32 } else u).ua_id =
          u.ua_id := by split <;> rfl
      rw [List.inj_on_of_nodup_map hids hu hua (huid.symm.trans hvid.symm), if_pos rfl]
      exact ⟨rfl, hsx⟩
    · intro c sz id dst' data' heq
      cases heq
      exact hid

theorem setPort_svport (h : Peers cf st) (sx : Nat) : (st.setPort cf sx).svport = cf.portOf sx := by
  unfold Relay.setPort Conf.portOf
  by_cases hmap : cf.svportmap ≠ 0
  · rw [if_pos hmap, if_pos hmap]
  · rw [if_neg hmap, if_neg hmap]
    exact h.port (not_not.mp hmap)

theorem Peers.setPort (h : Peers cf st) (sx : Nat) : Peers cf (st.setPort cf sx) := by
  have hport := setPort_svport h sx
  unfold Relay.setPort at hport ⊢
  by_cases hmap : cf.svportmap ≠ 0
  · rw [if_pos hmap] at hport ⊢
    exact ⟨fun hno => absurd hno hmap, h.plain, h.socks, h.fds, h.serves, h.sent, h.made, h.right⟩
  · rw [if_neg hmap]
    exact h

theorem Peers.recvPort (h : Peers cf st) (hinv : Inv cf st) {sx now : Nat} {data : List UInt8}
    {src : Addr} {o : Open} (hsound : Sound cf st (.recvPort data src o now))
    (hplain : Plain (.recvPort data src o now))
    (hown : ∀ ua, findUAbysrc st.uassocv src = some ua → ua.ua_clsock = cf.csv sx)
    (hstep : st.recvPort cf sx data src o now = some st') : Peers cf st' := by
  unfold Relay.recvPort at hstep
  by_cases hdata : data = []
  · rw [if_pos hdata] at hstep
    cases hstep
    exact h.same
  rw [if_neg hdata] at hstep
  have hpeers : Peers cf (st.setPort cf sx).scan := (h.setPort sx).scan
  have hport := setPort_svport h sx
  obtain ⟨port, heq⟩ := setPort_eq cf st sx
  dsimp only at hstep
  rw [heq] at hstep hpeers hport
  have hcore : Core cf ({ st with svport := port } : Relay).scan :=
    ⟨hinv.table.scan, hinv.room, hinv.todo, hinv.once⟩
  cases hfind : findUAbysrc ({ st with svport := port } : Relay).scan.uassocv src with
  | some ua =>
    rw [hfind] at hstep
    cases hstep
    have hua : ua ∈ st.uassocv := List.mem_of_find?_eq_some hfind
    have hcl : ua.ua_cl = src := by simpa using List.find?_some hfind
    have hid := ((hinv.table.live _).mp (List.mem_map_of_mem hua)).2.1
    rw [← hcl]
    exact hpeers.toServ hua hinv.table.ids hid (hown ua hfind) hport data now
  | none =>
    rw [hfind] at hstep
    obtain ⟨hgets, hmax, hspared⟩ := hsound hdata hfind
    cases hnew : ({ st with svport := port } : Relay).scan.newUA cf o src
        (cf.svhost, ({ st with svport := port } : Relay).scan.svport) with
    | none =>
      rw [hnew] at hstep
      cases hstep
    | some x =>
      obtain ⟨s, r⟩ := x
      rw [hnew] at hstep
      rcases hcore.newUA hmax hspared hgets hnew with ⟨rfl, -, rfl⟩ | ⟨ua, t, rfl, hs, -, hadded, ht⟩
      · cases hstep
        exact hpeers
      dsimp only at hstep
      rw [if_neg (not_lt.mpr hadded.nonneg)] at hstep
      cases hstep
      have hbase : Peers cf t := by
        rcases ht with rfl | ⟨rfl, -⟩
        · exact hpeers
        · exact hpeers.pushOut
      have hsvport : s.svport = cf.portOf sx := by
        rw [hadded.frame]
        rcases ht with rfl | ⟨rfl, hne⟩
        · exact hport
        · obtain ⟨e, he⟩ := idlest_some hne
          rw [pushOut_eq he]
          exact hport
      change port = cf.portOf sx at hport
      subst hport
      have hst : Peers cf { (s.use (some ua.ua_id)).modify ua.adr fun u =>
          { u with ua_clsock := cf.csv sx } with update := true } :=
        ((hbase.added hadded hplain.1 hplain.2).use (some ua.ua_id)).same
      have hmod : Core cf (s.modify ua.adr fun u => { u with ua_clsock := cf.csv sx }) :=
        hs.modify ua.adr fun u => ⟨rfl, rfl, rfl⟩
      have hin : { ua with ua_clsock := cf.csv sx } ∈ (s.modify ua.adr fun u =>
          { u with ua_clsock := cf.csv sx }).uassocv :=
        List.mem_map.mpr ⟨ua, hadded.perm.mem_iff.mpr List.mem_cons_self, if_pos rfl⟩
      have hid := ((hmod.table.live _).mp (List.mem_map_of_mem hin)).2.1
      have hsend := hst.toServ hin hmod.table.ids hid rfl hsvport data now
      rw [← hadded.cl]
      exact hsend

theorem owner_eq {uav : List Assoc} (hsocks : (uav.map Assoc.ua_svsock).Nodup) {ua : Assoc}
    (hua : ua ∈ uav) : owner uav ua.ua_svsock = some ua.ua_id := by
  unfold owner
  cases hfind : uav.find? fun u => u.ua_svsock == ua.ua_svsock with
  | none => simpa using List.find?_eq_none.mp hfind ua hua
  | some u =>
    have heq : u.ua_svsock = ua.ua_svsock := by simpa using List.find?_some hfind
    rw [List.inj_on_of_nodup_map hsocks (List.mem_of_find?_eq_some hfind) hua heq]
    rfl

theorem Peers.recvServer (h : Peers cf st) (hinv : Inv cf st) {s : Slot} {rest : List Slot}
    (htodo : st.todoSvs = s :: rest) (data : List UInt8) (src : Addr) (now : Nat) :
    Peers cf ({ st with todoSvs := rest }.recvServer s data src now) := by
  obtain ⟨ua, hua, rfl⟩ := mem_svSlots (hinv.todo s (htodo ▸ List.mem_cons_self))
  have huse : Peers cf (({ st with todoSvs := rest } : Relay).use (some ua.ua_id)) :=
    (h.use (some ua.ua_id)).same
  have howner : owner st.uassocv (ua.slot ua.ua_svsock).sock = some ua.ua_id := owner_eq h.socks hua
  unfold Relay.recvServer
  dsimp only
  rw [show (ua.slot ua.ua_svsock).adr = ua.adr from rfl, hinv.table.deref_eq hua]
  dsimp only
  split
  · rw [(h.plain ua hua).2.2]
    exact huse
  · have htouch := huse.touch ua.adr (now % 2 ^ 32)
    rw [howner]
    refine htouch.logged (fun _ _ _ _ _ _ heq => nomatch heq) (fun _ _ _ _ _ heq => nomatch heq)
      ⟨fun c sx dst data' hin _ => ?_, htouch.right⟩
    exact huse.sent ua hua c sx dst data' hin

/-- What a private client sends is not a datagram of an incoming port. -/
theorem Peers.recvClient (h : Peers cf st) (hinv : Inv cf st) (s : Slot) (data : List UInt8)
    (now : Nat) : Peers cf (st.recvClient cf s data now) := by
  unfold Relay.recvClient
  split
  · unfold Relay.reset
    split
    · exact h
    · exact (h.delUA _).same
  cases hderef : deref st.uassocv s.adr with
  | none => exact h.use _
  | some ua =>
    have hid := ((hinv.table.live _).mp
      (List.mem_map_of_mem (List.mem_of_find?_eq_some hderef))).2.1
    have htouch := ((h.use (some s.id)).touch ua.adr (now % 2 ^ 32)).use (some ua.ua_id)
    dsimp only
    unfold Relay.toServ
    dsimp only
    generalize (if 0 ≤ ua.ua_svSOCKS then some (cf.svhost, (st.use (some s.id)).svport)
      else if ua.ua_svtcp || ua.ua_svbound || cf.UDPRELAY_RPORT_FIX then
        (st.use (some s.id)).peer ua.ua_svsock
      else some (cf.svhost, (st.use (some s.id)).svport)) = dst
    cases dst with
    | none => exact htouch
    | some a =>
      refine htouch.logged (fun _ _ _ _ _ _ heq => nomatch heq) ?_ htouch.right
      intro c sx id dst data' heq
      cases heq
      exact hid

theorem Peers.step {a : Act} (h : Peers cf st) (hinv : Inv cf st) (hudp : ∀ sx, cf.istcp sx = false)
    (hplain : Plain a) (hsound : Sound cf st a) (hown : OwnPort cf st a)
    (hstep : udp.step cf st a = some st') : Peers cf st' := by
  unfold udp.step at hstep
  cases a with
  | poll nready readyv now =>
    dsimp only at hstep
    split at hstep
    · cases hstep
      have hupdated : Peers cf st.updated := by
        unfold Relay.updated
        split
        · exact h.scan.same
        · exact h
      unfold Relay.poll
      split
      · exact hupdated.same
      · split
        · split
          · exact hupdated.same
          · exact (hupdated.killFrom _ 0).same
        · exact hupdated.same
    · cases hstep
  | accept clsk src o =>
    dsimp only at hstep
    split at hstep
    · rw [hudp] at hstep
      cases hstep
    · cases hstep
  | recvPort data src o now =>
    dsimp only at hstep
    split at hstep
    · rename_i sx rest hports
      rw [hudp, if_neg Bool.false_ne_true] at hstep
      have hrest : Inv cf { st with todoPorts := rest } := hinv.same
      have hpeers : Peers cf { st with todoPorts := rest } := h.same
      exact hpeers.recvPort hrest hsound hplain (fun ua hua => hown sx rest ua hports hua) hstep
    · cases hstep
  | recvClient data now =>
    dsimp only at hstep
    split at hstep
    · rename_i s rest hports hcls
      cases hstep
      have hrest : Inv cf { st with todoCls := rest } := hinv.same
      have hpeers : Peers cf { st with todoCls := rest } := h.same
      exact hpeers.recvClient hrest s data now
    · cases hstep
  | recvServer data src now =>
    dsimp only at hstep
    split at hstep
    · rename_i s rest hports hcls hsvs
      cases hstep
      exact h.recvServer hinv hsvs data src now
    · cases hstep
  | control =>
    dsimp only at hstep
    split at hstep
    · rename_i s rest hports hcls hsvs hctls
      cases hstep
      unfold Relay.reset
      split
      · exact h.same
      · have hrest : Peers cf { st with todoCtls := rest } := h.same
        exact (hrest.delUA _).same
    · cases hstep

theorem peers_init (cf : Conf) : Peers cf (init cf) := by
  refine ⟨fun _ => rfl, ?_, List.nodup_nil, ?_, ?_, ?_, ?_, trivial⟩
  · exact fun ua hua => absurd hua List.not_mem_nil
  · exact fun ua hua => absurd hua List.not_mem_nil
  · exact fun ua hua => absurd hua List.not_mem_nil
  · exact fun ua hua => absurd hua List.not_mem_nil
  · exact fun c sx id dst data hin => absurd hin List.not_mem_nil

/-! ## Runs -/

/-- In a run over UDP ports, without SOCKS, where each client keeps to the port of its association
and nothing deleted is used, datagrams and answers go to their peers. -/
theorem right_of_ownPort (cf : Conf) (hudp : ∀ sx, cf.istcp sx = false) (acts : List Act)
    (h : Meets (step cf) (fun st a => Plain a ∧ Sound cf st a ∧ OwnPort cf st a) (init cf) acts) :
    Always (step cf) (fun st => Right cf st.log) (init cf) acts := by
  have hkeep : ∀ st a st', (Inv cf st ∧ Peers cf st) → (Plain a ∧ Sound cf st a ∧ OwnPort cf st a) →
      step cf st a = some st' → Inv cf st' ∧ Peers cf st' := by
    rintro st a st' ⟨hinv, hpeers⟩ ⟨hplain, hsound, hown⟩ hstep
    exact ⟨hinv.step hsound hstep, hpeers.step hinv hudp hplain hsound hown hstep⟩
  exact always_of_meets hkeep (fun st hst => hst.2.right) ⟨inv_init cf, peers_init cf⟩ h

/-- Two ports, mapped to ports of the server. -/
def twoPorts (fix : Bool) : Conf where
  csc := 2
  csv := fun sx => 3 + sx
  istcp := fun _ => false
  sockPort := fun s => 50 + s
  svhost := "server"
  DST_PORT := 0
  svportmap := 1000
  UDPRELAY_MAXASSOC := 32
  UDPRELAY_RPORT_FIX := fix
  IO_TIMEOUT := 600
  SERVER_TIMEOUT := 0

/-- Two clients, each with its port, and an answer for the second one. -/
def onePortEach : List Act :=
  [.poll 1 (· == 0) 1, .recvPort [1] ("a", 1000) { open1 := some 5, calloc := 1 } 1,
    .poll 1 (· == 1) 2, .recvPort [2] ("b", 1000) { open1 := some 6, calloc := 2 } 2,
    .poll 1 (· == 3) 3, .recvServer [3] ("server", 1054) 3]

theorem onePortEach_right :
    (exec (step (twoPorts true)) (init (twoPorts true)) onePortEach).isSome ∧
      Always (step (twoPorts true)) (fun st => Right (twoPorts true) st.log) (init (twoPorts true))
        onePortEach := by
  refine ⟨by decide, right_of_ownPort (twoPorts true) (fun _ => rfl) onePortEach ?_⟩
  intro s1 h1
  obtain rfl := Option.some.inj h1
  refine ⟨⟨trivial, trivial, trivial⟩, ?_⟩
  intro s2 h2
  obtain rfl := Option.some.inj h2
  refine ⟨⟨⟨rfl, rfl⟩, fun _ _ => ⟨?_, fun _ => by decide, ?_⟩, ?_⟩, ?_⟩
  · exact fun h => absurd h.2.2.2.1 (by simp)
  · exact fun _ ua hua s hs => absurd hs List.not_mem_nil
  · exact fun sx rest ua _ hua => absurd (show none = some ua from hua) (by simp)
  intro s3 h3
  obtain rfl := Option.some.inj h3
  refine ⟨⟨trivial, trivial, trivial⟩, ?_⟩
  intro s4 h4
  obtain rfl := Option.some.inj h4
  refine ⟨⟨⟨rfl, rfl⟩, fun _ _ => ⟨?_, fun _ => by decide, ?_⟩, ?_⟩, ?_⟩
  · exact fun h => absurd h.2.2.2.1 (by simp)
  · exact fun _ ua hua s hs => absurd hs List.not_mem_nil
  · exact fun sx rest ua _ hua => absurd (show none = some ua from hua) (by simp)
  intro s5 h5
  refine ⟨⟨trivial, trivial, trivial⟩, ?_⟩
  intro s6 h6
  exact ⟨⟨trivial, trivial, trivial⟩, trivial⟩

/-- A client sends to both ports. -/
def bothPorts : List Act :=
  [.poll 1 (· == 0) 1, .recvPort [1] ("a", 1000) { open1 := some 5, calloc := 1 } 1,
    .poll 1 (· == 1) 2, .recvPort [2] ("a", 1000) {} 2]

/-- Over the connected socket, what is sent to the second port goes to the server of the first one.
Over one that is not connected, what the server of the second port answers is sent from the first
one. -/
theorem port_of_another :
    ¬ Always (step (twoPorts true)) (fun st => Right (twoPorts true) st.log) (init (twoPorts true))
        bothPorts ∧
      ¬ Always (step (twoPorts false)) (fun st => Right (twoPorts false) st.log)
        (init (twoPorts false))
        (bothPorts ++ [.poll 1 (· == 2) 3, .recvServer [3] ("server", 1054) 3]) := by
  refine ⟨fun h => ?_, fun h => ?_⟩
  · obtain ⟨st, hexec, hlog⟩ : ∃ st, exec (step (twoPorts true)) (init (twoPorts true)) bothPorts =
        some st ∧ ¬ Right (twoPorts true) st.log :=
      ⟨_, rfl, fun hright => absurd hright.1 (by decide)⟩
    exact hlog (h.exec hexec)
  · obtain ⟨st, hexec, hlog⟩ : ∃ st, exec (step (twoPorts false)) (init (twoPorts false))
        (bothPorts ++ [.poll 1 (· == 2) 3, .recvServer [3] ("server", 1054) 3]) = some st ∧
          ¬ Right (twoPorts false) st.log :=
      ⟨_, rfl, fun hright =>
        absurd (hright.1 ("a", 1000) 1 ("server", 1054) [2] (by decide) (by decide)).2 (by decide)⟩
    exact hlog (h.exec hexec)

end delegate.udp
