-- The repeated queries of service_domain1 in domain.cpp. The query and the length
-- of its reply are remembered, but the reply itself stays in the buffer of all
-- searches. A repeated query gets its own reply as long as no search since then
-- has changed it there.
import Delegate.Runs

open runs

namespace delegate.dnsrepeat

/-! ## The pure model -/

abbrev Bytes := List UInt8

abbrev Addr := String × Nat

/-- What `RES_DNSSEARCH` does: its value, the buffer after it, if the result depends on the client,
and the time when it is done. -/
structure Search where
  occ : Int
  ob : Bytes
  client_dependent : Bool
  done : Int

/-- The bytes that a search has produced. -/
def Search.reply (r : Search) : Bytes := r.ob.take r.occ.toNat

/-- The result is remembered. -/
def Search.remembered (r : Search) : Bool := !r.client_dependent && decide (0 < r.occ)

/-- A search for a query of a client, and a reply that is sent to a client. -/
inductive Event
  | search (q : Bytes) (client : Addr) (r : Search)
  | sent (q : Bytes) (client : Addr) (start : Int) (reply : Bytes)

/-- The variables of `service_domain1`. `kept` says that no search since the remembered one has
changed its reply in `ob`. -/
structure State where
  ob : Bytes
  prevq : Bytes
  prevqlen : Nat
  prevrlen : Int
  prevTime : Int
  kept : Bool
  log : List Event

/-- A query with what the calls for it return; times are in microseconds. -/
structure Query where
  ib : Bytes
  client : Addr
  permitted : Bool := true
  start : Int
  search : Search
  sent : Bool := true

/-- The time for which a reply is remembered. -/
def expiration : Int := 10000000

/-- Nothing was received, or it is from a client that is not served. -/
def Query.ignored (x : Query) : Prop :=
  x.ib = [] ∨ x.client.1 = "0.0.0.0" ∨ x.permitted = false

instance (x : Query) : Decidable x.ignored := inferInstanceAs (Decidable (_ ∨ _))

/-- The query is the remembered one. -/
def State.repeats (st : State) (x : Query) : Prop :=
  x.ib.length = st.prevqlen ∧ st.prevq.take x.ib.length = x.ib ∧
    x.start - st.prevTime < expiration

instance (st : State) (x : Query) : Decidable (st.repeats x) := inferInstanceAs (Decidable (_ ∧ _))

/-- The query is searched. -/
def State.searched (st : State) (x : Query) : State :=
  let st' := { st with ob := x.search.ob, log := .search x.ib x.client x.search :: st.log }
  if x.search.remembered then
    { st' with
      prevTime := x.search.done
      prevq := x.ib ++ st.prevq.drop x.ib.length
      prevqlen := x.ib.length
      prevrlen := x.search.occ
      kept := true }
  else
    { st' with
      kept := st.kept && x.search.ob.take st.prevrlen.toNat == st.ob.take st.prevrlen.toNat }

/-- `SendTo`; if it fails, the query is forgotten. -/
def State.send (st : State) (x : Query) (occ : Int) : State :=
  if 0 < occ then
    { st with
      log := .sent x.ib x.client x.start (st.ob.take occ.toNat) :: st.log
      prevqlen := if x.sent then st.prevqlen else 0 }
  else st

/-- One turn of the loop. -/
def step (st : State) (x : Query) : Option State :=
  if x.ignored then some st
  else if st.repeats x then some (st.send x st.prevrlen)
  else some ((st.searched x).send x x.search.occ)

/-- The buffers have anything in them at first, and nothing is remembered. -/
def init (ob prevq : Bytes) (prevrlen prevTime : Int) : State :=
  ⟨ob, prevq, 0, prevrlen, prevTime, false, []⟩

/-! ## Own replies -/

/-- Every reply was produced for this very query, or for one with its bytes less than 10 seconds
before and for all clients. -/
def Own : List Event → Prop
  | [] => True
  | .search _ _ _ :: l => Own l
  | .sent q client start reply :: l =>
      ((∃ r l', l = .search q client r :: l' ∧ reply = r.reply) ∨
        ∃ client' r, .search q client' r ∈ l ∧ r.client_dependent = false ∧ reply = r.reply ∧
          start - r.done < expiration) ∧ Own l

/-- No search has changed the reply that is sent again. -/
def Kept (st : State) (x : Query) : Prop := ¬ x.ignored → st.repeats x → st.kept = true

/-- What is remembered is a search, and its reply is in the buffer if it was kept. -/
structure Inv (st : State) : Prop where
  own : Own st.log
  mem : st.prevqlen = 0 ∨ ∃ client r,
    .search (st.prevq.take st.prevqlen) client r ∈ st.log ∧ r.client_dependent = false ∧
      r.occ = st.prevrlen ∧ r.done = st.prevTime ∧
      (st.kept = true → st.ob.take st.prevrlen.toNat = r.reply)

theorem Inv.send {st : State} (h : Inv st) (x : Query) (occ : Int)
    (hown : 0 < occ → Own (.sent x.ib x.client x.start (st.ob.take occ.toNat) :: st.log)) :
    Inv (st.send x occ) := by
  unfold State.send
  by_cases hpos : 0 < occ
  · rw [if_pos hpos]
    refine ⟨hown hpos, ?_⟩
    cases x.sent with
    | false => exact .inl rfl
    | true =>
      rcases h.mem with hzero | ⟨client, r, hsearch, hrest⟩
      · exact .inl hzero
      · exact .inr ⟨client, r, List.mem_cons_of_mem _ hsearch, hrest⟩
  · rw [if_neg hpos]
    exact h

theorem Inv.searched {st : State} (h : Inv st) (x : Query) : Inv (st.searched x) := by
  unfold State.searched
  dsimp only
  split
  · rename_i hrem
    unfold Search.remembered at hrem
    simp only [Bool.and_eq_true, Bool.not_eq_true'] at hrem
    refine ⟨h.own, .inr ⟨x.client, x.search, ?_, hrem.1, rfl, rfl, fun _ => rfl⟩⟩
    dsimp only
    rw [List.take_left]
    exact List.mem_cons_self
  · refine ⟨h.own, ?_⟩
    rcases h.mem with hzero | ⟨client, r, hsearch, hdep, hocc, hdone, hkept⟩
    · exact .inl hzero
    · refine .inr ⟨client, r, List.mem_cons_of_mem _ hsearch, hdep, hocc, hdone, ?_⟩
      intro hyes
      simp only [Bool.and_eq_true, beq_iff_eq] at hyes
      dsimp only
      rw [hyes.2]
      exact hkept hyes.1

theorem ob_searched (st : State) (x : Query) : (st.searched x).ob = x.search.ob := by
  unfold State.searched
  dsimp only
  split <;> rfl

theorem log_searched (st : State) (x : Query) :
    (st.searched x).log = .search x.ib x.client x.search :: st.log := by
  unfold State.searched
  dsimp only
  split <;> rfl

theorem Inv.step {st st' : State} {x : Query} (h : Inv st) (hkept : Kept st x)
    (hstep : dnsrepeat.step st x = some st') : Inv st' := by
  unfold dnsrepeat.step at hstep
  split at hstep
  · cases hstep
    exact h
  rename_i hgot
  split at hstep
  · rename_i hrep
    cases hstep
    apply h.send
    intro hpos
    refine ⟨.inr ?_, h.own⟩
    have hkept := hkept hgot hrep
    obtain ⟨hlen, hbytes, htime⟩ := hrep
    rcases h.mem with hzero | ⟨client, r, hsearch, hdep, hocc, hdone, hreply⟩
    · exact absurd (List.length_eq_zero_iff.mp (hlen.trans hzero)) (not_or.mp hgot).1
    · rw [← hlen, hbytes] at hsearch
      refine ⟨client, r, hsearch, hdep, hreply hkept, ?_⟩
      rw [hdone]
      exact htime
  · cases hstep
    have hsearched := h.searched x
    apply hsearched.send
    intro _
    refine ⟨.inl ⟨x.search, st.log, log_searched st x, ?_⟩, hsearched.own⟩
    rw [ob_searched]
    rfl

/-- In a run where no repeated query comes after a search that has changed the remembered reply, each
reply is that of its query. -/
theorem own_of_kept (ob prevq : Bytes) (prevrlen prevTime : Int) (queries : List Query)
    (h : Meets step Kept (init ob prevq prevrlen prevTime) queries) :
    Always step (fun st => Own st.log) (init ob prevq prevrlen prevTime) queries := by
  apply always_of_meets _ _ _ h
  · exact Inv
  · exact fun st x st' hinv hkept hstep => hinv.step hkept hstep
  · exact fun st hinv => hinv.own
  · exact ⟨trivial, .inl rfl⟩

/-- The query 1 of any client is answered with 11, for all clients. -/
def asks1 (host : String) (start : Int) : Query :=
  ⟨[1], (host, 1000), true, start, ⟨1, [11], false, start⟩, true⟩

/-- The query 2 is answered with 22 for its client only. -/
def asks2 (host : String) (start : Int) : Query :=
  ⟨[2], (host, 1000), true, start, ⟨1, [22], true, start⟩, true⟩

theorem repeated_own :
    (exec step (init [] [] 0 0) [asks1 "a" 0, asks1 "b" 5000000]).isSome ∧
      Always step (fun st => Own st.log) (init [] [] 0 0) [asks1 "a" 0, asks1 "b" 5000000] := by
  refine ⟨by decide, own_of_kept [] [] 0 0 _ ?_⟩
  intro s1 h1
  obtain rfl := Option.some.inj h1
  refine ⟨fun _ hrep => absurd hrep.1 (by decide), ?_⟩
  intro s2 h2
  exact ⟨fun _ _ => rfl, trivial⟩

/-- What was answered for the client b only is sent to the client c, for another query. -/
theorem reply_of_another :
    ¬ Always step (fun st => Own st.log) (init [] [] 0 0)
      [asks1 "a" 0, asks2 "b" 1000000, asks1 "c" 2000000] := by
  intro h
  obtain ⟨st, hexec, hown⟩ : ∃ st, exec step (init [] [] 0 0)
      [asks1 "a" 0, asks2 "b" 1000000, asks1 "c" 2000000] = some st ∧ ¬ Own st.log := by
    refine ⟨_, rfl, fun hown => ?_⟩
    rcases hown.1 with ⟨r, l, heq, -⟩ | ⟨client, r, hmem, -, hreply, -⟩
    · exact absurd (List.cons.inj heq).1 (by simp)
    · have hmem : Event.search [1] client r ∈ [.sent [2] ("b", 1000) 1000000 [22],
          .search [2] ("b", 1000) (asks2 "b" 1000000).search, .sent [1] ("a", 1000) 0 [11],
          .search [1] ("a", 1000) (asks1 "a" 0).search] := hmem
      have hr : client = ("a", 1000) ∧ r = (asks1 "a" 0).search := by simpa using hmem
      rw [hr.2] at hreply
      exact absurd hreply (by decide)
  exact hown (h.exec hexec)

end delegate.dnsrepeat
