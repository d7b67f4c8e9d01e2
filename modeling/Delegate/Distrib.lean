-- The distribution of a cache file to parallel receivers in distrib.cpp. A
-- receiver that is in step gets the new bytes from the buffer, one that is behind
-- gets them from the file, and both routes count in one offset. Every receiver
-- has a beginning of the file, as long as there are at most 64 of them and the
-- file is shorter than 2^31 bytes.
import Delegate.Runs

open runs

namespace delegate.distrib

/-! ## The pure model -/

/-- The value of an `int`. -/
def wrap (z : Int) : Int := Int.bmod z (2 ^ 32)

/-- The value of a `short`. -/
def short (z : Int) : Int := Int.bmod z (2 ^ 16)

/-- An element of `ca_receptors` and `ca_putoff`, with the socket that was accepted and the bytes
that it has got after the greeting. -/
structure Rcpt where
  rsock : Int
  receptor : Int
  putoff : Int
  got : List UInt8
  deriving DecidableEq

/-- Bytes that are written arrive if the descriptor is that of the receiver. -/
def Rcpt.put (r : Rcpt) (bytes : List UInt8) : Rcpt :=
  { r with got := if r.receptor = r.rsock then r.got ++ bytes else r.got }

/-- `stores` are the indices at which `accept2` has stored. -/
structure Dist where
  file : List UInt8 := []
  distsock_open : Bool := true
  curoff : Int := 0
  receptors : List Rcpt := []
  stores : List Nat := []

/-- The loop of `copy1`, with what `fread` and `write` return for each block: the bytes that are
counted, and those that are written. -/
def copyBlocks : List (Nat × Int) → List UInt8 → Int × List UInt8
  | [], _ => (0, [])
  | (rcc, wcc) :: outs, data =>
    let block := data.take (min 4096 rcc)
    if block = [] then (0, [])
    else
      let wcc1 := min wcc block.length
      let wcc' := if 0 < wcc1 then wcc1 else 0
      if wcc1 ≠ block.length then (wcc', block.take wcc1.toNat)
      else
        let rest := copyBlocks outs (data.drop block.length)
        (wcc' + rest.1, block.take wcc1.toNat ++ rest.2)

/-- From an offset to the end of the file, where its position is. -/
def copy1 (file : List UInt8) (start : Int) (outs : List (Nat × Int)) : Int × List UInt8 :=
  let leng := wrap (wrap file.length - start)
  copyBlocks outs ((file.drop start.toNat).take leng.toNat)

/-- What the calls for one receiver return in a turn of `flushDistribution`. -/
structure FlushOut where
  outs : List (Nat × Int) := []
  sigPIPE : Bool := false
  connected : Bool := true

def flush1 (file : List UInt8) (curoff : Int) (o : FlushOut) (r : Rcpt) : Rcpt :=
  if r.putoff = curoff then r
  else if r.putoff < 0 then r
  else
    let c := copy1 file r.putoff o.outs
    let r' := r.put c.2
    if 0 < c.1 then { r' with putoff := wrap (r.putoff + c.1) }
    else if o.sigPIPE then { r' with putoff := if 0 < r.putoff then -r.putoff else -1 }
    else if !o.connected then { r' with putoff := if 0 < r.putoff then -r.putoff else -2 }
    else r'

def Dist.flush (st : Dist) (o : Nat → FlushOut) : Dist :=
  { st with receptors := st.receptors.mapIdx fun rx r => flush1 st.file st.curoff (o rx) r }

/-- At the end, the receivers that have all or are lost are closed. -/
def close1 (curoff : Int) (r : Rcpt) : Rcpt :=
  if r.putoff = curoff ∨ r.putoff < 0 then { r with receptor := -1 } else r

/-- A turn of `flushDistribution` at the end. -/
def Dist.lastTurn (st : Dist) (o : Nat → FlushOut) : Dist :=
  { st.flush o with receptors := (st.flush o).receptors.map (close1 st.curoff) }

def Dist.stop (st : Dist) (turns : List (Nat → FlushOut)) : Dist :=
  if st.distsock_open then { turns.foldl Dist.lastTurn st with distsock_open := false } else st

def distrib1 (curoff : Int) (buff : List UInt8) (wcc : Int) (r : Rcpt) : Rcpt :=
  if r.putoff ≠ curoff then r
  else
    let wcc' := min wcc buff.length
    if 0 < wcc' then { r.put (buff.take wcc'.toNat) with putoff := wrap (r.putoff + wcc') } else r

def Dist.accept2 (st : Dist) (rsock putoff : Int) (got : List UInt8) : Dist :=
  { st with
    receptors := st.receptors ++ [⟨rsock, short rsock, putoff, got⟩]
    stores := st.receptors.length :: st.stores }

/-- The greeting is not counted. -/
def Dist.accept1 (st : Dist) (rsock : Int) (outs : List (Nat × Int)) : Dist :=
  if rsock < 0 then st
  else
    let c := copy1 st.file 0 outs
    st.accept2 rsock c.1 c.2

/-- A new receiver: its socket, what `copy1` meets there, and the socket to the process that goes on
with the client if there was no receiver before. -/
structure Arrival where
  rsock : Int
  outs : List (Nat × Int) := []
  sio : Int := 0

/-- What the calls of `sendDistribution` return. -/
structure SendEnv where
  actthreads : Bool := false
  writes : Nat → Int := fun _ => -1
  ready : Bool := false
  flushes : Nat → FlushOut := fun _ => {}
  early : Bool := false
  arrival : Option Arrival := none

/-- `sendDistribution` returns before the receivers that are behind catch up. -/
def skips (off curoff : Int) (ready : Bool) : Bool :=
  off == 0 || (ready && Int.tdiv off 1024 == Int.tdiv curoff 1024)

/-- The chunk has been appended to the file. The client itself, which has got the file so far from
this process, is the first receiver. `INHERENT_fork` is taken as true. -/
def Dist.send (st : Dist) (chunk : List UInt8) (e : SendEnv) : Dist :=
  let file := st.file ++ chunk
  if !st.distsock_open then { st with file := file }
  else if e.actthreads then { st with file := file, distsock_open := false }
  else
    let st1 : Dist :=
      { st with
        file := file
        curoff := wrap (st.curoff + chunk.length)
        receptors := st.receptors.mapIdx fun rx r => distrib1 st.curoff chunk (e.writes rx) r }
    if skips st.curoff st1.curoff e.ready then st1
    else
      let st2 := st1.flush e.flushes
      if e.early then st2
      else
        match e.arrival with
        | none => st2
        | some a =>
          let st3 := if st2.receptors = [] then st2.accept2 a.sio (wrap file.length) file else st2
          st3.accept1 a.rsock a.outs

inductive Act
  | send (chunk : List UInt8) (e : SendEnv)
  | stop (turns : List (Nat → FlushOut))

def step (st : Dist) : Act → Option Dist
  | .send chunk e => some (st.send chunk e)
  | .stop turns => some (st.stop turns)

/-! ## What receivers have -/

/-- The receiver has got the first bytes of the file, up to its offset. A receiver that was lost
before its first byte has a mark. -/
def HasGot (file : List UInt8) (r : Rcpt) : Prop :=
  (r.putoff.natAbs ≤ file.length ∧ r.got = file.take r.putoff.natAbs) ∨
    ((r.putoff = -1 ∨ r.putoff = -2) ∧ r.got = [])

structure Delivered (st : Dist) : Prop where
  got : ∀ r ∈ st.receptors, HasGot st.file r
  all : ∀ r ∈ st.receptors, r.putoff = st.curoff → r.got = st.file
  stores : ∀ rx ∈ st.stores, rx < 64

/-- The file is short, the distribution does not stop while there are receivers, there is a place for
each receiver, and descriptors fit a `short`. -/
def Sound (st : Dist) : Act → Prop
  | .send chunk e =>
      st.file.length + chunk.length < 2 ^ 31 ∧
      (st.receptors = [] ∨ (st.distsock_open = true ∧ e.actthreads = false)) ∧
      (skips st.curoff (wrap (st.curoff + chunk.length)) e.ready = false → e.early = false →
        ∀ a, e.arrival = some a →
          (st.receptors = [] → short a.sio = a.sio) ∧
          (0 ≤ a.rsock → st.receptors.length < 64 ∧ short a.rsock = a.rsock))
  | .stop _ => True

theorem wrap_eq {z : Int} (h : 0 ≤ z) (h' : z < 2 ^ 31) : wrap z = z := by
  unfold wrap
  apply Int.bmod_eq_of_le <;> omega

/-- What is counted is written, from the first byte on. -/
theorem copyBlocks_spec (outs : List (Nat × Int)) (data : List UInt8) :
    (copyBlocks outs data).1 = (copyBlocks outs data).2.length ∧
      (copyBlocks outs data).2 <+: data := by
  induction outs generalizing data with
  | nil => exact ⟨rfl, List.nil_prefix⟩
  | cons out outs ih =>
    obtain ⟨rcc, wcc⟩ := out
    unfold copyBlocks
    dsimp only
    have hblock : data.take (min 4096 rcc) <+: data := List.take_prefix _ _
    generalize data.take (min 4096 rcc) = block at hblock ⊢
    split
    · exact ⟨rfl, List.nil_prefix⟩
    obtain ⟨tail, rfl⟩ := hblock
    have hcount : (if 0 < min wcc (block.length : Int) then min wcc (block.length : Int) else 0) =
        (block.take (min wcc (block.length : Int)).toNat).length := by
      rw [List.length_take]
      split <;> omega
    split
    · have htake : block.take (min wcc (block.length : Int)).toNat <+: block := List.take_prefix _ _
      exact ⟨hcount, htake.trans (List.prefix_append _ _)⟩
    · rename_i hall
      have hall : min wcc (block.length : Int) = block.length := not_not.mp hall
      obtain ⟨hlen, hpre⟩ := ih ((block ++ tail).drop block.length)
      rw [List.drop_left] at hlen hpre ⊢
      constructor
      · rw [hcount, hlen, List.length_append]
        push_cast
        rfl
      · rw [hall, Int.toNat_natCast, List.take_length]
        exact (List.prefix_append_right_inj block).mpr hpre

/-- `copy1` goes on where the offset is. -/
theorem copy1_spec {file : List UInt8} (hlen : file.length < 2 ^ 31) {start : Int} (h0 : 0 ≤ start)
    (hle : start ≤ file.length) (outs : List (Nat × Int)) :
    (copy1 file start outs).1 = (copy1 file start outs).2.length ∧
      start + (copy1 file start outs).1 ≤ file.length ∧
      file.take start.toNat ++ (copy1 file start outs).2 =
        file.take (start + (copy1 file start outs).1).toNat := by
  unfold copy1
  dsimp only
  have hsavoff : wrap file.length = file.length := wrap_eq (by omega) (by omega)
  rw [hsavoff, wrap_eq (by omega) (by omega)]
  have hdata : (file.drop start.toNat).take ((file.length : Int) - start).toNat =
      file.drop start.toNat := by
    apply List.take_of_length_le
    rw [List.length_drop]
    omega
  rw [hdata]
  obtain ⟨hcount, hpre⟩ := copyBlocks_spec outs (file.drop start.toNat)
  generalize copyBlocks outs (file.drop start.toNat) = c at hcount hpre ⊢
  have hshort := hpre.length_le
  rw [List.length_drop] at hshort
  refine ⟨hcount, by omega, ?_⟩
  have hsum : (start + c.1).toNat = start.toNat + c.2.length := by omega
  rw [hsum, List.take_add, ← List.prefix_iff_eq_take.mp hpre]

/-- An offset that counts is one of the file. -/
theorem HasGot.active {file : List UInt8} {r : Rcpt} (h : HasGot file r) (h0 : 0 ≤ r.putoff) :
    r.putoff ≤ file.length ∧ r.got = file.take r.putoff.toNat := by
  have habs : r.putoff.natAbs = r.putoff.toNat := by omega
  rcases h with ⟨hle, hgot⟩ | ⟨hmark, -⟩
  · rw [habs] at hgot
    exact ⟨by omega, hgot⟩
  · omega

theorem HasGot.of_active {file : List UInt8} {r : Rcpt} (h0 : 0 ≤ r.putoff)
    (hle : r.putoff ≤ file.length) (hgot : r.got = file.take r.putoff.toNat) : HasGot file r := by
  have habs : r.putoff.natAbs = r.putoff.toNat := by omega
  exact .inl ⟨by omega, by rw [habs]; exact hgot⟩

/-- The file grows behind what a receiver has. -/
theorem HasGot.grow {file chunk : List UInt8} {r : Rcpt} (h : HasGot file r) :
    HasGot (file ++ chunk) r := by
  rcases h with ⟨hle, hgot⟩ | hmark
  · refine .inl ⟨by rw [List.length_append]; omega, ?_⟩
    rw [List.take_append_of_le_length hle]
    exact hgot
  · exact .inr hmark

/-- A receiver whose offset is turned into a mark. -/
theorem HasGot.lost {file : List UInt8} {r : Rcpt} (h : HasGot file r) (h0 : 0 ≤ r.putoff)
    {mark : Int} (hmark : mark = -1 ∨ mark = -2) :
    HasGot file { r with putoff := if 0 < r.putoff then -r.putoff else mark } := by
  obtain ⟨hle, hgot⟩ := h.active h0
  by_cases hpos : 0 < r.putoff
  · rw [if_pos hpos]
    have habs : (-r.putoff).natAbs = r.putoff.toNat := by omega
    exact .inl ⟨by dsimp only; omega, by dsimp only; rw [habs]; exact hgot⟩
  · rw [if_neg hpos]
    have hzero : r.putoff.toNat = 0 := by omega
    rw [hzero, List.take_zero] at hgot
    exact .inr ⟨hmark, hgot⟩

theorem put_got {r : Rcpt} (h : r.receptor = r.rsock) (bytes : List UInt8) :
    (r.put bytes).got = r.got ++ bytes := if_pos h

theorem hasGot_flush1 {file : List UInt8} (hlen : file.length < 2 ^ 31) {curoff : Int} {r : Rcpt}
    (h : HasGot file r) (hlinked : r.receptor = r.rsock ∨ r.putoff = curoff ∨ r.putoff < 0)
    (o : FlushOut) : HasGot file (flush1 file curoff o r) := by
  unfold flush1
  by_cases hstep : r.putoff = curoff
  · rw [if_pos hstep]
    exact h
  rw [if_neg hstep]
  by_cases hneg : r.putoff < 0
  · rw [if_pos hneg]
    exact h
  rw [if_neg hneg]
  have hlink : r.receptor = r.rsock := by
    rcases hlinked with hlink | hoff | hneg'
    · exact hlink
    · exact absurd hoff hstep
    · exact absurd hneg' hneg
  obtain ⟨hle, hgot⟩ := h.active (not_lt.mp hneg)
  obtain ⟨hcount, hend, htake⟩ := copy1_spec hlen (not_lt.mp hneg) hle o.outs
  dsimp only
  generalize copy1 file r.putoff o.outs = c at hcount hend htake ⊢
  split
  · rename_i hpos
    apply HasGot.of_active
    · dsimp only
      rw [wrap_eq (by omega) (by omega)]
      omega
    · dsimp only
      rw [wrap_eq (by omega) (by omega)]
      omega
    · dsimp only
      rw [wrap_eq (by omega) (by omega), put_got hlink, hgot]
      exact htake
  · rename_i hnone
    -- nothing was counted, so nothing was written
    have hnil : c.2 = [] := List.length_eq_zero_iff.mp (by omega)
    have hsame : r.put c.2 = r := by
      unfold Rcpt.put
      rw [hnil, if_pos hlink, List.append_nil]
    rw [hsame]
    split
    · exact h.lost (not_lt.mp hneg) (.inl rfl)
    split
    · exact h.lost (not_lt.mp hneg) (.inr rfl)
    · exact h

theorem linked_flush1 (file : List UInt8) (curoff : Int) (o : FlushOut) (r : Rcpt) :
    (flush1 file curoff o r).receptor = r.receptor ∧ (flush1 file curoff o r).rsock = r.rsock := by
  unfold flush1
  split
  · exact ⟨rfl, rfl⟩
  split
  · exact ⟨rfl, rfl⟩
  dsimp only
  split
  · exact ⟨rfl, rfl⟩
  split
  · exact ⟨rfl, rfl⟩
  split <;> exact ⟨rfl, rfl⟩

/-- A receiver that is in step gets bytes of the chunk, any other one gets none. -/
theorem hasGot_distrib1 {file chunk : List UInt8} (hlen : file.length + chunk.length < 2 ^ 31)
    {r : Rcpt} (h : HasGot file r) (hlink : r.receptor = r.rsock) (wcc : Int) :
    HasGot (file ++ chunk) (distrib1 file.length chunk wcc r) := by
  unfold distrib1
  by_cases hoff : r.putoff = file.length
  · rw [if_neg (not_not.mpr hoff)]
    obtain ⟨-, hgot⟩ := h.active (by omega)
    rw [hoff, Int.toNat_natCast, List.take_length] at hgot
    dsimp only
    split
    · rename_i hpos
      have hwrap : wrap (r.putoff + min wcc (chunk.length : Int)) =
          (file.length : Int) + min wcc (chunk.length : Int) := by
        rw [hoff]
        exact wrap_eq (by omega) (by omega)
      apply HasGot.of_active
      · dsimp only
        omega
      · dsimp only
        rw [hwrap, List.length_append]
        omega
      · dsimp only
        rw [hwrap, put_got hlink, hgot]
        have hsum : ((file.length : Int) + min wcc (chunk.length : Int)).toNat =
            file.length + (min wcc (chunk.length : Int)).toNat := by omega
        rw [hsum, List.take_length_add_append]
    · exact h.grow
  · rw [if_pos hoff]
    exact h.grow

theorem linked_distrib1 (curoff : Int) (buff : List UInt8) (wcc : Int) (r : Rcpt) :
    (distrib1 curoff buff wcc r).receptor = r.receptor ∧
      (distrib1 curoff buff wcc r).rsock = r.rsock := by
  unfold distrib1
  split
  · exact ⟨rfl, rfl⟩
  dsimp only
  split <;> exact ⟨rfl, rfl⟩

/-! ## Steps -/

/-- Offsets are those of the file, and what is written arrives. -/
structure Inv (st : Dist) : Prop where
  len : st.file.length < 2 ^ 31
  off : st.distsock_open = true ∨ st.receptors ≠ [] → st.curoff = st.file.length
  got : ∀ r ∈ st.receptors, HasGot st.file r
  linked : st.distsock_open = true → ∀ r ∈ st.receptors, r.receptor = r.rsock
  stores : ∀ rx ∈ st.stores, rx < 64

theorem Inv.delivered {st : Dist} (h : Inv st) : Delivered st := by
  refine ⟨h.got, ?_, h.stores⟩
  intro r hr hoff
  rw [h.off (.inr (List.ne_nil_of_mem hr))] at hoff
  obtain ⟨-, hgot⟩ := (h.got r hr).active (by omega)
  rw [hgot, hoff, Int.toNat_natCast, List.take_length]

theorem mem_mapIdx_cases {α β : Type} {f : Nat → α → β} {l : List α} {b : β}
    (h : b ∈ l.mapIdx f) : ∃ i a, a ∈ l ∧ b = f i a := by
  obtain ⟨i, hi, rfl⟩ := List.mem_mapIdx.mp h
  exact ⟨i, l[i], List.getElem_mem hi, rfl⟩

theorem Inv.flush {st : Dist} (h : Inv st) (hopen : st.distsock_open = true)
    (o : Nat → FlushOut) : Inv (st.flush o) := by
  refine ⟨h.len, fun _ => h.off (.inl hopen), ?_, ?_, h.stores⟩
  · intro r hr
    obtain ⟨rx, q, hq, rfl⟩ := mem_mapIdx_cases hr
    exact hasGot_flush1 h.len (h.got q hq) (.inl (h.linked hopen q hq)) (o rx)
  · intro _ r hr
    obtain ⟨rx, q, hq, rfl⟩ := mem_mapIdx_cases hr
    obtain ⟨hrec, hsock⟩ := linked_flush1 st.file st.curoff (o rx) q
    rw [hrec, hsock]
    exact h.linked hopen q hq

theorem Inv.accept2 {st : Dist} (h : Inv st) (hopen : st.distsock_open = true) {rsock putoff : Int}
    {got : List UInt8} (hroom : st.receptors.length < 64) (hsock : short rsock = rsock)
    (hgot : HasGot st.file ⟨rsock, short rsock, putoff, got⟩) :
    Inv (st.accept2 rsock putoff got) := by
  refine ⟨h.len, fun _ => h.off (.inl hopen), ?_, ?_, ?_⟩
  · intro r hr
    rcases List.mem_append.mp hr with hr | hr
    · exact h.got r hr
    · rw [List.mem_singleton.mp hr]
      exact hgot
  · intro _ r hr
    rcases List.mem_append.mp hr with hr | hr
    · exact h.linked hopen r hr
    · rw [List.mem_singleton.mp hr]
      exact hsock
  · intro rx hrx
    rcases List.mem_cons.mp hrx with rfl | hrx
    · exact hroom
    · exact h.stores rx hrx

theorem Inv.accept1 {st : Dist} (h : Inv st) (hopen : st.distsock_open = true) {rsock : Int}
    (hroom : 0 ≤ rsock → st.receptors.length < 64 ∧ short rsock = rsock)
    (outs : List (Nat × Int)) : Inv (st.accept1 rsock outs) := by
  unfold Dist.accept1
  by_cases hneg : rsock < 0
  · rw [if_pos hneg]
    exact h
  rw [if_neg hneg]
  obtain ⟨hlt, hsock⟩ := hroom (not_lt.mp hneg)
  obtain ⟨hcount, hend, htake⟩ := copy1_spec h.len (le_refl 0) (Int.natCast_nonneg _) outs
  apply h.accept2 hopen hlt hsock
  apply HasGot.of_active
  · dsimp only
    omega
  · dsimp only
    omega
  · simpa using htake

theorem Inv.send {st : Dist} (h : Inv st) {chunk : List UInt8} {e : SendEnv}
    (hsound : Sound st (.send chunk e)) : Inv (st.send chunk e) := by
  obtain ⟨hlen, hgoes, harrive⟩ := hsound
  have hlen' : (st.file ++ chunk).length < 2 ^ 31 := by
    rw [List.length_append]
    exact hlen
  unfold Dist.send
  dsimp only
  by_cases hopen : st.distsock_open = true
  swap
  · have hnone : st.receptors = [] := hgoes.resolve_right fun hyes => hopen hyes.1
    rw [if_pos (by simpa using hopen)]
    refine ⟨hlen', ?_, fun r hr => (h.got r hr).grow, h.linked, h.stores⟩
    rintro (hyes | hsome)
    · exact absurd hyes hopen
    · exact absurd hnone hsome
  rw [if_neg (by simpa using hopen)]
  have hoff := h.off (.inl hopen)
  by_cases hact : e.actthreads = true
  · have hnone : st.receptors = [] := hgoes.resolve_right fun hno => by simp [hact] at hno
    rw [if_pos hact]
    refine ⟨hlen', ?_, fun r hr => (h.got r hr).grow, ?_, h.stores⟩
    · rintro (hyes | hsome)
      · cases hyes
      · exact absurd hnone hsome
    · intro hyes
      cases hyes
  rw [if_neg hact]
  have hwrap : wrap (st.curoff + chunk.length) = (st.file ++ chunk).length := by
    rw [hoff, List.length_append, wrap_eq (by omega) (by omega)]
    push_cast
    rfl
  have hdist : Inv { st with
      file := st.file ++ chunk
      curoff := wrap (st.curoff + chunk.length)
      receptors := st.receptors.mapIdx fun rx r => distrib1 st.curoff chunk (e.writes rx) r } := by
    refine ⟨hlen', fun _ => hwrap, ?_, ?_, h.stores⟩
    · intro r hr
      obtain ⟨rx, q, hq, rfl⟩ := mem_mapIdx_cases hr
      rw [hoff]
      exact hasGot_distrib1 hlen (h.got q hq) (h.linked hopen q hq) (e.writes rx)
    · intro _ r hr
      obtain ⟨rx, q, hq, rfl⟩ := mem_mapIdx_cases hr
      obtain ⟨hrec, hsock⟩ := linked_distrib1 st.curoff chunk (e.writes rx) q
      rw [hrec, hsock]
      exact h.linked hopen q hq
  split
  · exact hdist
  rename_i hskips
  have hflush := hdist.flush hopen e.flushes
  split
  · exact hflush
  rename_i hearly
  cases harr : e.arrival with
  | none => exact hflush
  | some a =>
    obtain ⟨hsio, hrsock⟩ := harrive (by simpa using hskips) (by simpa using hearly) a harr
    dsimp only
    -- the length of the table is that before the chunk
    have hcount : ∀ o, (Dist.flush { st with
        file := st.file ++ chunk
        curoff := wrap (st.curoff + chunk.length)
        receptors := st.receptors.mapIdx fun rx r => distrib1 st.curoff chunk (e.writes rx) r }
        o).receptors.length = st.receptors.length := by
      intro o
      unfold Dist.flush
      simp
    have hfile : HasGot (st.file ++ chunk)
        ⟨a.sio, short a.sio, wrap (st.file ++ chunk).length, st.file ++ chunk⟩ := by
      apply HasGot.of_active
      · dsimp only
        rw [wrap_eq (by omega) (by omega)]
        omega
      · dsimp only
        rw [wrap_eq (by omega) (by omega)]
      · dsimp only
        rw [wrap_eq (by omega) (by omega), Int.toNat_natCast, List.take_length]
    have hlength := hcount e.flushes
    split
    · rename_i hnil
      rw [hnil] at hlength
      have hnone : st.receptors = [] := List.length_eq_zero_iff.mp hlength.symm
      have hclient := hflush.accept2 hopen (by rw [hnil]; decide) (hsio hnone) hfile
      apply hclient.accept1 hopen
      intro hpos
      refine ⟨?_, (hrsock hpos).2⟩
      unfold Dist.accept2
      simp [hnil]
    · apply hflush.accept1 hopen
      intro hpos
      rw [hlength]
      exact hrsock hpos

/-- A turn at the end: a receiver that is closed has all, or is lost. -/
theorem hasGot_turns {file : List UInt8} (hlen : file.length < 2 ^ 31) (curoff : Int)
    (turns : List (Nat → FlushOut)) (st : Dist) (hfile : st.file = file) (hoff : st.curoff = curoff)
    (h : ∀ r ∈ st.receptors, HasGot file r ∧
      (r.receptor = r.rsock ∨ r.putoff = curoff ∨ r.putoff < 0)) :
    ∀ r ∈ (turns.foldl Dist.lastTurn st).receptors, HasGot file r := by
  induction turns generalizing st with
  | nil => exact fun r hr => (h r hr).1
  | cons o turns ih =>
    apply ih
    · exact hfile
    · exact hoff
    · intro r hr
      obtain ⟨q, hq, rfl⟩ := List.mem_map.mp hr
      obtain ⟨rx, p, hp, rfl⟩ := mem_mapIdx_cases hq
      obtain ⟨hgot, hlinked⟩ := h p hp
      have hflush := hasGot_flush1 hlen hgot hlinked (o rx)
      obtain ⟨hrec, hsock⟩ := linked_flush1 file curoff (o rx) p
      rw [hfile, hoff]
      unfold close1
      split
      · rename_i hdone
        exact ⟨hflush, .inr hdone⟩
      · rename_i hmore
        refine ⟨hflush, .inl ?_⟩
        rw [hrec, hsock]
        -- one that was closed before would still be done
        rcases hlinked with hlink | hdone
        · exact hlink
        · exfalso
          apply hmore
          have hskip : flush1 file curoff (o rx) p = p := by
            unfold flush1
            by_cases hoff' : p.putoff = curoff
            · rw [if_pos hoff']
            · rw [if_neg hoff', if_pos (hdone.resolve_left hoff')]
          rw [hskip]
          exact hdone

theorem turns_frame (turns : List (Nat → FlushOut)) (st : Dist) :
    (turns.foldl Dist.lastTurn st).file = st.file ∧
      (turns.foldl Dist.lastTurn st).curoff = st.curoff ∧
      (turns.foldl Dist.lastTurn st).stores = st.stores := by
  induction turns generalizing st with
  | nil => exact ⟨rfl, rfl, rfl⟩
  | cons o turns ih => exact ih (st.lastTurn o)

theorem Inv.stop {st : Dist} (h : Inv st) (turns : List (Nat → FlushOut)) :
    Inv (st.stop turns) := by
  unfold Dist.stop
  by_cases hopen : st.distsock_open = true
  · rw [if_pos hopen]
    have hoff := h.off (.inl hopen)
    obtain ⟨hfile, hcur, hstores⟩ := turns_frame turns st
    refine ⟨?_, ?_, ?_, ?_, ?_⟩
    · dsimp only
      rw [hfile]
      exact h.len
    · intro _
      dsimp only
      rw [hfile, hcur]
      exact hoff
    · dsimp only
      rw [hfile]
      exact hasGot_turns h.len st.curoff turns st rfl rfl fun r hr =>
        ⟨h.got r hr, .inl (h.linked hopen r hr)⟩
    · intro hyes
      cases hyes
    · dsimp only
      rw [hstores]
      exact h.stores
  · rw [if_neg hopen]
    exact h

/-! ## Runs -/

theorem inv_init : Inv {} := by
  refine ⟨by decide, fun _ => rfl, ?_, ?_, ?_⟩
  · exact fun r hr => absurd hr List.not_mem_nil
  · exact fun _ r hr => absurd hr List.not_mem_nil
  · exact fun rx hrx => absurd hrx List.not_mem_nil

/-- In a run whose steps are sound, each receiver has the bytes of the file up to its offset. -/
theorem delivered_of_sound (acts : List Act) (h : Meets step Sound {} acts) :
    Always step Delivered {} acts := by
  have hkeep : ∀ st a st', Inv st → Sound st a → step st a = some st' → Inv st' := by
    intro st a st' hinv hsound hstep
    cases a with
    | send chunk e =>
      cases hstep
      exact hinv.send hsound
    | stop turns =>
      cases hstep
      exact hinv.stop turns
  exact always_of_meets hkeep (fun st hinv => hinv.delivered) inv_init h

/-- A chunk with which a receiver comes. -/
def arriving (rsock : Int) : Act :=
  .send [1] { arrival := some { rsock := rsock, outs := [(1, 1)], sio := 4 } }

theorem arriving_delivered :
    (exec step {} [.send [7, 8] {}, arriving 5, .stop [fun _ => { outs := [(4, 1)] }]]).isSome ∧
      Always step Delivered {} [.send [7, 8] {}, arriving 5, .stop [fun _ => { outs := [(4, 1)] }]] := by
  refine ⟨rfl, delivered_of_sound _ ?_⟩
  intro s1 h1
  obtain rfl := Option.some.inj h1
  refine ⟨⟨by decide, .inl rfl, fun _ _ a ha => by cases ha⟩, ?_⟩
  intro s2 h2
  obtain rfl := Option.some.inj h2
  refine ⟨⟨by decide, .inl rfl, fun _ _ a ha => ?_⟩, ?_⟩
  · cases ha
    exact ⟨fun _ => by decide, fun _ => ⟨by decide, by decide⟩⟩
  · exact fun s3 h3 => ⟨trivial, trivial⟩

/-- A receiver that comes is stored behind the others, and behind the client. -/
theorem step_arriving {st : Dist} {rsock : Int} (hopen : st.distsock_open = true)
    (hoff : 0 < st.curoff) (hsmall : st.curoff + 1 < 2 ^ 31) (hsock : 0 ≤ rsock) :
    ∃ st', step st (arriving rsock) = some st' ∧ st'.distsock_open = true ∧
      st'.curoff = st.curoff + 1 ∧ st'.receptors.length = max 1 st.receptors.length + 1 ∧
      max 1 st.receptors.length ∈ st'.stores := by
  have hcur : wrap (st.curoff + ([1] : List UInt8).length) = st.curoff + 1 :=
    wrap_eq (by simp; omega) hsmall
  have hskip : skips st.curoff (st.curoff + 1) false = false := by
    simp [skips, hoff.ne']
  refine ⟨_, rfl, ?_⟩
  unfold Dist.send
  dsimp only
  rw [hopen, hcur, hskip]
  unfold Dist.accept1
  rw [if_neg (not_lt.mpr hsock)]
  by_cases hnone : st.receptors = []
  · simp [Dist.flush, Dist.accept2, hnone]
  · have hpos : max 1 st.receptors.length = st.receptors.length :=
      Nat.max_eq_right (List.length_pos_iff.mpr hnone)
    simp [Dist.flush, Dist.accept2, hnone, hpos]

/-- When `n` receivers have come, the last one is stored at index `n`. -/
theorem exec_arriving (socks : List Int) (hsocks : ∀ rsock ∈ socks, 0 ≤ rsock) {st : Dist}
    (hopen : st.distsock_open = true) (hoff : 0 < st.curoff)
    (hsmall : st.curoff + socks.length < 2 ^ 31) (hne : socks ≠ []) :
    ∃ st', exec step st (socks.map arriving) = some st' ∧
      max 1 st.receptors.length + socks.length - 1 ∈ st'.stores := by
  induction socks generalizing st with
  | nil => exact absurd rfl hne
  | cons rsock socks ih =>
    rw [List.length_cons] at hsmall
    obtain ⟨st', hstep, hopen', hcur, hlen, hstore⟩ :=
      step_arriving hopen hoff (by omega) (hsocks rsock List.mem_cons_self)
    rw [List.map_cons, exec, hstep, Option.bind_some]
    cases socks with
    | nil => exact ⟨st', rfl, by simpa using hstore⟩
    | cons next socks =>
      obtain ⟨st'', hexec, hmem⟩ := ih (fun r hr => hsocks r (List.mem_cons_of_mem _ hr)) hopen'
        (by omega) (by omega) (List.cons_ne_nil _ _)
      refine ⟨st'', hexec, ?_⟩
      have hindex : max 1 st'.receptors.length + (next :: socks).length - 1 =
          max 1 st.receptors.length + (rsock :: next :: socks).length - 1 := by
        simp only [List.length_cons]
        omega
      rwa [hindex] at hmem

/-- With 64 receivers and the client, `accept2` stores behind the arrays. -/
theorem receivers_overflow :
    ¬ Always step Delivered {} (.send [7] {} :: (List.range 64).map fun i : Nat => arriving (5 + i)) := by
  intro h
  have hsocks : ∀ rsock ∈ (List.range 64).map fun i : Nat => (5 + i : Int), 0 ≤ rsock := by
    intro rsock hr
    obtain ⟨i, -, rfl⟩ := List.mem_map.mp hr
    omega
  have hopen : (({} : Dist).send [7] {}).distsock_open = true := rfl
  have hoff : (({} : Dist).send [7] {}).curoff = 1 := rfl
  have hnone : (({} : Dist).send [7] {}).receptors.length = 0 := rfl
  obtain ⟨st, hexec, hstore⟩ := exec_arriving _ hsocks hopen (by rw [hoff]; exact Int.zero_lt_one)
    (by rw [hoff]; simp) (by simp)
  have hrun : exec step {} (.send [7] {} :: (List.range 64).map fun i : Nat => arriving (5 + i)) =
      some st := by
    have hfirst : step {} (.send [7] {}) = some (({} : Dist).send [7] {}) := rfl
    have hacts : (arriving ∘ fun i : Nat => (5 + i : Int)) = fun i : Nat => arriving (5 + i) := rfl
    rw [List.map_map, hacts] at hexec
    rw [exec, hfirst, Option.bind_some, hexec]
  rw [hnone, List.length_map, List.length_range] at hstore
  exact absurd ((h.exec hrun).stores 64 hstore) (lt_irrefl 64)

end delegate.distrib
