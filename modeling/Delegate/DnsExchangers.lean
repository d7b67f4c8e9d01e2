-- The addresses of mail exchangers (`-MX.`): the names of the exchangers and the
-- addresses share one buffer, and the addresses are written over the names from
-- the beginning.
import Delegate.DnsResults

open reads

namespace delegate.dns

/-! ## Parts in the buffer -/

theorem at_congr {mem mem' : Nat → Octet} {p : Nat} {l : Bytes} (h : At mem p l)
    (hsame : ∀ j, p ≤ j → j < p + l.length → mem' j = mem j) : At mem' p l := by
  intro i hi
  rw [hsame (p + i) (by omega) (by omega)]
  exact h i hi

theorem poke_other (mem : Nat → Octet) {p j : Nat} {l : Bytes} (h : j < p ∨ p + l.length ≤ j) :
    poke mem p l j = mem j := by
  unfold poke
  rw [dif_neg (by omega)]

section
variable {σ : Type}

/-- The parts stand in the buffer from `p` on, the vector from `b` on points to them, and nothing
else was changed in the buffer or below `b` in the vector. -/
structure Stored (b p : Nat) (parts : List Bytes) (v v' : Vecs σ) : Prop where
  rrv : ∀ i < parts.length, v'.rrv (b + i) = .rrb (p + (parts.take i).flatten.length)
  low : ∀ i < b, v'.rrv i = v.rrv i
  bytes : At v'.rrb p parts.flatten
  other : ∀ j, j < p ∨ p + parts.flatten.length ≤ j → v'.rrb j = v.rrb j

theorem putHits_low (v : Vecs σ) (b : Nat) (hits : List Bytes) :
    (∀ i < b, (v.putHits b hits).rrv i = v.rrv i) ∧ (v.putHits b hits).rrb = v.rrb ∧
      (v.putHits b hits).res = v.res := by
  induction hits generalizing v b with
  | nil => exact ⟨fun _ _ => rfl, rfl, rfl⟩
  | cons data hits ih =>
    obtain ⟨hlow, hrrb, hres⟩ := ih (v.set b (.rr data)) (b + 1)
    refine ⟨?_, hrrb, hres⟩
    intro i hi
    rw [Vecs.putHits, hlow i (by omega)]
    exact Function.update_of_ne (by omega) _ _

variable {R : Resolver σ}

/-- The entries of a record before it is copied. -/
def Results.entry (r : Results σ) (b rri : Nat) (data : Bytes) : Results σ :=
  { r with vecs := (r.vecs.set (b + rri) (.rr (data.drop 2))).set (b + r.rro) (.rr (data.drop 2)) }

/-- One record that is copied as some bytes. -/
def Copied (R : Resolver σ) (hasCname : Bool) (qtype : Nat) (data bytes : Bytes) : Prop :=
  ∀ b rri (r : Results σ),
    resultStep R hasCname qtype b rri data r = (r.entry b rri data).store b bytes

/-- The loop over records that are all copied. -/
theorem resultLoop_stored {hasCname : Bool} {qtype b : Nat} {f : Bytes → Bytes} {hits : List Bytes}
    (hcopied : ∀ data ∈ hits, Copied R hasCname qtype data (f data)) (n : Nat) (r : Results σ)
    (hr : r.rro = n) :
    (resultLoop R hasCname qtype b n hits r).rro = n + hits.length ∧
      (resultLoop R hasCname qtype b n hits r).rrp = r.rrp + (hits.map f).flatten.length ∧
      Stored (b + n) r.rrp (hits.map f) r.vecs (resultLoop R hasCname qtype b n hits r).vecs := by
  induction hits generalizing n r with
  | nil =>
    refine ⟨hr, rfl, ?_, fun _ _ => rfl, at_nil _ _, fun _ _ => rfl⟩
    intro i hi
    exact absurd hi (Nat.not_lt_zero i)
  | cons data hits ih =>
    rw [resultLoop, hcopied data List.mem_cons_self b n r]
    generalize hnext : (r.entry b n data).store b (f data) = r₁
    have hrro : r₁.rro = n + 1 := by rw [← hnext, ← hr]; rfl
    have hrrp : r₁.rrp = r.rrp + (f data).length := by rw [← hnext]; rfl
    have hrrb : r₁.vecs.rrb = poke r.vecs.rrb r.rrp (f data) := by rw [← hnext]; rfl
    have hself : r₁.vecs.rrv (b + n) = .rrb r.rrp := by
      rw [← hnext, ← hr]
      exact Function.update_self _ _ _
    have hlow : ∀ i < b + n, r₁.vecs.rrv i = r.vecs.rrv i := by
      intro i hi
      rw [← hnext]
      simp only [Results.store, Results.entry, Vecs.set, hr]
      rw [Function.update_of_ne (by omega), Function.update_of_ne (by omega),
        Function.update_of_ne (by omega)]
    obtain ⟨hcount, hend, hrest⟩ := ih (fun d hd => hcopied d (List.mem_cons_of_mem _ hd)) (n + 1) r₁
      hrro
    rw [hrrp] at hend hrest
    have hplace : b + (n + 1) = b + n + 1 := by omega
    rw [hplace] at hrest
    refine ⟨by rw [hcount, List.length_cons]; omega, ?_, ?_, ?_, ?_, ?_⟩
    · rw [hend, List.map_cons, List.flatten_cons, List.length_append]
      omega
    · intro i hi
      cases i with
      | zero =>
        rw [hrest.low (b + n + 0) (by omega)]
        exact hself
      | succ i =>
        have hi' : i < (hits.map f).length := by
          rw [List.map_cons, List.length_cons] at hi
          omega
        have hidx : b + n + (i + 1) = b + n + 1 + i := by omega
        rw [hidx, hrest.rrv i hi', List.map_cons, List.take_succ_cons, List.flatten_cons,
          List.length_append, Nat.add_assoc]
    · intro i hi
      rw [hrest.low i (by omega), hlow i hi]
    · rw [List.map_cons, List.flatten_cons, at_append]
      refine ⟨?_, hrest.bytes⟩
      have hat : At r₁.vecs.rrb r.rrp (f data) := by
        rw [hrrb]
        exact at_poke _ _ _
      apply at_congr hat
      intro j _ hj
      exact hrest.other j (.inl hj)
    · intro j hj
      rw [List.map_cons, List.flatten_cons, List.length_append] at hj
      rw [hrest.other j (by omega), hrrb, poke_other _ (by omega)]

/-- Parts that are stored after others. -/
theorem Stored.append {b p : Nat} {xs ys : List Bytes} {v v₁ v₂ : Vecs σ}
    (h : Stored b p xs v v₁) (h' : Stored (b + xs.length) (p + xs.flatten.length) ys v₁ v₂) :
    Stored b p (xs ++ ys) v v₂ where
  rrv := by
    intro i hi
    by_cases hlt : i < xs.length
    · rw [h'.low (b + i) (by omega), h.rrv i hlt, List.take_append_of_le_length (by omega)]
    · obtain ⟨k, rfl⟩ : ∃ k, i = xs.length + k := ⟨i - xs.length, by omega⟩
      rw [List.length_append] at hi
      rw [← Nat.add_assoc, h'.rrv k (by omega), List.take_length_add_append, List.flatten_append,
        List.length_append, Nat.add_assoc]
  low := by
    intro i hi
    rw [h'.low i (by omega), h.low i hi]
  bytes := by
    rw [List.flatten_append, at_append]
    refine ⟨at_congr h.bytes fun j _ hj => h'.other j (.inl hj), h'.bytes⟩
  other := by
    intro j hj
    rw [List.flatten_append, List.length_append] at hj
    rw [h'.other j (by omega), h.other j (by omega)]

/-- Each part stands where its entry points to. -/
theorem Stored.part {b p : Nat} {parts : List Bytes} {v v' : Vecs σ} (h : Stored b p parts v v')
    {i : Nat} (hi : i < parts.length) :
    At v'.rrb (p + (parts.take i).flatten.length) parts[i] := by
  have hbytes := h.bytes
  have hsplit : parts = parts.take i ++ parts[i] :: parts.drop (i + 1) := by
    rw [List.getElem_cons_drop, List.take_append_drop]
  rw [hsplit, List.flatten_append, List.flatten_cons, at_append, at_append] at hbytes
  exact hbytes.2.1

/-! ## One lookup of copied records -/

/-- The records in the order in which they are copied. -/
def copyOrder (qtype : Nat) (recs : List Bytes) : List Bytes :=
  if qtype = TY_MX then recs.mergeSort mxle else recs

theorem copyOrder_perm (qtype : Nat) (recs : List Bytes) : (copyOrder qtype recs).Perm recs := by
  unfold copyOrder
  split
  · exact List.mergeSort_perm _ _
  · exact List.Perm.refl _

theorem lookupResults_stored {hasCname : Bool} {name : Bytes} {qtype b rrc p : Nat} {v : Vecs σ}
    {recs : List Bytes} {f : Bytes → Bytes}
    (hfound : (R.getRRbynameaddr name qtype rrc v.res).1 = recs)
    (hcopied : ∀ data ∈ recs, Copied R hasCname qtype data (f data)) :
    (lookupResults R hasCname name qtype b rrc p v).rro = recs.length ∧
      Stored b p ((copyOrder qtype recs).map f) v
        (lookupResults R hasCname name qtype b rrc p v).vecs ∧
      (lookupResults R hasCname name qtype b rrc p v).vecs.rrv (b + recs.length) = .null ∧
      (lookupResults R hasCname name qtype b rrc p v).vecs.rrv (b + recs.length + 1) =
        .rrb (p + ((copyOrder qtype recs).map f).flatten.length) := by
  have hperm := copyOrder_perm qtype recs
  unfold lookupResults
  dsimp only
  rw [hfound]
  have horder : (if qtype = TY_MX then recs.mergeSort mxle else recs) = copyOrder qtype recs := rfl
  rw [horder]
  generalize hv' : (if qtype = TY_MX then
    (Vecs.putHits { v with res := _ } b recs).putHits b (copyOrder qtype recs)
    else Vecs.putHits { v with res := _ } b recs) = v'
  have hputs : (∀ i < b, v'.rrv i = v.rrv i) ∧ v'.rrb = v.rrb := by
    rw [← hv']
    split
    · obtain ⟨hlow, hrrb, -⟩ := putHits_low (Vecs.putHits { v with
        res := (R.getRRbynameaddr name qtype rrc v.res).2 } b recs) b (copyOrder qtype recs)
      obtain ⟨hlow', hrrb', -⟩ := putHits_low { v with
        res := (R.getRRbynameaddr name qtype rrc v.res).2 } b recs
      exact ⟨fun i hi => (hlow i hi).trans (hlow' i hi), hrrb.trans hrrb'⟩
    · obtain ⟨hlow, hrrb, -⟩ := putHits_low { v with
        res := (R.getRRbynameaddr name qtype rrc v.res).2 } b recs
      exact ⟨hlow, hrrb⟩
  obtain ⟨hrro, hrrp, hstored⟩ := resultLoop_stored (R := R) (b := b)
    (fun data hd => hcopied data (hperm.mem_iff.mp hd)) 0 ⟨v', 0, p, []⟩ rfl
  generalize resultLoop R hasCname qtype b 0 (copyOrder qtype recs) ⟨v', 0, p, []⟩ = r at *
  rw [Nat.zero_add, hperm.length_eq] at hrro
  dsimp only at hrrp hstored
  rw [Nat.add_zero] at hstored
  rw [hrro, hrrp]
  refine ⟨rfl, ⟨?_, ?_, hstored.bytes, ?_⟩, ?_, ?_⟩
  · intro i hi
    rw [List.length_map, hperm.length_eq] at hi
    simp only [Vecs.set]
    rw [Function.update_of_ne (by omega), Function.update_of_ne (by omega)]
    exact hstored.rrv i (by rw [List.length_map, hperm.length_eq]; exact hi)
  · intro i hi
    simp only [Vecs.set]
    rw [Function.update_of_ne (by omega), Function.update_of_ne (by omega), hstored.low i hi]
    exact hputs.1 i hi
  · intro j hj
    rw [← hputs.2]
    exact hstored.other j hj
  · simp only [Vecs.set]
    rw [Function.update_of_ne (by omega), Function.update_self]
  · exact Function.update_self _ _ _

theorem copied_A (hasCname : Bool) (qtype : Nat) {data : Bytes} (h : dataType data = TY_A) :
    Copied R hasCname qtype data (dataBytes data 4) := by
  intro b rri r
  unfold resultStep
  dsimp only
  rw [if_neg (by rw [h]; decide), if_pos h]
  rfl

theorem copied_MX (hasCname : Bool) {data host : Bytes} (h : dataType data = TY_MX)
    (hhost : ∀ s, R.DNS_nodename (dataLong data) s = host) :
    Copied R hasCname TY_MX data (host ++ [0]) := by
  intro b rri r
  unfold resultStep
  dsimp only
  rw [if_neg (by rw [h]; decide), if_neg (by rw [h]; decide),
    if_neg (fun hno => absurd hno.2 (by decide)), if_neg (by rw [h]; decide), if_pos (.inl h), hhost]
  rfl

/-! ## The exchangers of a name -/

/-- The cache has the MX records `recs` of a name: the record `d` names `host d`, which has the A
records `addrs d`. No host begins with `-MX`. -/
structure Exchangers (R : Resolver σ) (name : Bytes) (recs : List Bytes) (host : Bytes → Bytes)
    (addrs : Bytes → List Bytes) : Prop where
  found : ∀ n s, recs.length ≤ n → (R.getRRbynameaddr name TY_MX n s).1 = recs
  mx : ∀ d ∈ recs, dataType d = TY_MX
  node : ∀ d ∈ recs, ∀ s, R.DNS_nodename (dataLong d) s = host d
  text : ∀ d ∈ recs, (0 : Octet) ∉ host d
  plain : ∀ d ∈ recs, isMXname (host d) = false
  cached : ∀ d ∈ recs, ∀ n s, (addrs d).length ≤ n →
    (R.getRRbynameaddr (host d) TY_A n s).1 = addrs d
  a : ∀ d ∈ recs, ∀ data ∈ addrs d, dataType data = TY_A

/-- The name does not begin with `_srv.`. -/
def NotSrv (name : Bytes) : Prop := (name.take 5).map lower ≠ ascii "_srv."

theorem NotSrv.srvName {name : Bytes} (h : NotSrv name) (qtype : Nat) :
    srvName name qtype = (name, qtype) := if_neg h

/-- From `q` on, the names of the exchangers stand behind the addresses of those before them, of
which there are `w` bytes. -/
def NamesKept (host : Bytes → Bytes) (addrs : Bytes → List Bytes) : Nat → Nat → List Bytes → Prop
  | _, _, [] => True
  | w, q, d :: ds =>
    w ≤ q ∧ NamesKept host addrs (w + 4 * (addrs d).length) (q + (host d).length + 1) ds

/-- The pointers to names that stand in the buffer from `q` on. -/
def namePtrs (host : Bytes → Bytes) : Nat → List Bytes → List Ptr
  | _, [] => []
  | q, d :: ds => .rrb q :: namePtrs host (q + (host d).length + 1) ds

theorem namePtrs_eq (host : Bytes → Bytes) (q : Nat) (ds : List Bytes) :
    (List.range ds.length).map (fun i =>
      Ptr.rrb (q + ((ds.map fun d => host d ++ [0]).take i).flatten.length)) = namePtrs host q ds := by
  induction ds generalizing q with
  | nil => rfl
  | cons d ds ih =>
    rw [List.length_cons, List.range_succ_eq_map, List.map_cons, List.map_map, namePtrs, ← ih]
    congr 1
    apply List.map_congr_left
    intro i _
    simp only [Function.comp_apply, List.map_cons, List.take_succ_cons, List.flatten_cons,
      List.length_append, List.length_singleton]
    congr 1
    omega

/-- A name that stands in the buffer. -/
theorem textAt_of_at {siz q : Nat} {rrb : Nat → Octet} {name : Bytes} (h : At rrb q (name ++ [0]))
    (hzero : (0 : Octet) ∉ name) (hsiz : name.length < siz) : textAt siz rrb (.rrb q) = name := by
  obtain ⟨k, rfl⟩ : ∃ k, siz = name.length + 1 + k := ⟨siz - (name.length + 1), by omega⟩
  unfold textAt cstr
  have hspan := at_iff_span.mp h
  unfold span at hspan
  rw [List.length_append, List.length_singleton] at hspan
  dsimp only at hspan ⊢
  rw [← List.range'_append_1, List.map_append]
  rw [hspan, List.append_assoc, List.takeWhile_append_of_pos]
  · simp
  · intro c hc
    have hne : c ≠ 0 := fun he => hzero (he ▸ hc)
    simpa using hne

theorem length_dataBytes (data : Bytes) (n : Nat) : (dataBytes data n).length = n := by
  simp [dataBytes]

theorem length_addresses (l : List Bytes) : (l.map (dataBytes · 4)).flatten.length = 4 * l.length := by
  induction l with
  | nil => rfl
  | cons a l ih =>
    rw [List.map_cons, List.flatten_cons, List.length_append, ih, length_dataBytes, List.length_cons]
    omega

section Hosts
variable {name : Bytes} {recs : List Bytes} {host : Bytes → Bytes} {addrs : Bytes → List Bytes}
  (h : Exchangers R name recs host addrs)
include h

/-- The loop over exchangers whose names are kept stores their addresses one after the other. -/
theorem mxLoop_stored {siz rrc : Nat} (hsiz : ∀ d ∈ recs, (host d).length < siz)
    (hsrv : ∀ d ∈ recs, NotSrv (host d)) (ds : List Bytes) (hds : ∀ d ∈ ds, d ∈ recs) (rmx q : Nat)
    (v : Vecs σ) (hnames : At v.rrb q (ds.map fun d => host d ++ [0]).flatten)
    (hkept : NamesKept host addrs (4 * rmx) q ds)
    (hroom : rmx + (ds.flatMap addrs).length ≤ rrc) :
    (mxLoop R siz rrc (namePtrs host q ds) rmx (4 * rmx) v).1 = rmx + (ds.flatMap addrs).length ∧
      Stored rmx (4 * rmx) ((ds.flatMap addrs).map (dataBytes · 4)) v
        (mxLoop R siz rrc (namePtrs host q ds) rmx (4 * rmx) v).2 ∧
      (ds ≠ [] → (mxLoop R siz rrc (namePtrs host q ds) rmx (4 * rmx) v).2.rrv
        (rmx + (ds.flatMap addrs).length) = .null) := by
  induction ds generalizing rmx q v with
  | nil =>
    refine ⟨rfl, ⟨?_, fun _ _ => rfl, at_nil _ _, fun _ _ => rfl⟩, fun hne => absurd rfl hne⟩
    intro i hi
    exact absurd hi (Nat.not_lt_zero i)
  | cons d ds ih =>
    have hd := hds d List.mem_cons_self
    rw [List.map_cons, List.flatten_cons, at_append] at hnames
    rw [List.flatMap_cons, List.length_append] at hroom
    have htext : textAt siz v.rrb (.rrb q) = host d :=
      textAt_of_at hnames.1 (h.text d hd) (hsiz d hd)
    have hlookup := lookupResults_stored (b := rmx) (p := 4 * rmx) (f := (dataBytes · 4))
      (h.cached d hd (rrc - rmx) v.res (by omega))
      (fun data hdata => copied_A false TY_A (h.a d hd data hdata))
    have hname : lookupName R false (host d) TY_A rmx (rrc - rmx) (4 * rmx) v =
        lookupResults R false (host d) TY_A rmx (rrc - rmx) (4 * rmx) v := by
      unfold lookupName
      rw [(hsrv d hd).srvName]
    have horder : copyOrder TY_A (addrs d) = addrs d := rfl
    rw [horder, length_addresses] at hlookup
    rw [namePtrs, mxLoop]
    dsimp only
    rw [htext, h.plain d hd, if_neg (by decide), hname]
    generalize lookupResults R false (host d) TY_A rmx (rrc - rmx) (4 * rmx) v = r at hlookup
    obtain ⟨hrro, hstored, hnull, hplace⟩ := hlookup
    have hnext : 4 * rmx + 4 * (addrs d).length = 4 * (rmx + (addrs d).length) := by omega
    rw [hrro, hplace]
    dsimp only [Ptr.place]
    rw [hnext]
    have hkept' := hkept.2
    rw [hnext] at hkept'
    have hq : q + (host d ++ [(0 : Octet)]).length = q + (host d).length + 1 := by
      rw [List.length_append, List.length_singleton]
      omega
    have hnames' : At r.vecs.rrb (q + (host d).length + 1)
        (ds.map fun d => host d ++ [0]).flatten := by
      cases ds with
      | nil => exact at_nil _ _
      | cons e ds =>
        have hbehind := hkept'.1
        rw [hq] at hnames
        apply at_congr hnames.2
        intro j hj _
        apply hstored.other
        rw [length_addresses]
        omega
    obtain ⟨hcount, hrest, hend⟩ := ih (fun e he => hds e (List.mem_cons_of_mem _ he))
      (rmx + (addrs d).length) _ r.vecs hnames' hkept' (by omega)
    refine ⟨?_, ?_, ?_⟩
    · rw [hcount, List.flatMap_cons, List.length_append]
      omega
    · rw [List.flatMap_cons, List.map_append]
      apply hstored.append
      rw [length_addresses, List.length_map, hnext]
      exact hrest
    · intro _
      rw [List.flatMap_cons, List.length_append, ← Nat.add_assoc]
      cases ds with
      | nil => exact hnull
      | cons e ds => exact hend (List.cons_ne_nil _ _)

/-- The lookup of the exchangers puts their names into the buffer, in the order of their
preferences. -/
theorem lookupMX_stored (hasCname : Bool) {rrc : Nat} (hsrv : NotSrv name)
    (hrrc : recs.length ≤ rrc) (v : Vecs σ) :
    (lookupName R hasCname name TY_MX 0 rrc 0 v).rro = recs.length ∧
      Stored 0 0 ((recs.mergeSort mxle).map fun d => host d ++ [0]) v
        (lookupName R hasCname name TY_MX 0 rrc 0 v).vecs := by
  have hlookup := lookupResults_stored (R := R) (b := 0) (p := 0) (f := fun d => host d ++ [0])
    (h.found rrc v.res hrrc)
    (fun data hdata => copied_MX hasCname (h.mx data hdata) (h.node data hdata))
  unfold lookupName
  rw [hsrv.srvName]
  exact ⟨hlookup.1, hlookup.2.1⟩

end Hosts

/-- The address that an entry of the vector points to. -/
def addressAt (v : Vecs σ) (i : Nat) : Bytes :=
  match v.rrv i with
  | .rrb p => (span v.rrb p 4).val
  | _ => []

theorem Stored.addresses {l : List Bytes} {v v' : Vecs σ}
    (h : Stored 0 0 (l.map (dataBytes · 4)) v v') :
    (List.range l.length).map (addressAt v') = l.map (dataBytes · 4) := by
  apply List.ext_getElem
  · simp
  · intro i hi hi'
    have hpart := h.part hi'
    have hrrv := h.rrv i hi'
    rw [Nat.zero_add] at hrrv
    have hspan := at_iff_span.mp hpart
    rw [List.getElem_map] at hspan ⊢
    rw [length_dataBytes] at hspan
    rw [List.getElem_map, List.getElem_range, addressAt, hrrv]
    exact hspan

/-- `-MX.name` gives the addresses of all exchangers of the name, in the order of their
preferences, if each of their names stands in the buffer behind the addresses of those before it,
and no name begins with `_srv.`. -/
theorem exchangers_resolved (R : Resolver σ) (name : Bytes) (recs : List Bytes)
    (host : Bytes → Bytes) (addrs : Bytes → List Bytes) (h : Exchangers R name recs host addrs)
    (siz rrc : Nat) (hasCname : Bool) (v : Vecs σ) (hinit : R.inInitSRCIFforDNS = false)
    (hne : recs ≠ []) (hcount : recs.length < 64) (hsiz : ∀ d ∈ recs, (host d).length < siz)
    (hrrc : recs.length + 2 ≤ rrc) (hroom : (recs.flatMap addrs).length + 2 ≤ rrc)
    (hkept : NamesKept host addrs 0 0 (recs.mergeSort mxle))
    (hsrv : NotSrv name ∧ ∀ d ∈ recs, NotSrv (host d)) :
    ∃ count v', gethostbynameaddr_dns R siz hasCname (ascii "-MX." ++ name) TY_A rrc v =
        some (count, v') ∧
      (List.range count).map (addressAt v') =
        ((recs.mergeSort mxle).flatMap addrs).map (dataBytes · 4) ∧
      v'.rrv count = .null := by
  have hperm := List.mergeSort_perm recs mxle
  have hfits : recs.length ≤ rrc := by omega
  obtain ⟨hrro, hnames⟩ := lookupMX_stored h hasCname hsrv.1 hfits v
  have hsearch : gethostbynameaddr_dns R siz hasCname (ascii "-MX." ++ name) TY_A rrc v =
      some (mxHosts R siz rrc recs.length (lookupName R hasCname name TY_MX 0 rrc 0 v).vecs) := by
    have hname : ascii "-MX." ++ name = 45 :: 77 :: 88 :: 46 :: name := rfl
    unfold gethostbynameaddr_dns
    rw [hinit, if_neg (by decide), hname, search, if_pos rfl, mxSearch]
    dsimp only
    rw [if_pos (by rw [hrro]; simpa using hne), hrro]
  generalize (lookupName R hasCname name TY_MX 0 rrc 0 v).vecs = v₁ at hnames hsearch
  have hptrs : (List.range (min recs.length 64)).map v₁.rrv =
      namePtrs host 0 (recs.mergeSort mxle) := by
    rw [Nat.min_eq_left (by omega), ← namePtrs_eq, hperm.length_eq]
    apply List.map_congr_left
    intro i hi
    rw [List.mem_range] at hi
    have hrrv := hnames.rrv i (by rw [List.length_map, hperm.length_eq]; exact hi)
    rw [Nat.zero_add] at hrrv
    exact hrrv
  have hlen : ((recs.mergeSort mxle).flatMap addrs).length = (recs.flatMap addrs).length :=
    (hperm.flatMap_right addrs).length_eq
  have hall : 0 + ((recs.mergeSort mxle).flatMap addrs).length ≤ rrc := by omega
  obtain ⟨hc, hstored, hnull⟩ := mxLoop_stored h hsiz hsrv.2 (recs.mergeSort mxle)
    (fun d hd => hperm.mem_iff.mp hd) 0 0 v₁ hnames.bytes hkept hall
  rw [Nat.zero_add] at hc hnull
  have hloop : mxHosts R siz rrc recs.length v₁ =
      mxLoop R siz rrc (namePtrs host 0 (recs.mergeSort mxle)) 0 (4 * 0) v₁ := by
    unfold mxHosts
    rw [hptrs]
  rw [← hloop] at hc hstored hnull
  refine ⟨(mxHosts R siz rrc recs.length v₁).1, (mxHosts R siz rrc recs.length v₁).2, hsearch, ?_, ?_⟩
  · rw [hc]
    exact hstored.addresses
  · rw [hc]
    apply hnull
    intro hnil
    have hzero := hperm.length_eq
    rw [hnil] at hzero
    exact hne (List.eq_nil_of_length_eq_zero hzero.symm)

end

/-- A cache given as a table of records, and the names of nodes. -/
def tableResolver (table : Bytes → Nat → List Bytes) (nodes : Nat → Bytes) : Resolver Unit where
  inInitSRCIFforDNS := false
  getRRbynameaddr name qtype rrc := pure ((table name qtype).take rrc)
  room _ _ _ _ := List.length_take_le _ _
  DNS_nodename nid _ := nodes nid

/-- The domain `d` with two exchangers, the node 2 with the name `first` and the node 3 with the
name `b`. Each has one address. -/
def mailTable (first : Bytes) (name : Bytes) (qtype : Nat) : List Bytes :=
  if qtype = TY_MX ∧ name = [100] then [[15, 1, 0, 0, 0, 2, 0, 10], [15, 1, 0, 0, 0, 3, 0, 20]]
  else if qtype = TY_A ∧ name = first then [[1, 1, 10, 0, 0, 5]]
  else if qtype = TY_A ∧ name = [98] then [[1, 1, 10, 0, 0, 6]]
  else []

def mailNodes (first : Bytes) (nid : Nat) : Bytes := if nid = 2 then first else [98]

/-- The records of the two exchangers. -/
def mailRecs : List Bytes := [[15, 1, 0, 0, 0, 2, 0, 10], [15, 1, 0, 0, 0, 3, 0, 20]]

def mailHost (first d : Bytes) : Bytes := mailNodes first (dataLong d)

def mailAddrs (first d : Bytes) : List Bytes := mailTable first (mailHost first d) TY_A

theorem exchangers_mail {first : Bytes} (hzero : (0 : Octet) ∉ first)
    (hplain : isMXname first = false) :
    Exchangers (tableResolver (mailTable first) (mailNodes first)) [100] mailRecs (mailHost first)
      (mailAddrs first) where
  found n s hn := List.take_of_length_le hn
  mx := by decide
  node _ _ _ := rfl
  text := by
    intro d _
    unfold mailHost mailNodes
    split
    · exact hzero
    · decide
  plain := by
    intro d _
    unfold mailHost mailNodes
    split
    · exact hplain
    · decide
  cached _ _ _ _ hn := List.take_of_length_le hn
  a := by
    intro d _ data hdata
    unfold mailAddrs mailTable at hdata
    rw [if_neg (fun h => absurd h.1 (by decide))] at hdata
    split at hdata
    · rw [List.mem_singleton.mp hdata]
      rfl
    · split at hdata
      · rw [List.mem_singleton.mp hdata]
        rfl
      · exact absurd hdata List.not_mem_nil

/-- A vector and a buffer that were not written. -/
def freshVecs : Vecs Unit := ⟨(), fun _ => .null, [], fun _ => 0, []⟩

theorem mailRecs_sorted : mailRecs.mergeSort mxle = mailRecs :=
  List.mergeSort_of_pairwise (by decide)

theorem exchangers_resolved_two :
    ∃ count v', gethostbynameaddr_dns (tableResolver (mailTable [109, 97, 105, 108])
        (mailNodes [109, 97, 105, 108])) 512 true (ascii "-MX." ++ [100]) TY_A 64 freshVecs =
        some (count, v') ∧
      (List.range count).map (addressAt v') =
        ((mailRecs.mergeSort mxle).flatMap (mailAddrs [109, 97, 105, 108])).map (dataBytes · 4) ∧
      v'.rrv count = .null := by
  apply exchangers_resolved _ _ _ _ _ (exchangers_mail (by decide) (by decide)) 512 64 true
    freshVecs rfl (by decide) (by decide)
  · decide
  · decide
  · decide
  · rw [mailRecs_sorted]
    exact ⟨by decide, by decide, trivial⟩
  · exact ⟨by unfold NotSrv; decide, by unfold NotSrv; decide⟩

/-- The names of the exchangers `a` and `b` in the buffer. -/
def mailResults : Results Unit :=
  let r := resultLoop (tableResolver (mailTable [97]) (mailNodes [97])) true TY_MX 0 0 mailRecs
    ⟨(freshVecs.putHits 0 mailRecs).putHits 0 mailRecs, 0, 0, []⟩
  { r with vecs := (r.vecs.set (0 + r.rro) .null).set (0 + r.rro + 1) (.rrb r.rrp) }

theorem lookup_mail :
    lookupName (tableResolver (mailTable [97]) (mailNodes [97])) true [100] TY_MX 0 64 0 freshVecs =
      mailResults := by
  have hfound : ((tableResolver (mailTable [97]) (mailNodes [97])).getRRbynameaddr [100] TY_MX 64
      freshVecs.res) = (mailRecs, ()) := rfl
  unfold lookupName
  rw [NotSrv.srvName (by unfold NotSrv; decide)]
  unfold lookupResults
  dsimp only
  rw [hfound, if_pos rfl, if_pos rfl, mailRecs_sorted]
  rfl

/-- Only one address is found where the first exchanger is `a`. -/
theorem mail_count :
    (gethostbynameaddr_dns (tableResolver (mailTable [97]) (mailNodes [97])) 512 true
      (ascii "-MX." ++ [100]) TY_A 64 freshVecs).map Prod.fst = some 1 := by
  have hname : ascii "-MX." ++ [100] = 45 :: 77 :: 88 :: 46 :: [100] := rfl
  unfold gethostbynameaddr_dns
  rw [hname, if_neg (by decide), search, if_pos rfl, mxSearch, lookup_mail]
  dsimp only
  rw [if_pos (by decide)]
  decide +kernel

/-- The address of the exchanger `a` is written over the name of the second exchanger. -/
theorem exchanger_lost :
    ¬ ∀ (R : Resolver Unit) (name : Bytes) (recs : List Bytes) (host : Bytes → Bytes)
      (addrs : Bytes → List Bytes) (siz rrc : Nat) (hasCname : Bool) (v : Vecs Unit),
      Exchangers R name recs host addrs → R.inInitSRCIFforDNS = false → recs ≠ [] →
      recs.length < 64 → (∀ d ∈ recs, (host d).length < siz) → recs.length + 2 ≤ rrc →
      (recs.flatMap addrs).length + 2 ≤ rrc →
      ∃ count v', gethostbynameaddr_dns R siz hasCname (ascii "-MX." ++ name) TY_A rrc v =
          some (count, v') ∧
        (List.range count).map (addressAt v') =
          ((recs.mergeSort mxle).flatMap addrs).map (dataBytes · 4) ∧
        v'.rrv count = .null := by
  intro hall
  obtain ⟨count, v', hout, haddrs, -⟩ := hall _ _ _ _ _ 512 64 true freshVecs
    (@exchangers_mail [97] (by decide) (by decide)) rfl (by decide) (by decide) (by decide)
    (by decide) (by decide)
  have hone := mail_count
  rw [hout] at hone
  have hcount : count = 1 := Option.some.inj hone
  have hlen := congrArg List.length haddrs
  rw [mailRecs_sorted, List.length_map, List.length_range, hcount] at hlen
  exact absurd hlen (by decide)

end delegate.dns
