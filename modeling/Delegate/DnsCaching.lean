-- The records of a response go into the cache (`dumpResponse` with `store`).
-- Names become nodes, and the data of a record are kept at the node of its
-- owner.
import Delegate.DnsNames
import Delegate.DnsResults
import Delegate.DnsServers
import Delegate.DnsWellFormed

open ctext reads segs
open delegate.dnsnode (Store Index Extends Attr typemask fold MAXLEV)

namespace delegate.dns

/-! ## The pure model -/

section Model
variable (reverse : Bytes → Text) (clock : Nat → Int)

/-- The names in the data of a record are put, and the bytes of `rdata` are made. The text
`reverse a` is the name that `DNS_putbyaddr` puts for an address. -/
def storeRData (rr : Record) (s : Store) : Option (Store × Option Bytes) :=
  let head : Bytes := [UInt8.ofNat rr.type, UInt8.ofNat rr.xclass]
  match rr.rdata with
  | .none => some (s, none)
  | .addr a => do
    let r ← dnsnode.DNS_putbyname (reverse a) s
    some (r.1, some (head ++ a))
  | .name n => do
    let r ← dnsnode.DNS_putbyname (toText n) s
    some (r.1, some (head ++ putLong (UInt32.ofNat r.2)))
  | .mx n pref => do
    let r ← dnsnode.DNS_putbyname (toText n) s
    some (r.1, some (head ++ putLong (UInt32.ofNat r.2) ++ pref))
  | .soa m n numbers => do
    let r ← dnsnode.DNS_putbyname (toText m) s
    let r' ← dnsnode.DNS_putbyname (toText n) r.1
    some (r'.1, some (head ++ putLong (UInt32.ofNat r.2) ++ putLong (UInt32.ofNat r'.2) ++
      numbers.flatMap fun v => putLong (UInt32.ofNat v)))

/-- `DNS_putattr` for the data of a record, where there are data. -/
def storeData (nid : Nat) (rr : Record) (s : Store) : Option Bytes → Store
  | none => s
  | some data =>
    (dnsnode.DNS_putattr nid (typemask rr.type) (Int.bmod rr.ttl (2 ^ 32)) data (clock s.records)
      s).1

variable (msg : Msg) (rc : Nat)

/-- `dumpResourceRecord` with `store`: the cache, and the pointer after the record. The owner is
put before the type is looked at. -/
def storeRecord (mp : Nat) (s : Store) : Option (Store × Option Nat) :=
  if rc ≤ mp then some (s, none)
  else do
    let r ← dnsnode.DNS_putbyname (toText (cstr (scanNameAt msg mp 512).val.2)) s
    match (dumpResourceRecord msg rc mp).val with
    | none => some (r.1, none)
    | some next => do
      let d ← storeRData reverse next.2 r.1
      some (storeData clock r.2 next.2 d.1 d.2, some next.1)

/-- A loop over records in `dumpResponse`. -/
def storeRecords : Nat → Option Nat → Store → Option (Store × Option Nat)
  | 0, mp, s => some (s, mp)
  | _ + 1, none, s => some (s, none)
  | n + 1, some mp, s =>
    if rc - 1 ≤ mp then some (s, none)
    else do
      let r ← storeRecord reverse clock msg rc mp s
      storeRecords n r.2 r.1

/-- The loop over the questions in `dumpResponse`. Each name is put twice. -/
def storeQuestions : Nat → Option Nat → Store → Option (Store × Option Nat)
  | 0, mp, s => some (s, mp)
  | _ + 1, none, s => some (s, none)
  | n + 1, some mp, s =>
    if rc - 1 ≤ mp then some (s, none)
    else do
      let q := (scanQuery msg mp 512).val
      let r ← dnsnode.DNS_putbyname (toText (cstr q.2.name)) s
      let r' ← dnsnode.DNS_putbyname (toText (cstr q.2.name)) r.1
      storeQuestions n (some q.1) r'.1

/-- The cache after `dumpResponse` with `store`. -/
def storeResponse (s : Store) : Option Store := do
  let hp := (scanHeader msg).val
  let qd ← storeQuestions msg rc hp.qdcount (some 12) s
  let an ← storeRecords reverse clock msg rc hp.ancount qd.2 qd.1
  let ns ← storeRecords reverse clock msg rc hp.nscount an.2 an.1
  let ar ← storeRecords reverse clock msg rc hp.arcount ns.2 ns.1
  some ar.1

end Model

/-! ## New names -/

/-- The store has at most `n` more nodes, without records, and the others keep their labels and
records. -/
structure Grown (n : Nat) (s : Store) (key : Nat → List Text) (s' : Store)
    (key' : Nat → List Text) : Prop where
  index : Index s' key'
  ext : Extends s s' key key'
  attrs : ∀ i ≤ s.NID, (s'.heap i).n_attr = (s.heap i).n_attr
  labels : ∀ i ≤ s.NID, (s'.heap i).n_label = (s.heap i).n_label ∧
    (s'.heap i).n_parent = (s.heap i).n_parent
  fresh : ∀ i, s.NID < i → i ≤ s'.NID → (s'.heap i).n_attr = []
  bound : s'.NID ≤ s.NID + n

section Grown
variable {s s' : Store} {key key' : Nat → List Text}

theorem grown_refl (h : Index s key) (n : Nat) : Grown n s key s key :=
  ⟨h, ⟨le_rfl, fun _ _ => rfl⟩, fun _ _ => rfl, fun _ _ => ⟨rfl, rfl⟩, fun _ _ _ => by omega,
    Nat.le_add_right _ _⟩

theorem Grown.trans {n m : Nat} {s'' : Store} {key'' : Nat → List Text}
    (h : Grown n s key s' key') (h' : Grown m s' key' s'' key'') :
    Grown (n + m) s key s'' key'' := by
  have hle := h.ext.1
  have hbound := h.bound
  have hbound' := h'.bound
  refine ⟨h'.index, ⟨hle.trans h'.ext.1, ?_⟩, ?_, ?_, ?_, by omega⟩
  · intro i hi
    rw [h'.ext.2 i (by omega), h.ext.2 i hi]
  · intro i hi
    rw [h'.attrs i (by omega), h.attrs i hi]
  · intro i hi
    rw [(h'.labels i (by omega)).1, (h'.labels i (by omega)).2]
    exact h.labels i hi
  · intro i hi hi'
    by_cases hmid : i ≤ s'.NID
    · rw [h'.attrs i hmid, h.fresh i hi hmid]
    · exact h'.fresh i (by omega) hi'

/-- A search with creation leaves the records of the nodes. -/
theorem descend_grown (h : Index s key) (labels : List Text) :
    ∃ s' key' q, dnsnode.descend true labels s = some (s', some q) ∧
      Grown labels.length s key s' key' ∧ 1 ≤ q ∧ q ≤ s'.NID ∧ key' q = labels.map fold := by
  obtain ⟨s', key', q, hd, hidx, hext, h1, hq, hkey, -⟩ := dnsnode.descend_put h labels
  refine ⟨s', key', q, hd, ?_, h1, hq, hkey⟩
  suffices hrest : (∀ i ≤ s.NID, (s'.heap i).n_attr = (s.heap i).n_attr) ∧
      (∀ i ≤ s.NID, (s'.heap i).n_label = (s.heap i).n_label ∧
        (s'.heap i).n_parent = (s.heap i).n_parent) ∧
      (∀ i, s.NID < i → i ≤ s'.NID → (s'.heap i).n_attr = []) ∧ s'.NID ≤ s.NID + labels.length from
    ⟨hidx, hext, hrest.1, hrest.2.1, hrest.2.2.1, hrest.2.2.2⟩
  clear hidx hext h1 hq hkey
  induction labels generalizing s' q with
  | nil =>
    cases hd
    exact ⟨fun _ _ => rfl, fun _ _ => ⟨rfl, rfl⟩, fun _ _ _ => by omega, le_rfl⟩
  | cons label labels ih =>
    obtain ⟨s1, key1, np, hd1, hidx1, hext1, h1, hnp, -, -⟩ := dnsnode.descend_put h labels
    obtain ⟨hattrs, hlabels, hfresh, hbound⟩ := ih s1 np hd1
    unfold dnsnode.descend at hd
    rw [hd1] at hd
    simp only at hd
    rw [List.length_cons]
    rcases hidx1.find h1 hnp label with ⟨q', -, -, -, hf⟩ | ⟨-, hf⟩
    · rw [hf] at hd
      cases hd
      exact ⟨hattrs, hlabels, hfresh, by omega⟩
    · -- one more node
      obtain ⟨s2, hs2, hadded⟩ := dnsnode.addChild_spec hidx1 hnp label
      simp only [hf, if_true, hs2, Option.some.injEq, Prod.mk.injEq] at hd
      obtain ⟨rfl, -⟩ := hd
      have hNID := hadded.NID
      have hle := hext1.1
      have hold : ∀ i ≤ s1.NID, (s2.heap i).n_attr = (s1.heap i).n_attr := by
        intro i hi
        by_cases hinp : i = np
        · rw [hinp, hadded.parent]
        · rw [hadded.other i hinp (by omega)]
      refine ⟨?_, ?_, ?_, by omega⟩
      · intro i hi
        rw [hold i (by omega), hattrs i hi]
      · intro i hi
        obtain ⟨-, hlabel, hparent, -⟩ := @dnsnode.Added.old s1 s2 np label hadded i (by omega)
        rw [hlabel, hparent]
        exact hlabels i hi
      · intro i hi hi'
        by_cases hnew : i = s1.NID + 1
        · rw [hnew, hadded.self]
        · rw [hold i (by omega), hfresh i hi (by omega)]

theorem length_nameLabels (lc lp : Nat) (t : Text) :
    (dnsnode.nameLabels lc lp t).length ≤ MAXLEV - lc := by
  induction lc, lp, t using dnsnode.nameLabels.induct with
  | case1 lc lp =>
    rw [dnsnode.nameLabels]
    exact Nat.zero_le _
  | case2 lc lp c np hlp =>
    rw [dnsnode.nameLabels, if_pos hlp]
    exact Nat.zero_le _
  | case3 lc lp c np hlp hlc =>
    rw [dnsnode.nameLabels, if_neg hlp, if_pos hlc]
    exact Nat.zero_le _
  | case4 lc lp c np hlp hlc label ih =>
    rw [dnsnode.nameLabels, if_neg hlp, if_neg hlc]
    dsimp only
    rw [List.length_cons]
    exact (Nat.succ_le_succ ih).trans (by omega)

/-- Any name can be put. The node is the one for the labels that are read from the name. -/
theorem put_grown (h : Index s key) (t : Text) :
    ∃ s' key' q, dnsnode.DNS_putbyname t s = some (s', q) ∧ Grown MAXLEV s key s' key' ∧
      1 ≤ q ∧ q ≤ s'.NID ∧
      (dnsnode.nameLabels 0 0 t ≠ [[]] → key' q = (dnsnode.nameLabels 0 0 t).map fold) := by
  have hlen := length_nameLabels 0 0 t
  -- the node is marked as a leaf
  have hleaf : ∀ {s1 : Store} {key1 : Nat → List Text} {n q : Nat}, n ≤ MAXLEV →
      Grown n s key s1 key1 → q ≤ s1.NID →
      Grown MAXLEV s key (s1.setNode q { s1.heap q with leaf := true }) key1 ∧
        ((s1.setNode q { s1.heap q with leaf := true }).heap q).n_nid = q := by
    intro s1 key1 n q hn hgrown hq
    have hsame : ∀ i, ((s1.setNode q { s1.heap q with leaf := true }).heap i).n_attr =
          (s1.heap i).n_attr ∧
        ((s1.setNode q { s1.heap q with leaf := true }).heap i).n_label = (s1.heap i).n_label ∧
        ((s1.setNode q { s1.heap q with leaf := true }).heap i).n_parent =
          (s1.heap i).n_parent := by
      intro i
      unfold Store.setNode
      by_cases hi : i = q
      · rw [hi]
        simp
      · simp [Function.update_of_ne hi]
    have hidx : Index (s1.setNode q { s1.heap q with leaf := true }) key1 :=
      Index.setNode hgrown.index ⟨rfl, rfl, rfl, rfl, rfl⟩
    have hbound := hgrown.bound
    refine ⟨⟨hidx, hgrown.ext, ?_, ?_, ?_, ?_⟩, hidx.nid q hq⟩
    · intro i hi
      rw [(hsame i).1, hgrown.attrs i hi]
    · intro i hi
      rw [(hsame i).2.1, (hsame i).2.2]
      exact hgrown.labels i hi
    · intro i hi hi'
      rw [(hsame i).1, hgrown.fresh i hi hi']
    · exact hbound.trans (by omega)
  unfold dnsnode.DNS_putbyname dnsnode.nsearch
  simp only [if_true]
  by_cases hroot : dnsnode.nameLabels 0 0 t = [[]]
  · obtain ⟨hgrown, hnid⟩ := hleaf (Nat.zero_le _) (grown_refl h 0) h.pos
    rw [if_pos hroot]
    refine ⟨_, key, 1, ?_, hgrown, le_rfl, h.pos, fun hne => absurd hroot hne⟩
    change some (_, _) = _
    rw [show dnsnode.TopNode = 1 from rfl, hnid]
  · obtain ⟨s1, key1, q, hd, hg, h1, hq, hkey⟩ := descend_grown h (dnsnode.nameLabels 0 0 t)
    obtain ⟨hgrown, hnid⟩ := hleaf hlen hg hq
    rw [if_neg hroot, hd]
    refine ⟨_, key1, q, ?_, hgrown, h1, hq, fun _ => hkey⟩
    change some (_, _) = _
    rw [hnid]

end Grown

/-! ## Names as labels -/

/-- The labels are the same up to case. -/
def SameLabels (ls ls' : List Bytes) : Prop := ls.map (·.map lower) = ls'.map (·.map lower)

instance instDecidableSameLabels (ls ls' : List Bytes) : Decidable (SameLabels ls ls') :=
  inferInstanceAs (Decidable (_ = _))

/-- Labels that the cache can keep: at most 36, and no label has a dot or a byte 0 in it. -/
def Plain (ls : List Bytes) : Prop :=
  ls.length ≤ MAXLEV ∧ ∀ l ∈ ls, (46 : Octet) ∉ l ∧ (0 : Octet) ∉ l

instance instDecidablePlain (ls : List Bytes) : Decidable (Plain ls) :=
  inferInstanceAs (Decidable (_ ∧ _))

/-- The key of labels in the cache. -/
def keyOfLabels (ls : List Bytes) : List Text := ls.map fun l => fold (toText l)

theorem toLower_toChar (b : Octet) :
    (Char.ofNat b.toNat).toLower = Char.ofNat (lower b).toNat := by
  revert b
  decide +kernel

theorem toByte_toChar (b : Octet) : UInt8.ofNat (Char.ofNat b.toNat).toNat = b := by
  revert b
  decide +kernel

theorem toChar_eq_iff {a b : Octet} : Char.ofNat a.toNat = Char.ofNat b.toNat ↔ a = b := by
  constructor
  · intro h
    rw [← toByte_toChar a, h, toByte_toChar]
  · exact fun h => by rw [h]

theorem fold_toText (l : Bytes) : fold (toText l) = toText (l.map lower) := by
  unfold fold toText
  rw [List.map_map, List.map_map]
  exact List.map_congr_left fun b _ => toLower_toChar b

theorem toBytes_toText (l : Bytes) : toBytes (toText l) = l := by
  unfold toBytes toText
  rw [List.map_map]
  exact (List.map_congr_left fun b _ => toByte_toChar b).trans (List.map_id l)

theorem toText_injective {a b : Bytes} (h : toText a = toText b) : a = b := by
  rw [← toBytes_toText a, ← toBytes_toText b, h]

theorem dot_mem_toText {l : Bytes} : '.' ∈ toText l ↔ (46 : Octet) ∈ l := by
  unfold toText
  rw [List.mem_map]
  constructor
  · rintro ⟨b, hb, h⟩
    rwa [← toChar_eq_iff.mp (show Char.ofNat b.toNat = Char.ofNat (46 : Octet).toNat from h)]
  · exact fun h => ⟨46, h, rfl⟩

/-- Labels have the same key exactly if they are the same up to case. -/
theorem keyOfLabels_eq_iff {ls ls' : List Bytes} :
    keyOfLabels ls = keyOfLabels ls' ↔ SameLabels ls ls' := by
  have hkey : ∀ ls : List Bytes, keyOfLabels ls = (ls.map (·.map lower)).map toText := by
    intro ls
    unfold keyOfLabels
    rw [List.map_map]
    exact List.map_congr_left fun l _ => fold_toText l
  unfold SameLabels
  rw [hkey, hkey]
  constructor
  · exact fun h => List.map_injective_iff.mpr (fun _ _ => toText_injective) h
  · exact fun h => congrArg _ h

section Labels
variable {msg : Msg} {k ssp sp fin : Nat} {ls : List Bytes} {text : Bytes}

/-- The labels of a text are those it was read from. -/
theorem Labels.labelsOf (h : Labels msg k ssp sp ls text fin) (hdot : ∀ l ∈ ls, (46 : Octet) ∉ l) :
    dnsnode.labelsOf (toText text) = ls.map toText := by
  induction h with
  | last _ => rfl
  | pointer _ _ _ ih => exact ih hdot
  | @label k ssp sp ls text fin l hne hle hat hrest ih =>
    have hl : '.' ∉ toText l := fun h => hdot l List.mem_cons_self (dot_mem_toText.mp h)
    have ih := ih fun m hm => hdot m (List.mem_cons_of_mem _ hm)
    by_cases h0 : msg (sp + 1 + l.length) = 0
    · -- the name ends here
      have hnil := hrest.nil h0
      have hne' : toText l ≠ [] := by simpa [toText] using hne
      rw [hnil.1, hnil.2, if_neg (not_not.mpr h0), List.append_nil, List.append_nil]
      unfold dnsnode.labelsOf
      rw [split_of_not_mem hl, if_neg hne']
      rfl
    · have htext : toText (l ++ [46] ++ text) = toText l ++ '.' :: toText text := by
        simp [toText]
      rw [if_pos h0, htext, List.map_cons, ← ih]
      unfold dnsnode.labelsOf
      rw [split_append_sep hl]
      rfl

theorem Labels.length_text (h : Labels msg k ssp sp ls text fin) : text.length ≤ (wire ls).length := by
  induction h with
  | last _ => exact Nat.zero_le _
  | pointer _ _ _ ih => exact ih
  | label l _ _ _ _ ih =>
    rw [wire_cons, List.length_cons, List.length_append, List.length_append, List.length_append]
    split <;> simp only [List.length_singleton, List.length_nil] <;> omega

theorem Labels.lt_fin (h : Labels msg k ssp sp ls text fin) : sp < fin := by
  induction h with
  | last _ => omega
  | pointer _ _ _ _ => omega
  | label l _ _ _ _ ih => omega

end Labels

theorem Labels.text_nil {msg : Msg} {k ssp sp fin : Nat} {text : Bytes}
    (h : Labels msg k ssp sp [] text fin) : text = [] := by
  generalize hls : ([] : List Bytes) = ls at h
  induction h with
  | last _ => rfl
  | pointer _ _ _ ih => exact ih hls
  | label _ _ _ _ _ _ => cases hls

/-! ## Names of messages in the cache -/

/-- The name of up to 255 bytes at `p`, with at most 31 pointers, each to a place before it. -/
structure NameIs (msg : Msg) (p : Nat) (ls : List Bytes) (text : Bytes) (fin : Nat) : Prop where
  labels : Labels msg 31 p p ls text fin
  size : (wire ls).length ≤ 255

section Names
variable {msg : Msg} {p fin : Nat} {ls : List Bytes} {text : Bytes}

theorem NameIs.scan (h : NameIs msg p ls text fin) : (scanNameAt msg p 512).val = (fin, text) := by
  have hlen := h.labels.length_text
  have hsize := h.size
  unfold scanNameAt
  rw [scanName_room (by decide)]
  exact h.labels.scan le_rfl (by omega)

theorem cstr_of_not_mem {b : Bytes} (h : (0 : Octet) ∉ b) : cstr b = b := by
  unfold cstr
  rw [List.takeWhile_eq_self_iff]
  intro c hc
  have hne : c ≠ 0 := fun he => h (he ▸ hc)
  simpa using hne

theorem NameIs.cstr (h : NameIs msg p ls text fin) (hplain : Plain ls) : dns.cstr text = text :=
  cstr_of_not_mem (h.labels.zero fun l hl => (hplain.2 l hl).2)

/-- The labels that `nsearch` takes from the text of a name. -/
theorem NameIs.nameLabels (h : NameIs msg p ls text fin) (hplain : Plain ls) :
    dnsnode.nameLabels 0 0 (toText text) = ls.map toText := by
  have hlabels := h.labels.labelsOf fun l hl => (hplain.2 l hl).1
  by_cases hls : ls = []
  · subst hls
    rw [h.labels.text_nil]
    simp [toText, dnsnode.nameLabels]
  · rw [dnsnode.nameLabels_eq, hlabels]
    unfold dnsnode.Valid
    rw [hlabels]
    refine ⟨by simpa using hls, ?_, by simpa using hplain.1, ?_⟩
    · intro l hl
      obtain ⟨m, hm, rfl⟩ := List.mem_map.mp hl
      simpa [toText] using (h.labels.ok m hm).1
    · have hlen := h.labels.length_text
      have hsize := h.size
      simp only [toText, List.length_map]
      omega

theorem NameIs.not_root (h : NameIs msg p ls text fin) (hplain : Plain ls) :
    dnsnode.nameLabels 0 0 (toText text) ≠ [[]] := by
  rw [h.nameLabels hplain]
  intro hroot
  have hmem : ([] : Text) ∈ ls.map toText := by
    rw [hroot]
    exact List.mem_singleton.mpr rfl
  obtain ⟨l, hl, hnil⟩ := List.mem_map.mp hmem
  exact (h.labels.ok l hl).1 (by simpa [toText] using hnil)

variable {s : Store} {key : Nat → List Text}

theorem NameIs.put (h : NameIs msg p ls text fin) (hplain : Plain ls) (hidx : Index s key) :
    ∃ s' key' q, dnsnode.DNS_putbyname (toText (dns.cstr text)) s = some (s', q) ∧
      Grown MAXLEV s key s' key' ∧ 1 ≤ q ∧ q ≤ s'.NID ∧ key' q = keyOfLabels ls := by
  rw [h.cstr hplain]
  obtain ⟨s', key', q, hput, hgrown, h1, hq, hkey⟩ := put_grown hidx (toText text)
  refine ⟨s', key', q, hput, hgrown, h1, hq, ?_⟩
  rw [hkey (h.not_root hplain), h.nameLabels hplain, List.map_map]
  rfl

theorem NameIs.get (h : NameIs msg p ls text fin) (hplain : Plain ls) (hidx : Index s key) :
    (∃ q, 1 ≤ q ∧ q ≤ s.NID ∧ key q = keyOfLabels ls ∧
        dnsnode.DNS_getbyname (toText text) s = some (s, q)) ∨
      ((∀ q, 1 ≤ q → q ≤ s.NID → key q ≠ keyOfLabels ls) ∧
        dnsnode.DNS_getbyname (toText text) s = some (s, 0)) := by
  have hkey : (ls.map toText).map fold = keyOfLabels ls := List.map_map
  have hroot := h.not_root hplain
  rw [h.nameLabels hplain] at hroot
  unfold dnsnode.DNS_getbyname dnsnode.nsearch
  simp only [h.nameLabels hplain, if_neg hroot]
  rcases dnsnode.descend_get hidx (ls.map toText) with ⟨q, h1, hq, hkq, hd⟩ | ⟨hno, hd⟩
  · refine .inl ⟨q, h1, hq, hkq.trans hkey, ?_⟩
    rw [hd]
    simp [hidx.nid q hq]
  · have hzero : (s.heap dnsnode.NoNode).n_nid = 0 := hidx.nid dnsnode.NoNode (Nat.zero_le _)
    refine .inr ⟨fun q h1 hq hkq => hno q h1 hq (hkq.trans hkey.symm), ?_⟩
    rw [hd]
    simp only [Option.map_some, hzero]

end Names

/-! ## Names of nodes on the wire -/

theorem SameLabels.length {ls ls' : List Bytes} (h : SameLabels ls ls') :
    ls.length = ls'.length := by
  have := congrArg List.length h
  simpa using this

theorem SameLabels.cons {l l' : Bytes} {ls ls' : List Bytes}
    (h : SameLabels (l :: ls) (l' :: ls')) :
    l.map lower = l'.map lower ∧ l.length = l'.length ∧ SameLabels ls ls' := by
  unfold SameLabels at h
  rw [List.map_cons, List.map_cons, List.cons.injEq] at h
  have hlen := congrArg List.length h.1
  exact ⟨h.1, by simpa using hlen, h.2⟩

/-- Labels that are the same up to case take the same room. -/
theorem SameLabels.wire {ls ls' : List Bytes} (h : SameLabels ls ls') :
    (dns.wire ls).length = (dns.wire ls').length := by
  induction ls generalizing ls' with
  | nil => rw [List.eq_nil_of_length_eq_zero h.length.symm]
  | cons l ls ih =>
    cases ls' with
    | nil => cases h.length
    | cons l' ls' =>
      obtain ⟨-, hlen, hrest⟩ := h.cons
      rw [wire_cons, wire_cons, List.length_cons, List.length_cons, List.length_append,
        List.length_append, hlen, ih hrest]

theorem lower_eq_dot (b : Octet) : lower b = 46 ↔ b = 46 := by
  revert b
  decide +kernel

theorem dot_mem_lower {l : Bytes} : (46 : Octet) ∈ l.map lower ↔ (46 : Octet) ∈ l := by
  rw [List.mem_map]
  constructor
  · rintro ⟨b, hb, h⟩
    rwa [← (lower_eq_dot b).mp h]
  · exact fun h => ⟨46, h, rfl⟩

/-- Labels that are the same up to case have the same lengths, and dots in the same places. -/
theorem SameLabels.ok {ls ls' : List Bytes} (h : SameLabels ls ls') (hok : LabelsOk ls')
    (hdot : ∀ l ∈ ls', (46 : Octet) ∉ l) : LabelsOk ls ∧ ∀ l ∈ ls, (46 : Octet) ∉ l := by
  suffices hall : ∀ l ∈ ls, (l ≠ [] ∧ l.length ≤ 63) ∧ (46 : Octet) ∉ l from
    ⟨fun l hl => (hall l hl).1, fun l hl => (hall l hl).2⟩
  intro l hl
  have hmem : l.map lower ∈ ls'.map (·.map lower) := by
    rw [← show ls.map (·.map lower) = ls'.map (·.map lower) from h]
    exact List.mem_map_of_mem hl
  obtain ⟨m, hm, hml⟩ := List.mem_map.mp hmem
  have hlen : m.length = l.length := by simpa using congrArg List.length hml
  obtain ⟨hne, hle⟩ := hok m hm
  refine ⟨⟨?_, hlen ▸ hle⟩, ?_⟩
  · rintro rfl
    exact hne (List.eq_nil_of_length_eq_zero hlen)
  · rw [← dot_mem_lower, ← hml, dot_mem_lower]
    exact hdot m hm

/-- A character that is a byte without its case is a byte. -/
theorem toChar_of_toLower {c : Char} {b : Octet} (h : c.toLower = Char.ofNat b.toNat) :
    Char.ofNat (UInt8.ofNat c.toNat).toNat = c := by
  have hlt : c.toNat < 256 := by
    by_cases hup : c.toNat ≤ 90
    · omega
    · have hlow : c.toLower = c := by
        unfold Char.toLower
        rw [dif_neg]
        intro hboth
        have h90 : c.val.toNat ≤ 90 := hboth.2
        exact hup h90
      rw [← hlow, h]
      clear h
      revert b
      decide +kernel
  rw [UInt8.toNat_ofNat', Nat.mod_eq_of_lt hlt]
  exact Char.ofNat_toNat c

theorem toText_toBytes {l : Text} {m : Bytes} (h : fold l = fold (toText m)) :
    toText (toBytes l) = l := by
  unfold toText toBytes
  rw [List.map_map]
  conv_rhs => rw [← List.map_id l]
  apply List.map_congr_left
  intro c hc
  have hmem : c.toLower ∈ fold (toText m) := by
    rw [← h]
    exact List.mem_map_of_mem hc
  rw [fold_toText] at hmem
  obtain ⟨b, -, hb⟩ := List.mem_map.mp hmem
  exact toChar_of_toLower hb.symm

theorem joinDots_toText (ls : List Bytes) :
    dnsnode.joinDots (ls.map toText) = toText (dotted ls) := by
  induction ls with
  | nil => rfl
  | cons l ls ih =>
    cases ls with
    | nil => rfl
    | cons m ls =>
      rw [List.map_cons, dnsnode.joinDots_cons (by simp), ih, dotted]
      simp [toText]

/-- The labels of a node are bytes, and the same as those it was put with up to case. -/
theorem labels_of_key {lsT : List Text} {ls : List Bytes} (h : lsT.map fold = keyOfLabels ls) :
    ∃ ls', lsT = ls'.map toText ∧ SameLabels ls' ls := by
  have htext : lsT = (lsT.map toBytes).map toText := by
    rw [List.map_map]
    conv_lhs => rw [← List.map_id lsT]
    apply List.map_congr_left
    intro l hl
    have hmem : fold l ∈ keyOfLabels ls := by
      rw [← h]
      exact List.mem_map_of_mem hl
    obtain ⟨m, -, hm⟩ := List.mem_map.mp hmem
    exact (toText_toBytes hm.symm).symm
  refine ⟨lsT.map toBytes, htext, ?_⟩
  rw [← keyOfLabels_eq_iff, ← h]
  conv_rhs => rw [htext, List.map_map]
  rfl

/-- The root is a node without a label. -/
structure TopIs (s : Store) : Prop where
  label : (s.heap dnsnode.TopNode).n_label = []
  parent : (s.heap dnsnode.TopNode).n_parent = none

/-- The name of a node is put as the labels that it stands for, up to case. -/
theorem putName_nodename {s : Store} {key : Nat → List Text} (hidx : Index s key)
    (htop : TopIs s) {q : Nat} (h1 : 1 ≤ q) (hq : q ≤ s.NID) {ls : List Bytes}
    (hkey : key q = keyOfLabels ls) (hok : LabelsOk ls) (hplain : Plain ls)
    (hsize : (wire ls).length ≤ 255) :
    ∃ t ls', dnsnode.DNS_nodename s q 512 = some t ∧ putName (toBytes t) = wire ls' ∧
      SameLabels ls' ls := by
  have hnext := hidx.next
  by_cases hroot : q = 1
  · have hls : ls = [] := by
      rw [hroot] at hkey
      have hnil := hidx.top.symm.trans hkey
      exact List.map_eq_nil_iff.mp hnil.symm
    refine ⟨['.'], [], ?_, ?_, by rw [hls]; rfl⟩
    · unfold dnsnode.DNS_nodename
      rw [hidx.getnode hq, hroot, hnext]
      unfold dnsnode.getnodename
      rw [show (s.heap 1).n_parent = none from htop.parent,
        show (s.heap 1).n_label = [] from htop.label]
      rfl
    · have hdot : toBytes ['.'] = [46] := rfl
      rw [hdot, putName, if_pos rfl]
      rfl
  · obtain ⟨lsT, hlsT, hname⟩ := hidx.getnodename (show 1 < q by omega) hq
      (show q ≤ s.next by omega)
    obtain ⟨ls', rfl, hsame⟩ := labels_of_key (hlsT.trans hkey)
    obtain ⟨hok', hdot'⟩ := hsame.ok hok fun l hl => (hplain.2 l hl).1
    rw [joinDots_toText] at hname
    have hlen := length_dotted ls'
    have hwire := hsame.wire
    refine ⟨toText (dotted ls'), ls', ?_, ?_, hsame⟩
    · unfold dnsnode.DNS_nodename
      rw [hidx.getnode hq, hname, Option.map_some, List.take_of_length_le]
      simp only [toText, List.length_map]
      omega
    · rw [toBytes_toText]
      have hput := putName_hostName hok' hdot' false
      simpa [hostName] using hput

end delegate.dns
