-- The hash tables (`hash.cpp`): open addressing with `elfhash`, in a list of
-- tables that grows by 16.
import Delegate.Probing
import Mathlib.Data.List.Dedup
import Mathlib.Data.List.Induction
import Mathlib.Data.List.Perm.Subperm
import Mathlib.Tactic.Linarith

open probing

namespace delegate.hash

/-! ## The pure model -/

/-- The bytes of a key before its end. -/
abbrev Key := List UInt8

/-- The data are pointers, and they are compared as pointers. The array has the size of the
table. -/
structure HTable (D : Type) where
  ht_array : List (Option (Key × D))
  ht_nulval : D
  ht_acc : Nat := 0
  ht_col : Nat := 0

/-- One byte in `elfhash`. -/
def elfstep (kx : UInt64) (c : UInt8) : UInt64 :=
  let kx := (kx <<< 4) + c.toUInt64
  let g := kx &&& 0xF0000000
  let kx := if g ≠ 0 then kx ^^^ (g >>> 24) else kx
  kx &&& ~~~g

def elfhash (key : Key) : UInt64 := key.foldl elfstep 0

/-- `index1`, in an `unsigned int`. -/
def index1 (key : Key) : Nat := (elfhash key).toUInt32.toNat

/-- `ht_list`, with `ht_size` entries. -/
abbrev Tables (D : Type) := List (Option (HTable D))

section Model
variable {D : Type} [DecidableEq D]

/-- The id of an entry without a table, or 0. -/
def new_ht (l : Tables D) : Nat :=
  ((List.range' 1 (l.length - 1)).find? fun htid => (l.getD htid none).isNone).getD 0

def expand_hts (l : Tables D) : Tables D := l ++ List.replicate 16 none

/-- `Hcreate`: the tables and the id. -/
def Hcreate (nelem : Nat) (nulval : D) (l : Tables D) : Tables D × Nat :=
  let l := if new_ht l = 0 then expand_hts l else l
  let htid := new_ht l
  (l.set htid (some { ht_array := List.replicate nelem none, ht_nulval := nulval }), htid)

/-- The loop of `Hsearch`, with `kn` rounds left: the slot where it ends, and the collisions. -/
def searchLoop (a : List (Option (Key × D))) (key : Key) : Nat → Nat → Nat → Option Nat × Nat
  | 0, _, col => (none, col)
  | kn + 1, kx, col =>
    let kx := if a.length ≤ kx then kx % a.length else kx
    match slot a kx with
    | none => (some kx, col)
    | some he => if he.1 = key then (some kx, col)
      else searchLoop a key kn ((kx + 1) % 2 ^ 32) (col + 1)

/-- `Hsearch` in a table: the table and the data. -/
def HTable.search (ht : HTable D) (key : Key) (data : D) : HTable D × D :=
  let r := searchLoop ht.ht_array key ht.ht_array.length (index1 key) ht.ht_col
  let ht := { ht with ht_acc := ht.ht_acc + 1, ht_col := r.2 }
  match r.1 with
  | none => (ht, ht.ht_nulval)
  | some kx =>
    match slot ht.ht_array kx with
    | none =>
      if data = ht.ht_nulval then (ht, ht.ht_nulval)
      else ({ ht with ht_array := ht.ht_array.set kx (some (key, data)) }, data)
    | some he =>
      if data ≠ ht.ht_nulval then
        ({ ht with ht_array := ht.ht_array.set kx (some (he.1, data)) }, data)
      else (ht, he.2)

/-- `Hsearch`. There is no table for an id below 1. -/
def Hsearch (htid : Int) (key : Key) (data : D) (l : Tables D) : Tables D × Option D :=
  if htid ≤ 0 then (l, none)
  else match l.getD htid.toNat none with
    | none => (l, none)
    | some ht => (l.set htid.toNat (some (ht.search key data).1), some (ht.search key data).2)

/-- The loop of `Hnext`: the first entry from `kx` on. -/
def nextFrom (a : List (Option (Key × D))) (kx : Nat) : Option (Nat × Key × D) :=
  if _h : kx < a.length then
    match slot a kx with
    | some he => some (kx, he)
    | none => nextFrom a (kx + 1)
  else none
termination_by a.length - kx

/-- `Hnext`: the index, the key and the data. There is none for the value -1. -/
def Hnext (htid kx : Int) (l : Tables D) : Option (Nat × Key × D) :=
  if htid ≤ 0 then none
  else match l.getD htid.toNat none with
    | none => none
    | some ht => nextFrom ht.ht_array (if kx < 0 then 0 else kx.toNat + 1)

/-- The keys and data that a loop over `Hnext` meets, if it ends within `n` rounds. -/
def visit (htid : Int) (l : Tables D) : Nat → Int → Option (List (Key × D))
  | 0, _ => none
  | n + 1, kx =>
    match Hnext htid kx l with
    | none => some []
    | some (kx, he) => (visit htid l n kx).map (he :: ·)

inductive Call (D : Type)
  | create (nelem : Nat) (nulval : D)
  | search (htid : Int) (key : Key) (data : D)

def step (l : Tables D) : Call D → Tables D × Option D
  | .create nelem nulval => ((Hcreate nelem nulval l).1, none)
  | .search htid key data => Hsearch htid key data l

/-- A run of calls, with what each one returns. -/
def run (l : Tables D) : List (Call D) → Tables D × List (Option D)
  | [] => (l, [])
  | c :: cs => ((run (step l c).1 cs).1, (step l c).2 :: (run (step l c).1 cs).2)

end Model

/-! ## The loop is a probe -/

section Loop
variable {D : Type} {a : List (Option (Key × D))} {key : Key}

theorem searchLoop_probe (hsize : a.length < 2 ^ 31) (hpos : 0 < a.length) (h kn j kx col : Nat)
    (hkx : kx % a.length = (h + j) % a.length) :
    (searchLoop a key kn kx col).1 = probe a h key kn j := by
  induction kn generalizing j kx col with
  | zero => rfl
  | succ kn ih =>
    have hmod : (if a.length ≤ kx then kx % a.length else kx) = (h + j) % a.length := by
      rw [← hkx]
      split
      · rfl
      · exact (Nat.mod_eq_of_lt (by omega)).symm
    unfold searchLoop probe
    simp only [hmod]
    cases slot a ((h + j) % a.length) with
    | none => rfl
    | some he =>
      simp only
      split
      · rfl
      · apply ih
        have hlt := Nat.mod_lt (h + j) hpos
        have hsmall : ((h + j) % a.length + 1) % 2 ^ 32 = (h + j) % a.length + 1 :=
          Nat.mod_eq_of_lt (by omega)
        rw [hsmall, ← Nat.add_assoc, Nat.mod_add_mod]

end Loop

/-! ## A table as a map -/

/-- The table of `n` slots holds the map: no data are the value for nothing. -/
structure Holds {D : Type} (n : Nat) (nul : D) (ht : HTable D) (m : Key → Option D) : Prop where
  chained : Chained index1 ht.ht_array
  size : ht.ht_array.length = n
  small : n < 2 ^ 31
  nulval : ht.ht_nulval = nul
  entries : ∀ key d, m key = some d ↔ ∃ i, slot ht.ht_array i = some (key, d)
  value : ∀ key, m key ≠ some nul

section Table
variable {D : Type} {n : Nat} {nul : D} {ht : HTable D} {m : Key → Option D}

theorem holds_create (hn : 1 ≤ n) (hint : n < 2 ^ 31) (nul : D) :
    Holds n nul { ht_array := List.replicate n none, ht_nulval := nul } fun _ => none where
  chained := chained_empty _ hn
  size := List.length_replicate
  small := hint
  nulval := rfl
  entries := by
    intro key d
    constructor
    · intro h
      cases h
    · rintro ⟨i, hi⟩
      rw [slot_eq_some, List.getElem?_replicate] at hi
      split at hi <;> cases hi
  value := fun _ h => by cases h

theorem Holds.absent (h : Holds n nul ht m) {key : Key} (hkey : m key = none) :
    Absent ht.ht_array key := by
  intro i e he hek
  have hm := (h.entries e.1 e.2).mpr ⟨i, he⟩
  rw [hek, hkey] at hm
  cases hm

theorem Holds.loop (h : Holds n nul ht m) (key : Key) (col : Nat) :
    (searchLoop ht.ht_array key ht.ht_array.length (index1 key) col).1 =
      probe ht.ht_array (index1 key) key ht.ht_array.length 0 :=
  searchLoop_probe (by rw [h.size]; exact h.small) h.chained.pos _ _ _ _ _ rfl

/-- The array with other data in the slot of the probe holds the map with these data. -/
theorem Holds.set (h : Holds n nul ht m) {key : Key} {i : Nat}
    (hp : probe ht.ht_array (index1 key) key ht.ht_array.length 0 = some i)
    (hi : i < ht.ht_array.length)
    (hslot : ∀ e, slot ht.ht_array i = some e → e.1 = key) {data : D} (hdata : data ≠ nul)
    (acc col : Nat) :
    Holds n nul ⟨ht.ht_array.set i (some (key, data)), ht.ht_nulval, acc, col⟩
      (Function.update m key (some data)) := by
  refine ⟨h.chained.set hp data, by rw [List.length_set]; exact h.size, h.small, h.nulval, ?_, ?_⟩
  · intro key' d
    by_cases hk : key' = key
    · subst hk
      rw [Function.update_self]
      constructor
      · intro hd
        cases hd
        exact ⟨i, by rw [slot_set _ _ hi, if_pos rfl]⟩
      · rintro ⟨j, hj⟩
        rw [slot_set _ _ hi] at hj
        split at hj
        · cases hj
          rfl
        · rename_i hij
          -- the key was in the slot that the probe gives
          have hstored := h.chained.probe_stored hj
          rw [hp] at hstored
          exact absurd (Option.some.inj hstored) hij
    · rw [Function.update_of_ne hk, h.entries]
      constructor
      · rintro ⟨j, hj⟩
        refine ⟨j, ?_⟩
        rw [slot_set _ _ hi, if_neg]
        · exact hj
        · rintro rfl
          exact hk (hslot _ hj)
      · rintro ⟨j, hj⟩
        rw [slot_set _ _ hi] at hj
        split at hj
        · cases hj
          exact absurd rfl hk
        · exact ⟨j, hj⟩
  · intro key' hd
    by_cases hk : key' = key
    · rw [hk, Function.update_self, Option.some.injEq] at hd
      exact hdata hd
    · rw [Function.update_of_ne hk] at hd
      exact h.value key' hd

/-- A change of the counters. -/
theorem Holds.counters (h : Holds n nul ht m) (acc col : Nat) :
    Holds n nul { ht with ht_acc := acc, ht_col := col } m :=
  ⟨h.chained, h.size, h.small, h.nulval, h.entries, h.value⟩

variable [DecidableEq D]

/-- What `Hsearch` does where the probe ends. -/
theorem Holds.search_eq (h : Holds n nul ht m) (key : Key) (data : D) :
    ∃ col, ht.search key data =
      match probe ht.ht_array (index1 key) key ht.ht_array.length 0 with
      | none => (⟨ht.ht_array, ht.ht_nulval, ht.ht_acc + 1, col⟩, nul)
      | some kx =>
        match slot ht.ht_array kx with
        | none =>
          if data = nul then (⟨ht.ht_array, ht.ht_nulval, ht.ht_acc + 1, col⟩, nul)
          else (⟨ht.ht_array.set kx (some (key, data)), ht.ht_nulval, ht.ht_acc + 1, col⟩, data)
        | some he =>
          if data ≠ nul then
            (⟨ht.ht_array.set kx (some (he.1, data)), ht.ht_nulval, ht.ht_acc + 1, col⟩, data)
          else (⟨ht.ht_array, ht.ht_nulval, ht.ht_acc + 1, col⟩, he.2) := by
  refine ⟨(searchLoop ht.ht_array key ht.ht_array.length (index1 key) ht.ht_col).2, ?_⟩
  rw [← h.loop key ht.ht_col, ← h.nulval]
  rfl

/-- A lookup gives the data of the key, and leaves the array. -/
theorem Holds.lookup (h : Holds n nul ht m) (key : Key) :
    (ht.search key nul).2 = (m key).getD nul ∧ (ht.search key nul).1.ht_array = ht.ht_array ∧
      Holds n nul (ht.search key nul).1 m := by
  obtain ⟨col, hsearch⟩ := h.search_eq key nul
  rw [hsearch]
  cases hm : m key with
  | some d =>
    obtain ⟨i, hi⟩ := (h.entries key d).mp hm
    have hp := h.chained.probe_stored hi
    dsimp only at hp
    rw [hp]
    dsimp only
    rw [hi]
    dsimp only
    rw [if_neg (fun hne => hne rfl)]
    exact ⟨rfl, rfl, h.counters _ _⟩
  | none =>
    rcases h.chained.probe_absent (h.absent hm) with ⟨i, -, hp, hi⟩ | ⟨hp, -⟩
    · rw [hp]
      dsimp only
      rw [hi]
      dsimp only
      rw [if_pos rfl]
      exact ⟨rfl, rfl, h.counters _ _⟩
    · rw [hp]
      exact ⟨rfl, rfl, h.counters _ _⟩

/-- The data of a key are replaced, and a new key gets a free slot if there is one. -/
theorem Holds.insert (h : Holds n nul ht m) (key : Key) {data : D} (hdata : data ≠ nul)
    (hfree : m key ≠ none ∨ ht.ht_array.reduceOption.length ≠ n) :
    (ht.search key data).2 = data ∧
      Holds n nul (ht.search key data).1 (Function.update m key (some data)) := by
  obtain ⟨col, hsearch⟩ := h.search_eq key data
  rw [hsearch]
  cases hm : m key with
  | some d =>
    obtain ⟨i, hi⟩ := (h.entries key d).mp hm
    have hp := h.chained.probe_stored hi
    dsimp only at hp
    rw [hp]
    dsimp only
    rw [hi]
    dsimp only
    rw [if_pos hdata]
    refine ⟨rfl, h.set hp (slot_lt hi) ?_ hdata _ _⟩
    intro e he
    rw [hi] at he
    cases he
    rfl
  | none =>
    rcases h.chained.probe_absent (h.absent hm) with ⟨i, hlt, hp, hi⟩ | ⟨-, hfull⟩
    · rw [hp]
      dsimp only
      rw [hi]
      dsimp only
      rw [if_neg hdata]
      refine ⟨rfl, h.set hp hlt ?_ hdata _ _⟩
      intro e he
      rw [hi] at he
      cases he
    · rw [hm, ← h.size, ← full_iff.mpr hfull] at hfree
      exact absurd hfree (by simp)

/-- A new key finds no slot in a full table. -/
theorem Holds.full (h : Holds n nul ht m) {key : Key} (hkey : m key = none)
    (hfull : ht.ht_array.reduceOption.length = n) (data : D) :
    (ht.search key data).2 = nul ∧ (ht.search key data).1.ht_array = ht.ht_array ∧
      Holds n nul (ht.search key data).1 m := by
  obtain ⟨col, hsearch⟩ := h.search_eq key data
  rw [hsearch]
  rcases h.chained.probe_absent (h.absent hkey) with ⟨i, hlt, -, hi⟩ | ⟨hp, -⟩
  · rw [← h.size, full_iff] at hfull
    exact absurd hi (hfull i hlt)
  · rw [hp]
    exact ⟨rfl, rfl, h.counters _ _⟩

/-! ## Runs of one table -/

/-- The calls of a run on one table. -/
def HTable.run (ht : HTable D) : List (Key × D) → HTable D × List D
  | [] => (ht, [])
  | (key, data) :: ops =>
    let r := ht.search key data
    ((r.1.run ops).1, r.2 :: (r.1.run ops).2)

/-- The data of the latest insert of the key. -/
def latest (nul : D) (key : Key) (ops : List (Key × D)) : Option D :=
  (ops.reverse.find? fun op => decide (op.1 = key ∧ op.2 ≠ nul)).map Prod.snd

/-- The keys that are inserted. -/
def inserted (nul : D) (ops : List (Key × D)) : List Key :=
  (ops.filter fun op => decide (op.2 ≠ nul)).map Prod.fst

theorem latest_append (nul : D) (key : Key) (ops : List (Key × D)) (op : Key × D) :
    latest nul key (ops ++ [op]) =
      if op.1 = key ∧ op.2 ≠ nul then some op.2 else latest nul key ops := by
  unfold latest
  rw [List.reverse_append, List.reverse_singleton, List.singleton_append, List.find?_cons]
  by_cases h : op.1 = key ∧ op.2 ≠ nul
  · simp [h]
  · rw [if_neg h, decide_eq_false h]

theorem latest_isSome {nul : D} {key : Key} {ops : List (Key × D)} :
    latest nul key ops ≠ none ↔ key ∈ inserted nul ops := by
  unfold latest inserted
  rw [ne_eq, Option.map_eq_none_iff, List.find?_eq_none]
  simp only [List.mem_reverse, decide_eq_true_eq, List.mem_map, List.mem_filter]
  constructor
  · intro h
    push Not at h
    obtain ⟨op, hop, hkey, hdata⟩ := h
    exact ⟨op, ⟨hop, hdata⟩, hkey⟩
  · rintro ⟨op, ⟨hop, hdata⟩, hkey⟩ hall
    exact hall op hop ⟨hkey, hdata⟩

theorem run_append (ht : HTable D) (ops : List (Key × D)) (op : Key × D) :
    ht.run (ops ++ [op]) =
      (((ht.run ops).1.search op.1 op.2).1,
        (ht.run ops).2 ++ [((ht.run ops).1.search op.1 op.2).2]) := by
  induction ops generalizing ht with
  | nil => rfl
  | cons op' ops ih =>
    rw [List.cons_append]
    unfold HTable.run
    dsimp only
    rw [ih]
    rfl

/-- A map of the entries in a table, whatever was put. -/
theorem Holds.run (h : Holds n nul ht m) (ops : List (Key × D)) :
    ∃ m', Holds n nul (ht.run ops).1 m' := by
  induction ops generalizing ht m with
  | nil => exact ⟨m, h⟩
  | cons op ops ih =>
    obtain ⟨key, data⟩ := op
    unfold HTable.run
    dsimp only
    by_cases hdata : data = nul
    · subst hdata
      exact ih (h.lookup key).2.2
    · by_cases hfree : m key ≠ none ∨ ht.ht_array.reduceOption.length ≠ n
      · exact ih (h.insert key hdata hfree).2
      · push Not at hfree
        exact ih (h.full hfree.1 hfree.2 data).2.2

omit [DecidableEq D] in
/-- There is room for one more key, while there are no more keys than slots. -/
theorem Holds.room_of_keys (h : Holds n nul ht m) {keys : List Key}
    (hm : ∀ k, m k ≠ none → k ∈ keys) {key : Key}
    (hkeys : (keys ++ [key]).dedup.length ≤ n) :
    m key ≠ none ∨ ht.ht_array.reduceOption.length ≠ n := by
  by_contra hno
  push Not at hno
  obtain ⟨hkey, hfull⟩ := hno
  have hstored : ∀ k ∈ ht.ht_array.reduceOption.map Prod.fst, m k ≠ none := by
    intro k hk
    obtain ⟨e, he, rfl⟩ := List.mem_map.mp hk
    rw [(h.entries e.1 e.2).mpr (mem_entries.mp he)]
    exact Option.some_ne_none _
  have hnew : key ∉ ht.ht_array.reduceOption.map Prod.fst := fun hk => hstored key hk hkey
  have hsub : key :: ht.ht_array.reduceOption.map Prod.fst ⊆ (keys ++ [key]).dedup := by
    intro k hk
    rw [List.mem_dedup, List.mem_append]
    rcases List.mem_cons.mp hk with rfl | hk
    · exact .inr (List.mem_singleton.mpr rfl)
    · exact .inl (hm k (hstored k hk))
  have hnodup : (key :: ht.ht_array.reduceOption.map Prod.fst).Nodup :=
    List.nodup_cons.mpr ⟨hnew, h.chained.nodup⟩
  have hle := (List.subperm_of_subset hnodup hsub).length_le
  rw [List.length_cons, List.length_map] at hle
  omega

theorem Holds.room (h : Holds n nul ht m) {ops : List (Key × D)}
    (hm : m = fun key => latest nul key ops) {key : Key} {data : D} (hdata : data ≠ nul)
    (hkeys : (inserted nul (ops ++ [(key, data)])).dedup.length ≤ n) :
    m key ≠ none ∨ ht.ht_array.reduceOption.length ≠ n := by
  have hins : inserted nul (ops ++ [(key, data)]) = inserted nul ops ++ [key] := by
    simp [inserted, List.filter_append, hdata]
  rw [hins] at hkeys
  refine h.room_of_keys (fun k hk => ?_) hkeys
  rw [hm] at hk
  exact latest_isSome.mp hk

/-- With no more keys than slots, the table holds the latest data of each key. -/
theorem Holds.run_latest (h : Holds n nul ht fun _ => none) (ops : List (Key × D))
    (hkeys : (inserted nul ops).dedup.length ≤ n) :
    Holds n nul (ht.run ops).1 fun key => latest nul key ops := by
  induction ops using List.reverseRecOn with
  | nil => exact h
  | append_singleton ops op ih =>
    obtain ⟨key, data⟩ := op
    have hsub : inserted nul ops ⊆ inserted nul (ops ++ [(key, data)]) := by
      unfold inserted
      rw [List.filter_append, List.map_append]
      exact List.subset_append_left _ _
    have hfew : (inserted nul ops).dedup.length ≤ n :=
      ((List.subperm_of_subset (List.nodup_dedup _) fun k hk =>
        List.mem_dedup.mpr (hsub (List.mem_dedup.mp hk))).length_le).trans hkeys
    have ih := ih hfew
    rw [run_append]
    dsimp only
    by_cases hdata : data = nul
    · subst hdata
      have hsame : (fun k => latest data k (ops ++ [(key, data)])) = fun k => latest data k ops := by
        funext k
        rw [latest_append, if_neg (fun hand => hand.2 rfl)]
      rw [hsame]
      exact (ih.lookup key).2.2
    · have hupdate : (fun k => latest nul k (ops ++ [(key, data)])) =
          Function.update (fun k => latest nul k ops) key (some data) := by
        funext k
        rw [latest_append]
        by_cases hk : k = key
        · rw [hk, Function.update_self, if_pos ⟨rfl, hdata⟩]
        · rw [Function.update_of_ne hk, if_neg (fun hand => hk hand.1.symm)]
      rw [hupdate]
      exact (ih.insert key hdata (ih.room rfl hdata hkeys)).2

end Table

/-! ## The loop over `Hnext` -/

section Next
variable {D : Type}

/-- The entries from the slot `kx` on. -/
def entriesFrom (a : List (Option (Key × D))) (kx : Nat) : List (Key × D) :=
  (a.drop kx).reduceOption

theorem nextFrom_spec (a : List (Option (Key × D))) (kx : Nat) :
    (nextFrom a kx = none ∧ entriesFrom a kx = []) ∨
      ∃ j he, nextFrom a kx = some (j, he) ∧ kx ≤ j ∧ j < a.length ∧
        entriesFrom a kx = he :: entriesFrom a (j + 1) := by
  induction kx using nextFrom.induct a with
  | case1 kx hlt he hs =>
    have hget : a[kx] = some he := by
      rw [slot_eq_some, List.getElem?_eq_getElem hlt, Option.some.injEq] at hs
      exact hs
    refine .inr ⟨kx, he, ?_, le_rfl, hlt, ?_⟩
    · rw [nextFrom, dif_pos hlt, hs]
    · unfold entriesFrom
      rw [List.drop_eq_getElem_cons hlt, hget, List.reduceOption_cons_of_some]
  | case2 kx hlt hs ih =>
    have hget : a[kx] = none := by
      unfold slot at hs
      rwa [List.getD_eq_getElem?_getD, List.getElem?_eq_getElem hlt, Option.getD_some] at hs
    have hnext : nextFrom a kx = nextFrom a (kx + 1) := by
      rw [nextFrom, dif_pos hlt, hs]
    have hent : entriesFrom a kx = entriesFrom a (kx + 1) := by
      unfold entriesFrom
      rw [List.drop_eq_getElem_cons hlt, hget, List.reduceOption_cons_of_none]
    rw [hnext, hent]
    rcases ih with hnone | ⟨j, he, hj, hle, hlen, hrest⟩
    · exact .inl hnone
    · exact .inr ⟨j, he, hj, by omega, hlen, hrest⟩
  | case3 kx hlt =>
    refine .inl ⟨by rw [nextFrom, dif_neg hlt], ?_⟩
    unfold entriesFrom
    rw [List.drop_eq_nil_of_le (by omega)]
    rfl

/-- The loop meets the entries of the table in their order. -/
theorem visit_entries {l : Tables D} {htid : Int} {ht : HTable D} (hid : 0 < htid)
    (hget : l.getD htid.toNat none = some ht) (fuel : Nat) (kx : Int) (i : Nat)
    (hi : (if kx < 0 then 0 else kx.toNat + 1) = i) (hfuel : ht.ht_array.length - i < fuel) :
    visit htid l fuel kx = some (entriesFrom ht.ht_array i) := by
  induction fuel generalizing kx i with
  | zero => omega
  | succ fuel ih =>
    have hnext : Hnext htid kx l = nextFrom ht.ht_array i := by
      unfold Hnext
      rw [if_neg (not_le.mpr hid), hget, hi]
    unfold visit
    rw [hnext]
    rcases nextFrom_spec ht.ht_array i with ⟨hnone, hnil⟩ | ⟨j, he, hj, hle, hlen, hrest⟩
    · rw [hnone, hnil]
    · rw [hj, hrest]
      dsimp only
      rw [ih j (j + 1) (by rw [if_neg (by omega), Int.toNat_natCast]) (by omega)]
      rfl

end Next

/-! ## Runs of all tables -/

section Tables
variable {D : Type}

theorem new_ht_spec (l : Tables D) :
    (new_ht l = 0 ∧ ∀ i, 1 ≤ i → i < l.length → l.getD i none ≠ none) ∨
      (1 ≤ new_ht l ∧ new_ht l < l.length ∧ l.getD (new_ht l) none = none) := by
  unfold new_ht
  cases hf : (List.range' 1 (l.length - 1)).find? fun htid => (l.getD htid none).isNone with
  | none =>
    refine .inl ⟨rfl, ?_⟩
    intro i h1 hi hnone
    rw [List.find?_eq_none] at hf
    have hmem : i ∈ List.range' 1 (l.length - 1) := by
      rw [List.mem_range'_1]
      omega
    exact hf i hmem (by rw [hnone]; rfl)
  | some i =>
    have hmem := List.mem_of_find?_eq_some hf
    have hnone := List.find?_some hf
    rw [List.mem_range'_1] at hmem
    rw [Option.isNone_iff_eq_none] at hnone
    exact .inr ⟨hmem.1, by simp only [Option.getD_some]; omega, hnone⟩

theorem getD_expand (l : Tables D) (i : Nat) : (expand_hts l).getD i none = l.getD i none := by
  unfold expand_hts
  rw [List.getD_eq_getElem?_getD, List.getD_eq_getElem?_getD, List.getElem?_append]
  split
  · rfl
  · rename_i hi
    have hnone : l[i]? = none := List.getElem?_eq_none (by omega)
    rw [hnone, List.getElem?_replicate]
    split <;> rfl

theorem lt_of_getD {l : Tables D} {i : Nat} {ht : HTable D} (h : l.getD i none = some ht) :
    i < l.length := by
  by_contra hle
  rw [List.getD_eq_getElem?_getD, List.getElem?_eq_none (by omega)] at h
  cases h

theorem getD_set (l : Tables D) {i : Nat} (hi : i < l.length) (x : Option (HTable D)) (j : Nat) :
    (l.set i x).getD j none = if i = j then x else l.getD j none := by
  rw [List.getD_eq_getElem?_getD, List.getD_eq_getElem?_getD, List.getElem?_set]
  by_cases hij : i = j
  · rw [if_pos hij, if_pos hij, if_pos (hij ▸ hi)]
    rfl
  · rw [if_neg hij, if_neg hij]

/-- A new table gets an id that has none, and the other tables stay. -/
theorem Hcreate_spec (nelem : Nat) (nul : D) (l : Tables D) :
    1 ≤ (Hcreate nelem nul l).2 ∧ l.getD (Hcreate nelem nul l).2 none = none ∧
      ∀ i, (Hcreate nelem nul l).1.getD i none = if (Hcreate nelem nul l).2 = i then
        some { ht_array := List.replicate nelem none, ht_nulval := nul } else l.getD i none := by
  unfold Hcreate
  dsimp only
  by_cases hzero : new_ht l = 0
  · rw [if_pos hzero]
    rcases new_ht_spec (expand_hts l) with ⟨-, hall⟩ | ⟨h1, hlt, hnone⟩
    · -- the new part of the list has no table
      have hlen : (expand_hts l).length = l.length + 16 := by
        unfold expand_hts
        rw [List.length_append, List.length_replicate]
      have hne := hall (l.length + 1) (by omega) (by omega)
      rw [getD_expand] at hne
      obtain ⟨ht, hht⟩ := Option.ne_none_iff_exists'.mp hne
      have hlt := lt_of_getD hht
      omega
    · rw [getD_expand] at hnone
      refine ⟨h1, hnone, ?_⟩
      intro i
      rw [getD_set _ hlt, getD_expand]
  · rw [if_neg hzero]
    rcases new_ht_spec l with ⟨heq, -⟩ | ⟨h1, hlt, hnone⟩
    · exact absurd heq hzero
    · exact ⟨h1, hnone, getD_set _ hlt _⟩

/-- The call for one table. -/
def Call.own (htid : Nat) : Call D → Option (Key × D)
  | .create _ _ => none
  | .search id key data => if id = htid then some (key, data) else none

theorem own_search (htid : Nat) (id : Int) (key : Key) (data : D) :
    (Call.search id key data).own htid = if id = htid then some (key, data) else none := rfl

/-- The table of an id. -/
def tableOf (l : Tables D) (htid : Nat) : List (Option (Key × D)) :=
  ((l.getD htid none).map HTable.ht_array).getD []

theorem tableOf_eq {l : Tables D} {htid : Nat} {ht : HTable D} (h : l.getD htid none = some ht) :
    tableOf l htid = ht.ht_array := by
  unfold tableOf
  rw [h]
  rfl

variable [DecidableEq D]

theorem run_cons (l : Tables D) (c : Call D) (cs : List (Call D)) :
    run l (c :: cs) = ((run (step l c).1 cs).1, (step l c).2 :: (run (step l c).1 cs).2) := rfl

theorem Hsearch_other {id : Int} {htid : Nat} (hne : id ≠ htid) (key : Key) (data : D)
    (l : Tables D) : (Hsearch id key data l).1.getD htid none = l.getD htid none := by
  unfold Hsearch
  split
  · rfl
  · split
    · rfl
    · rename_i ht hht
      rw [getD_set _ (lt_of_getD hht), if_neg (by omega)]

/-- A call leaves the other tables. -/
theorem step_other {l : Tables D} {c : Call D} {htid : Nat} (hc : c.own htid = none)
    {ht : HTable D} (hget : l.getD htid none = some ht) :
    (step l c).1.getD htid none = some ht := by
  cases c with
  | create nelem nul =>
    obtain ⟨-, hnone, hall⟩ := Hcreate_spec nelem nul l
    change (Hcreate nelem nul l).1.getD htid none = _
    rw [hall, if_neg, hget]
    rintro rfl
    rw [hget] at hnone
    cases hnone
  | search id key data =>
    have hne : id ≠ htid := by
      intro heq
      rw [own_search, if_pos heq] at hc
      cases hc
    exact (Hsearch_other hne key data l).trans hget

/-- A call for the table is one of its own run. -/
theorem step_own {l : Tables D} {htid : Nat} (hid : 1 ≤ htid) {ht : HTable D}
    (hget : l.getD htid none = some ht) (key : Key) (data : D) :
    (step l (.search htid key data)).1.getD htid none = some (ht.search key data).1 ∧
      (step l (.search htid key data)).2 = some (ht.search key data).2 := by
  have hlt := lt_of_getD hget
  change (Hsearch htid key data l).1.getD htid none = _ ∧ (Hsearch htid key data l).2 = _
  unfold Hsearch
  rw [if_neg (by omega), Int.toNat_natCast, hget]
  dsimp only
  rw [getD_set _ hlt, if_pos rfl]
  exact ⟨rfl, rfl⟩

/-- The table after a run is the one after its own calls. -/
theorem run_own {l : Tables D} {htid : Nat} (hid : 1 ≤ htid) {ht : HTable D}
    (hget : l.getD htid none = some ht) (cs : List (Call D)) :
    (run l cs).1.getD htid none = some (ht.run (cs.filterMap (Call.own htid))).1 := by
  induction cs generalizing l ht with
  | nil => exact hget
  | cons c cs ih =>
    rw [run_cons]
    cases hc : c.own htid with
    | none =>
      rw [List.filterMap_cons_none hc]
      exact ih (step_other hc hget)
    | some op =>
      rw [List.filterMap_cons_some hc]
      cases c with
      | create nelem nul => cases hc
      | search id key data =>
        rw [own_search] at hc
        split at hc
        · rename_i heq
          subst heq
          cases hc
          exact ih (step_own hid hget key data).1
        · cases hc

theorem run_append_calls (l : Tables D) (cs cs' : List (Call D)) :
    run l (cs ++ cs') = ((run (run l cs).1 cs').1, (run l cs).2 ++ (run (run l cs).1 cs').2) := by
  induction cs generalizing l with
  | nil => rfl
  | cons c cs ih =>
    rw [List.cons_append, run_cons, run_cons, ih]
    rfl

theorem length_run (l : Tables D) (cs : List (Call D)) : (run l cs).2.length = cs.length := by
  induction cs generalizing l with
  | nil => rfl
  | cons c cs ih =>
    rw [run_cons, List.length_cons, List.length_cons, ih]

/-! ## Tables are finite maps -/

/-- The inserts into a table are of no more keys than it has slots. -/
def FewKeys (n : Nat) (nul : D) (ops : List (Key × D)) : Prop :=
  (inserted nul ops).dedup.length ≤ n

instance instDecidableFewKeys (n : Nat) (nul : D) (ops : List (Key × D)) :
    Decidable (FewKeys n nul ops) :=
  inferInstanceAs (Decidable (_ ≤ _))

/-- The table is a finite map with room for `n` keys, in the run of the calls. Lookups give the
latest data; a new key in a full table gives the value for nothing, and changes nothing; and the
loop over `Hnext` meets each stored key once, with its data. -/
structure IsMap (n : Nat) (nul : D) (l : Tables D) (htid : Nat) (cs : List (Call D)) : Prop where
  lookups : FewKeys n nul (cs.filterMap (Call.own htid)) →
    ∀ before key after, cs = before ++ .search htid key nul :: after →
      (run l cs).2[before.length]? =
        some (some ((latest nul key (before.filterMap (Call.own htid))).getD nul))
  full : ∀ key data, data ≠ nul → Absent (tableOf (run l cs).1 htid) key →
    (tableOf (run l cs).1 htid).reduceOption.length = n →
    (Hsearch htid key data (run l cs).1).2 = some nul ∧
      ∀ id, tableOf (Hsearch htid key data (run l cs).1).1 id = tableOf (run l cs).1 id
  visits : ∀ fuel, n < fuel → ∃ vs, visit htid (run l cs).1 fuel (-1) = some vs ∧
    (vs.map Prod.fst).Nodup ∧
    ∀ key data, (key, data) ∈ vs ↔
      data ≠ nul ∧ (Hsearch htid key nul (run l cs).1).2 = some data

/-- Each new table is a finite map, whatever is called for the other ones. -/
theorem hash_is_map (l : Tables D) (n : Nat) (nul : D) (hn : 1 ≤ n) (hint : n < 2 ^ 31)
    (cs : List (Call D)) : IsMap n nul (Hcreate n nul l).1 (Hcreate n nul l).2 cs := by
  obtain ⟨hid, -, hall⟩ := Hcreate_spec n nul l
  generalize (Hcreate n nul l).1 = l' at hall ⊢
  generalize (Hcreate n nul l).2 = htid at hid hall ⊢
  have hget := hall htid
  rw [if_pos rfl] at hget
  have hnew := holds_create hn hint nul
  have hafter : ∀ cs', (run l' cs').1.getD htid none = _ := run_own hid hget
  obtain ⟨m, hm⟩ := hnew.run (cs.filterMap (Call.own htid))
  refine ⟨?_, ?_, ?_⟩
  · rintro hfew before key after rfl
    have hsub : inserted nul (before.filterMap (Call.own htid)) ⊆ inserted nul
        ((before ++ .search htid key nul :: after).filterMap (Call.own htid)) := by
      unfold inserted
      rw [List.filterMap_append, List.filter_append, List.map_append]
      exact List.subset_append_left _ _
    have hbefore : (inserted nul (before.filterMap (Call.own htid))).dedup.length ≤ n :=
      ((List.subperm_of_subset (List.nodup_dedup _) fun k hk =>
        List.mem_dedup.mpr (hsub (List.mem_dedup.mp hk))).length_le).trans hfew
    have hlatest := hnew.run_latest (before.filterMap (Call.own htid)) hbefore
    rw [run_append_calls, List.getElem?_append_right (by rw [length_run]), length_run, Nat.sub_self,
      run_cons, List.getElem?_cons_zero, (step_own hid (hafter before) key nul).2,
      (hlatest.lookup key).1]
  · intro key data hdata habsent hfull
    rw [tableOf_eq (hafter cs)] at habsent hfull
    have hkey : m key = none := by
      by_contra hne
      obtain ⟨d, hd⟩ := Option.ne_none_iff_exists'.mp hne
      obtain ⟨i, hi⟩ := (hm.entries key d).mp hd
      exact habsent i _ hi rfl
    obtain ⟨hret, harray, -⟩ := hm.full hkey hfull data
    obtain ⟨hown, hres⟩ := step_own hid (hafter cs) key data
    refine ⟨by rw [← hret]; exact hres, ?_⟩
    intro id
    by_cases heq : id = htid
    · subst heq
      change tableOf (step (run l' cs).1 (.search id key data)).1 id = _
      rw [tableOf_eq hown, tableOf_eq (hafter cs), harray]
    · unfold tableOf
      rw [Hsearch_other (by omega)]
  · intro fuel hfuel
    refine ⟨_, visit_entries (by omega) (by rw [Int.toNat_natCast]; exact hafter cs) fuel (-1) 0 rfl
      (by rw [hm.size]; omega), ?_, ?_⟩
    · exact hm.chained.nodup
    · intro key data
      have hlookup : (Hsearch htid key nul (run l' cs).1).2 = some ((m key).getD nul) := by
        rw [← (hm.lookup key).1]
        exact (step_own hid (hafter cs) key nul).2
      unfold entriesFrom
      rw [hlookup, List.drop_zero, mem_entries, ← hm.entries, Option.some.injEq]
      have hvalue := hm.value key
      cases hk : m key with
      | none =>
        simp only [Option.getD_none, reduceCtorEq, false_iff]
        exact fun hand => hand.1 hand.2.symm
      | some d =>
        rw [hk, ne_eq, Option.some.injEq] at hvalue
        rw [Option.getD_some, Option.some.injEq]
        constructor
        · intro heq
          exact ⟨heq ▸ hvalue, heq⟩
        · exact fun hand => hand.2

/-- Three keys for a table of two slots. -/
theorem hash_is_map_two :
    (1 ≤ 2 ∧ 2 < 2 ^ 31) ∧ IsMap 2 0 (Hcreate 2 0 []).1 (Hcreate 2 0 ([] : Tables Nat)).2
      [.search 1 [97] 5, .search 1 [98] 6, .search 1 [97] 0, .search 1 [99] 7] :=
  ⟨by omega, hash_is_map [] 2 0 (by omega) (by omega) _⟩

end Tables

end delegate.hash
