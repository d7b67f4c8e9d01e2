-- Strings with ids (strid.cpp). The ids are the data of a hash table, and
-- `strid_find` goes through the slots of the table for a string that has
-- an id.
import Delegate.HashTable

open probing delegate.hash

namespace delegate.ids

/-! ## The functions of the source -/

def NULLVAL : Int := -1

def strid_create (nelem : Nat) (l : Tables Int) : Tables Int × Nat := Hcreate nelem NULLVAL l

/-- `strid`: the tables and the id of the string. The first id of a string
stays. -/
def strid (tab : Int) (str : Key) (id : Int) (l : Tables Int) : Tables Int × Int :=
  if tab ≤ 0 then (l, id)
  else
    match Hsearch tab str NULLVAL l with
    | (l, some sid) =>
      if sid ≠ NULLVAL then (l, sid)
      else ((Hsearch tab str id l).1, id)
    | (l, none) => (l, id)

def strid_next (tab hx : Int) (l : Tables Int) : Option (Nat × Key × Int) := Hnext tab hx l

/-- The loop of `strid_find`, if it ends within `n` rounds. The data come
out through an `int`. -/
def findLoop (tab id : Int) (l : Tables Int) : Nat → Int → Option (Option Key)
  | 0, _ => none
  | n + 1, hx =>
    match strid_next tab hx l with
    | none => some none
    | some (nhx, str, id1) =>
      if id1.bmod (2 ^ 32) = id then some (some str) else findLoop tab id l n nhx

/-- `strid_find` does not look at its `hx`: the loop sets it to 0. -/
def strid_find (tab _hx id : Int) (l : Tables Int) (rounds : Nat) : Option (Option Key) :=
  findLoop tab id l rounds 0

/-- A run of registrations in one table. -/
def register (tab : Int) (regs : List (Key × Int)) (l : Tables Int) : Tables Int :=
  regs.foldl (fun l r => (strid tab r.1 r.2 l).1) l

/-! ## The ids of the strings -/

/-- The id of a string is the one of its first registration. -/
def idOf (regs : List (Key × Int)) (str : Key) : Option Int :=
  (regs.find? fun r => decide (r.1 = str)).map Prod.snd

theorem idOf_append (regs : List (Key × Int)) (str key : Key) (id : Int) :
    idOf (regs ++ [(key, id)]) str =
      if key = str ∧ idOf regs str = none then some id else idOf regs str := by
  unfold idOf
  rw [List.find?_append]
  cases hf : regs.find? fun r => decide (r.1 = str) with
  | some r => simp
  | none =>
    by_cases hk : key = str
    · simp [hk]
    · simp [hk]

theorem idOf_mem {regs : List (Key × Int)} {str : Key} {id : Int}
    (h : idOf regs str = some id) : (str, id) ∈ regs := by
  unfold idOf at h
  obtain ⟨r, hr, rfl⟩ := Option.map_eq_some_iff.mp h
  have hkey := List.find?_some hr
  rw [decide_eq_true_eq] at hkey
  have hmem := List.mem_of_find?_eq_some hr
  rw [← hkey]
  exact hmem

/-- Every registered id fits an `int`, and none is below 0. -/
def IdsFit (regs : List (Key × Int)) : Prop := ∀ r ∈ regs, 0 ≤ r.2 ∧ r.2 < 2 ^ 31

/-! ## One registration -/

/-- The table of `n` slots holds the ids of the registrations. -/
def Registered (n tab : Nat) (regs : List (Key × Int)) (l : Tables Int) : Prop :=
  ∃ ht, l.getD tab none = some ht ∧ Holds n NULLVAL ht (idOf regs)

section
variable {n tab : Nat} {regs : List (Key × Int)} {l : Tables Int}

/-- A search for the table, with the table it leaves. -/
theorem Hsearch_own (htab : 1 ≤ tab) {ht : HTable Int} (hget : l.getD tab none = some ht)
    (str : Key) (data : Int) :
    (Hsearch tab str data l).2 = some (ht.search str data).2 ∧
      (Hsearch tab str data l).1.getD tab none = some (ht.search str data).1 :=
  ⟨(step_own htab hget str data).2, (step_own htab hget str data).1⟩

/-- A string that has an id keeps it, and a new string gets the new id. -/
theorem Registered.strid (h : Registered n tab regs l) (htab : 1 ≤ tab) {str : Key} {id : Int}
    (hid : 0 ≤ id) (hkeys : ((regs.map Prod.fst) ++ [str]).dedup.length ≤ n) :
    Registered n tab (regs ++ [(str, id)]) (strid tab str id l).1 := by
  obtain ⟨ht, hget, hh⟩ := h
  obtain ⟨hres, hleft⟩ := Hsearch_own htab hget str NULLVAL
  obtain ⟨hlook, -, hkept⟩ := hh.lookup str
  have htab0 : ¬ (tab : Int) ≤ 0 := by omega
  rw [hlook] at hres
  rcases hs : Hsearch tab str NULLVAL l with ⟨l', r⟩
  rw [hs] at hres hleft
  simp only at hres hleft
  cases hm : idOf regs str with
  | some sid =>
    have hne : sid ≠ NULLVAL := by
      intro he
      exact hh.value str (by rw [hm, he])
    have hsame : idOf (regs ++ [(str, id)]) = idOf regs := by
      funext k
      rw [idOf_append, if_neg]
      rintro ⟨rfl, hnone⟩
      rw [hm] at hnone
      cases hnone
    rw [hm, Option.getD_some] at hres
    refine ⟨(ht.search str NULLVAL).1, ?_, by rw [hsame]; exact hkept⟩
    simp only [delegate.ids.strid, if_neg htab0, hs, hres, if_pos hne]
    exact hleft
  | none =>
    have hdata : id ≠ NULLVAL := by
      unfold NULLVAL
      omega
    have hupdate : idOf (regs ++ [(str, id)]) = Function.update (idOf regs) str (some id) := by
      funext k
      rw [idOf_append]
      by_cases hk : k = str
      · subst hk
        rw [Function.update_self, if_pos ⟨rfl, hm⟩]
      · rw [Function.update_of_ne hk, if_neg]
        exact fun hand => hk hand.1.symm
    rw [hm, Option.getD_none] at hres
    obtain ⟨-, hafter⟩ := Hsearch_own htab hleft str id
    have hroom : idOf regs str ≠ none ∨
        (ht.search str NULLVAL).1.ht_array.reduceOption.length ≠ n := by
      refine hkept.room_of_keys (fun k hk => ?_) hkeys
      obtain ⟨d, hd⟩ := Option.ne_none_iff_exists'.mp hk
      exact List.mem_map.mpr ⟨_, idOf_mem hd, rfl⟩
    refine ⟨((ht.search str NULLVAL).1.search str id).1, ?_, ?_⟩
    · simp only [delegate.ids.strid, if_neg htab0, hs, hres, ne_eq, not_true_eq_false, if_false]
      exact hafter
    · rw [hupdate]
      exact (hkept.insert str hdata hroom).2

/-- A table holds the first id of each string, after any registrations of
no more strings than it has slots. -/
theorem Registered.register (hnew : Registered n tab [] l) (htab : 1 ≤ tab) (hids : IdsFit regs)
    (hkeys : (regs.map Prod.fst).dedup.length ≤ n) :
    Registered n tab regs (register tab regs l) := by
  induction regs using List.reverseRecOn with
  | nil => exact hnew
  | append_singleton regs r ih =>
    obtain ⟨str, id⟩ := r
    rw [List.map_append] at hkeys
    have hfew : (regs.map Prod.fst).dedup.length ≤ n :=
      ((List.subperm_of_subset (List.nodup_dedup _) fun k hk =>
        List.mem_dedup.mpr (List.mem_append_left _ (List.mem_dedup.mp hk))).length_le).trans hkeys
    have ih := ih (fun r hr => hids r (List.mem_append_left _ hr)) hfew
    unfold delegate.ids.register
    rw [List.foldl_append]
    exact ih.strid htab (hids (str, id) (by simp)).1 hkeys

end

/-! ## The search for an id -/

/-- The loop of `strid_find` from a slot on. -/
theorem findLoop_entries {l : Tables Int} {tab : Int} {ht : HTable Int} (htab : 0 < tab)
    (hget : l.getD tab.toNat none = some ht) (id : Int) (rounds hx : Nat)
    (hrounds : ht.ht_array.length - (hx + 1) < rounds) :
    findLoop tab id l rounds hx = some (((entriesFrom ht.ht_array (hx + 1)).find? fun e =>
      decide (e.2.bmod (2 ^ 32) = id)).map Prod.fst) := by
  induction rounds generalizing hx with
  | zero => omega
  | succ rounds ih =>
    have hnext : strid_next tab hx l = nextFrom ht.ht_array (hx + 1) := by
      unfold strid_next Hnext
      rw [if_neg (not_le.mpr htab), hget, if_neg (by omega), Int.toNat_natCast]
    unfold findLoop
    rw [hnext]
    rcases nextFrom_spec ht.ht_array (hx + 1) with ⟨hnone, hnil⟩ | ⟨j, he, hj, hle, hlen, hrest⟩
    · rw [hnone, hnil]
      rfl
    · rw [hj, hrest]
      dsimp only
      by_cases hid : he.2.bmod (2 ^ 32) = id
      · rw [if_pos hid, List.find?_cons_of_pos (by rw [decide_eq_true_eq]; exact hid)]
        rfl
      · rw [if_neg hid, List.find?_cons_of_neg (by rw [decide_eq_true_eq]; exact hid)]
        exact ih j (by omega)

/-- An answer for the id: a string that has it, or null if none has it. -/
def Answers (regs : List (Key × Int)) (id : Int) : Option Key → Prop
  | some str => idOf regs str = some id
  | none => ∀ str, idOf regs str ≠ some id

/-- The loop of `strid_find` ends, and it answers for the id. -/
def Inverts (n : Nat) (tab : Int) (regs : List (Key × Int)) (id : Int) (l : Tables Int) : Prop :=
  ∃ r, (∀ hx rounds, n < rounds → strid_find tab hx id l rounds = some r) ∧ Answers regs id r

/-- The string in the first slot is not the only one with the id. -/
def NotOnlyFirst (tab : Nat) (regs : List (Key × Int)) (id : Int) (l : Tables Int) : Prop :=
  ∀ str, slot (tableOf l tab) 0 = some (str, id) → ∃ other, other ≠ str ∧ idOf regs other = some id

theorem mem_entriesFrom {D : Type} {a : List (Option (Key × D))} {i : Nat} {e : Key × D} :
    e ∈ entriesFrom a i ↔ ∃ j, i ≤ j ∧ slot a j = some e := by
  unfold entriesFrom
  rw [mem_entries]
  constructor
  · rintro ⟨j, hj⟩
    refine ⟨i + j, by omega, ?_⟩
    rw [slot_eq_some, List.getElem?_drop] at hj
    rw [slot_eq_some]
    exact hj
  · rintro ⟨j, hle, hj⟩
    refine ⟨j - i, ?_⟩
    rw [slot_eq_some] at hj ⊢
    rw [List.getElem?_drop, Nat.add_sub_cancel' hle]
    exact hj

/-- The loop starts behind the first slot. -/
theorem Registered.inverts_iff {n tab : Nat} {regs : List (Key × Int)} {l : Tables Int}
    (h : Registered n tab regs l) (htab : 1 ≤ tab) (hids : IdsFit regs) (id : Int) :
    Inverts n tab regs id l ↔ NotOnlyFirst tab regs id l := by
  obtain ⟨ht, hget, hh⟩ := h
  have hfind : ∀ hx rounds, n < rounds → strid_find tab hx id l rounds =
      some (((entriesFrom ht.ht_array 1).find? fun e =>
        decide (e.2.bmod (2 ^ 32) = id)).map Prod.fst) := by
    intro hx rounds hlt
    refine findLoop_entries (by omega) (by rw [Int.toNat_natCast]; exact hget) id rounds 0 ?_
    rw [hh.size]
    omega
  have hread : ∀ {str id'}, idOf regs str = some id' → id'.bmod (2 ^ 32) = id' := by
    intro str id' hid
    obtain ⟨h0, h31⟩ := hids _ (idOf_mem hid)
    exact Int.bmod_eq_of_le (by norm_num; omega) (by norm_num; omega)
  have hslot : ∀ {i str id'}, slot ht.ht_array i = some (str, id') → idOf regs str = some id' :=
    fun hi => (hh.entries _ _).mpr ⟨_, hi⟩
  unfold Inverts NotOnlyFirst
  rw [tableOf_eq hget]
  cases hf : (entriesFrom ht.ht_array 1).find? fun e => decide (e.2.bmod (2 ^ 32) = id) with
  | some e =>
    -- The loop meets a string with the id.
    obtain ⟨str, id'⟩ := e
    obtain ⟨j, hj, hstr⟩ := mem_entriesFrom.mp (List.mem_of_find?_eq_some hf)
    have hid : idOf regs str = some id := by
      have hval := List.find?_some hf
      rw [decide_eq_true_eq] at hval
      rw [hslot hstr, ← hval, hread (hslot hstr)]
    constructor
    · rintro - str' hfirst
      refine ⟨str, ?_, hid⟩
      rintro rfl
      have hunique := hh.chained.unique hfirst hstr rfl
      omega
    · intro _
      refine ⟨some str, fun hx rounds hlt => ?_, hid⟩
      rw [hfind hx rounds hlt, hf]
      rfl
  | none =>
    -- No slot behind the first one has the id.
    have hbehind : ∀ j str, 1 ≤ j → slot ht.ht_array j ≠ some (str, id) := by
      intro j str hj hstr
      have hno := List.find?_eq_none.mp hf _ (mem_entriesFrom.mpr ⟨j, hj, hstr⟩)
      rw [decide_eq_true_eq] at hno
      exact hno (hread (hslot hstr))
    constructor
    · rintro ⟨r, hr, hans⟩ str hfirst
      have hrun := hr 0 (n + 1) (by omega)
      rw [hfind 0 (n + 1) (by omega), hf, Option.map_none, Option.some.injEq] at hrun
      subst hrun
      exact absurd (hslot hfirst) (hans str)
    · intro hcond
      refine ⟨none, fun hx rounds hlt => ?_, ?_⟩
      · rw [hfind hx rounds hlt, hf]
        rfl
      · intro str hstr
        obtain ⟨j, hj⟩ := (hh.entries str id).mp hstr
        have hj0 : j = 0 := by
          by_contra hne
          exact hbehind j str (by omega) hj
        subst hj0
        obtain ⟨other, hne, hother⟩ := hcond str hj
        obtain ⟨i, hi⟩ := (hh.entries other id).mp hother
        by_cases hi0 : i = 0
        · subst hi0
          rw [hj, Option.some.injEq, Prod.mk.injEq] at hi
          exact hne hi.1.symm
        · exact hbehind i other (by omega) hi

/-! ## Every table -/

/-- A new table, and the id it has. -/
theorem strid_create_spec (n : Nat) (l : Tables Int) :
    1 ≤ (strid_create n l).2 ∧ (strid_create n l).1.getD (strid_create n l).2 none =
      some { ht_array := List.replicate n none, ht_nulval := NULLVAL } := by
  obtain ⟨hid, -, hall⟩ := Hcreate_spec n NULLVAL l
  have hget := hall (Hcreate n NULLVAL l).2
  rw [if_pos rfl] at hget
  exact ⟨hid, hget⟩

theorem registered_create (n : Nat) (hn : 1 ≤ n) (hint : n < 2 ^ 31) (l : Tables Int) :
    Registered n (strid_create n l).2 [] (strid_create n l).1 :=
  ⟨_, (strid_create_spec n l).2, holds_create hn hint NULLVAL⟩

/-- A table without slots has nothing registered, and nothing is found. -/
theorem inverts_no_slots (l : Tables Int) (id : Int) :
    Inverts 0 (strid_create 0 l).2 [] id (strid_create 0 l).1 := by
  obtain ⟨hid, hget⟩ := strid_create_spec 0 l
  refine ⟨none, fun hx rounds hlt => ?_, fun str h => by cases h⟩
  have htab : 0 < ((strid_create 0 l).2 : Int) := by omega
  exact findLoop_entries htab (by rw [Int.toNat_natCast]; exact hget) id rounds 0
    (by simpa using hlt)

/-- `strid_find` inverts `strid` for the ids that are not only the one of
the string in the first slot. -/
theorem strid_find_inverts_iff (l : Tables Int) (n : Nat) (hint : n < 2 ^ 31)
    (regs : List (Key × Int)) (hids : IdsFit regs)
    (hkeys : (regs.map Prod.fst).dedup.length ≤ n) (id : Int) :
    Inverts n (strid_create n l).2 regs id
        (register (strid_create n l).2 regs (strid_create n l).1) ↔
      NotOnlyFirst (strid_create n l).2 regs id
        (register (strid_create n l).2 regs (strid_create n l).1) := by
  rcases Nat.eq_zero_or_pos n with rfl | hn
  · have hnil : regs = [] := by
      rcases regs with _ | ⟨r, regs⟩
      · rfl
      · have hmem : r.1 ∈ (List.map Prod.fst (r :: regs)).dedup := by simp
        rw [List.length_eq_zero_iff.mp (Nat.le_zero.mp hkeys)] at hmem
        simp at hmem
    subst hnil
    refine iff_of_true (inverts_no_slots l id) ?_
    intro str hstr
    have htable : tableOf (register (strid_create 0 l).2 [] (strid_create 0 l).1)
        (strid_create 0 l).2 = [] := tableOf_eq (strid_create_spec 0 l).2
    rw [htable] at hstr
    simp [slot] at hstr
  · have htab := (strid_create_spec n l).1
    have hnew := registered_create n hn hint l
    exact (hnew.register htab hids hkeys).inverts_iff htab hids id

/-- The hash of `ap` is a multiple of 128: with its id alone in a table of
128 slots, as `strid_alloc` makes it, it stands in the first slot. -/
theorem strid_find_first_slot :
    (128 < 2 ^ 31 ∧ IdsFit [([97, 112], 7)] ∧
      (([([97, 112], 7)] : List (Key × Int)).map Prod.fst).dedup.length ≤ 128) ∧
    ¬ Inverts 128 (strid_create 128 []).2 [([97, 112], 7)] 7
        (register (strid_create 128 []).2 [([97, 112], 7)] (strid_create 128 []).1) := by
  have hids : IdsFit [([97, 112], 7)] := by simp [IdsFit]
  obtain ⟨htab, -⟩ := strid_create_spec 128 []
  have hreg := (registered_create 128 (by omega) (by omega) []).register htab hids (by simp)
  refine ⟨⟨by omega, hids, by simp⟩, fun h => ?_⟩
  obtain ⟨other, hne, hother⟩ := (hreg.inverts_iff htab hids 7).mp h [97, 112] (by decide +kernel)
  have hmem := idOf_mem hother
  simp only [List.mem_singleton, Prod.mk.injEq, and_true] at hmem
  exact hne hmem

/-- `aq` is in the second slot, and it is found. -/
theorem strid_find_inverts_second :
    (IdsFit [([97, 113], 7)] ∧
      (([([97, 113], 7)] : List (Key × Int)).map Prod.fst).dedup.length ≤ 128) ∧
    (Inverts 128 (strid_create 128 []).2 [([97, 113], 7)] 7
        (register (strid_create 128 []).2 [([97, 113], 7)] (strid_create 128 []).1) ↔
      NotOnlyFirst (strid_create 128 []).2 [([97, 113], 7)] 7
        (register (strid_create 128 []).2 [([97, 113], 7)] (strid_create 128 []).1)) :=
  have hids : IdsFit [([97, 113], 7)] := by simp [IdsFit]
  ⟨⟨hids, by simp⟩, strid_find_inverts_iff [] 128 (by omega) _ hids (by simp) 7⟩

end delegate.ids
