-- The law of protected host lists. A definition of a protected name is
-- reported as an error, and then its flags and its elements are added like
-- those of any other definition. So a protected list stays as it is only
-- under definitions that add nothing.
import Delegate.HostListTab
import Delegate.NetPrefix

open ctext delegate.vaddr

namespace delegate.hostlist

/-! ## The expansion of a text -/

/-- What one element of a text does to the list. -/
inductive Item
  | flag (f : BitVec 16)
  | host (hostmask : Text)
deriving DecidableEq, Repr

def Item.add (S : Site) (listid : Text → Nat) (hl : HostList) : Item → HostList
  | .flag f => hl.addFlag f
  | .host hostmask => addHostOne S listid hl hostmask

/-- The items of an element, with its groups expanded. -/
def expand : Nat → Elem → Option (List Item)
  | 0, _ => none
  | depth + 1, e =>
    match flagOf e.text with
    | some f => some [.flag f]
    | none =>
      match addHL (stripOps e.text) e.beyond with
      | some g =>
        ((scan_ListL ',' g.hosts).mapM fun x => expand depth (g.elem x.text)).map List.flatten
      | none => some [.host (stripOps e.text)]

/-- The items of the text of a definition. -/
def Definition.items (depth : Nat) (d : Definition) : Option (List Item) :=
  ((scan_ListL ',' d.ahostlist).mapM (expand depth)).map List.flatten

/-- Items added element by element are the items added in a row. -/
theorem foldlM_items {α β ι : Type} (add : β → ι → β) (f : α → Option (List ι)) (xs : List α)
    (s : β) :
    xs.foldlM (fun s x => (f x).map fun l => l.foldl add s) s =
      (xs.mapM f).map fun ls => ls.flatten.foldl add s := by
  induction xs generalizing s with
  | nil => rfl
  | cons x xs ih =>
    rw [List.foldlM_cons, List.mapM_cons]
    cases f x with
    | none => rfl
    | some l =>
      have hrest := ih (l.foldl add s)
      cases h : xs.mapM f with
      | none => simpa [h] using hrest
      | some ls => simpa [h, List.foldl_append] using hrest

/-- Adding an element is adding its items in a row. -/
theorem addHostList1_eq (S : Site) (listid : Text → Nat) (depth : Nat) (e : Elem) (hl : HostList) :
    addHostList1 S listid depth e hl =
      (expand depth e).map fun l => l.foldl (Item.add S listid) hl := by
  induction depth generalizing e hl with
  | zero => rfl
  | succ depth ih =>
    unfold addHostList1 expand
    cases flagOf e.text with
    | some f => rfl
    | none =>
      cases addHL (stripOps e.text) e.beyond with
      | none => rfl
      | some g =>
        simp only [ih]
        rw [foldlM_items, Option.map_map]
        rfl

theorem fill_eq (S : Site) (depth : Nat) (listid : Text → Nat) (d : Definition) (HL : HostList) :
    fill S depth listid d HL =
      (d.items depth).map fun l => l.foldl (Item.add S listid) (HL.addFlag d.flags) := by
  unfold fill Definition.items
  simp only [addHostList1_eq]
  rw [foldlM_items, Option.map_map]
  rfl

/-! ## What items leave of a list -/

/-- The later list has the flags and the elements of the earlier one. -/
structure Grows (a b : HostList) : Prop where
  what : a.hl_what = b.hl_what
  flags : a.hl_flags &&& b.hl_flags = a.hl_flags
  elems : a.hl_List.length ≤ b.hl_List.length

theorem Grows.rfl {a : HostList} : Grows a a := ⟨by rfl, BitVec.and_self, Nat.le_refl _⟩

theorem and_eq_trans {x y z : BitVec 16} (h : x &&& y = x) (h' : y &&& z = y) : x &&& z = x := by
  rw [← h, BitVec.and_assoc, h']

theorem Grows.trans {a b c : HostList} (h : Grows a b) (h' : Grows b c) : Grows a c :=
  ⟨h.what.trans h'.what, and_eq_trans h.flags h'.flags, h.elems.trans h'.elems⟩

theorem grows_addFlag (hl : HostList) (f : BitVec 16) : Grows hl (hl.addFlag f) := by
  refine ⟨rfl, ?_, Nat.le_refl _⟩
  ext i hi
  simp only [HostList.addFlag, BitVec.getElem_and, BitVec.getElem_or]
  cases hl.hl_flags[i] <;> simp

/-- Two lists that grow into each other have the same flags. -/
theorem Grows.flags_eq {a b : HostList} (h : Grows a b) (h' : Grows b a) :
    a.hl_flags = b.hl_flags := by
  rw [← h.flags, BitVec.and_comm, h'.flags]

/-- The item sets a flag that the list has already. -/
def Item.Idle (hl : HostList) : Item → Prop
  | .flag f => hl.hl_flags ||| f = hl.hl_flags
  | .host _ => False

theorem grows_add (S : Site) (listid : Text → Nat) (hl : HostList) (it : Item) :
    Grows hl (it.add S listid hl) := by
  cases it with
  | flag f => exact grows_addFlag hl f
  | host m =>
    refine ⟨?_, ?_, ?_⟩
    all_goals simp only [Item.add, addHostOne, HostList.addHost]
    all_goals split
    all_goals simp

theorem grows_foldl (S : Site) (listid : Text → Nat) (l : List Item) (hl : HostList) :
    Grows hl (l.foldl (Item.add S listid) hl) := by
  induction l generalizing hl with
  | nil => exact Grows.rfl
  | cons it l ih => exact (grows_add S listid hl it).trans (ih _)

theorem add_of_idle {S : Site} {listid : Text → Nat} {hl : HostList} {it : Item} (h : it.Idle hl) :
    it.add S listid hl = hl := by
  cases it with
  | flag f =>
    have hf : hl.hl_flags ||| f = hl.hl_flags := h
    simp only [Item.add, HostList.addFlag, hf]
  | host m => exact absurd h id

/-- A host element makes the list longer. -/
theorem add_host_longer (S : Site) (listid : Text → Nat) (hl : HostList) (m : Text) :
    hl.hl_List.length < (addHostOne S listid hl m).hl_List.length := by
  simp only [addHostOne, HostList.addHost]
  split <;> simp only [List.length_append, List.length_cons, List.length_nil] <;> omega

/-- Items that leave the list as it was are idle, each of them. -/
theorem foldl_eq_self_iff (S : Site) (listid : Text → Nat) (l : List Item) (hl : HostList) :
    l.foldl (Item.add S listid) hl = hl ↔ ∀ it ∈ l, it.Idle hl := by
  induction l with
  | nil => simp
  | cons it l ih =>
    rw [List.foldl_cons]
    constructor
    · intro h
      have hgrow := grows_foldl S listid l (it.add S listid hl)
      rw [h] at hgrow
      have hidle : it.Idle hl := by
        cases it with
        | flag f => exact ((grows_add S listid hl (.flag f)).flags_eq hgrow).symm
        | host m =>
          have hlong := add_host_longer S listid hl m
          have hshort := hgrow.elems
          simp only [Item.add] at hshort
          omega
      rw [add_of_idle hidle, ih] at h
      intro it' hit
      rcases List.mem_cons.mp hit with rfl | hit
      · exact hidle
      · exact h it' hit
    · intro h
      rw [add_of_idle (h it List.mem_cons_self), ih]
      exact fun it' hit => h it' (List.mem_cons_of_mem _ hit)

/-- The definition adds nothing to the list: it has no flag that the list
has not, and its text no element but flags that the list has. -/
def Silent (depth : Nat) (HL : HostList) (d : Definition) : Prop :=
  HL.hl_flags ||| d.flags = HL.hl_flags ∧ ∀ l ∈ d.items depth, ∀ it ∈ l, it.Idle HL

/-- A definition that is carried out leaves the list as it was exactly when
it adds nothing. -/
theorem fill_eq_self_iff {S : Site} {depth : Nat} {listid : Text → Nat} {d : Definition}
    {HL HL' : HostList} (h : fill S depth listid d HL = some HL') :
    HL' = HL ↔ Silent depth HL d := by
  rw [fill_eq] at h
  obtain ⟨l, hl, rfl⟩ := Option.map_eq_some_iff.mp h
  unfold Silent
  rw [hl]
  simp only [Option.mem_def, Option.some.injEq, forall_eq']
  constructor
  · intro heq
    have h1 := grows_addFlag HL d.flags
    have h2 := grows_foldl S listid l (HL.addFlag d.flags)
    rw [heq] at h2
    have hflags : HL.hl_flags ||| d.flags = HL.hl_flags := (h1.flags_eq h2).symm
    have hbase : HL.addFlag d.flags = HL := by simp only [HostList.addFlag, hflags]
    rw [hbase, foldl_eq_self_iff] at heq
    exact ⟨hflags, heq⟩
  · rintro ⟨hflags, hidle⟩
    have hbase : HL.addFlag d.flags = HL := by simp only [HostList.addFlag, hflags]
    rw [hbase, foldl_eq_self_iff]
    exact hidle

/-! ## What a definition leaves of the table -/

/-- The list of a name. -/
def lookup (tab : Tab) (name : Text) : Option HostList :=
  (indexOf tab name).bind fun i => tab[i]?

theorem indexOf_eq_map (tab : Tab) (name : Text) :
    indexOf tab name = (tab.map HostList.hl_what).findIdx? (fun w => w = name) := by
  rw [List.findIdx?_map]
  rfl

theorem set_of_getElem? {α : Type} {l : List α} {i : Nat} {x : α} (h : l[i]? = some x) :
    l.set i x = l := by
  obtain ⟨hlt, rfl⟩ := List.getElem?_eq_some_iff.mp h
  exact List.set_getElem_self hlt

theorem indexOf_set {tab : Tab} {i : Nat} {HL HL' : HostList} (hi : tab[i]? = some HL)
    (hw : HL'.hl_what = HL.hl_what) (name : Text) :
    indexOf (tab.set i HL') name = indexOf tab name := by
  rw [indexOf_eq_map, indexOf_eq_map, List.map_set, hw]
  rw [set_of_getElem? (by rw [List.getElem?_map, hi]; rfl)]

theorem fill_what {S : Site} {depth : Nat} {listid : Text → Nat} {d : Definition} {HL HL' : HostList}
    (h : fill S depth listid d HL = some HL') : HL'.hl_what = HL.hl_what := by
  rw [fill_eq] at h
  obtain ⟨l, -, rfl⟩ := Option.map_eq_some_iff.mp h
  exact ((grows_addFlag HL d.flags).trans (grows_foldl S listid l _)).what.symm

theorem base_what (d : Definition) (HL : HostList) : (d.base HL).hl_what = HL.hl_what := by
  unfold Definition.base
  repeat' split
  all_goals rfl

/-- What a definition of another name leaves of a list. -/
theorem lookup_of_other {S : Site} {depth : Nat} {tab tab' : Tab} {d : Definition} {name : Text}
    {HL : HostList} (h : addHostListTab S depth tab d = some tab') (hl : lookup tab name = some HL)
    (hne : d.aname ≠ name) : lookup tab' name = some HL := by
  obtain ⟨j, hj, hget⟩ := Option.bind_eq_some_iff.mp hl
  unfold addHostListTab at h
  split at h
  · rename_i i hi
    obtain ⟨HL0, hget0, hmap⟩ := Option.bind_eq_some_iff.mp h
    obtain ⟨HL1, hfill, rfl⟩ := Option.map_eq_some_iff.mp hmap
    have hw : HL1.hl_what = HL0.hl_what := (fill_what hfill).trans (base_what d HL0)
    have hij : i ≠ j := by
      rintro rfl
      have h1 := (List.findIdx?_eq_some_iff_getElem.mp hi)
      have h2 := (List.findIdx?_eq_some_iff_getElem.mp hj)
      obtain ⟨_, h1, -⟩ := h1
      obtain ⟨_, h2, -⟩ := h2
      simp only [decide_eq_true_eq] at h1 h2
      exact hne (h1.symm.trans h2)
    unfold lookup
    rw [indexOf_set hget0 hw, hj, Option.bind_some, List.getElem?_set_ne hij]
    exact hget
  · obtain ⟨HL1, -, rfl⟩ := Option.map_eq_some_iff.mp h
    have hlt := (List.getElem?_eq_some_iff.mp hget).1
    have hj' : indexOf (tab ++ [HL1]) name = some j := by
      unfold indexOf at hj ⊢
      rw [List.findIdx?_append, hj]
      rfl
    unfold lookup
    rw [hj', Option.bind_some, List.getElem?_append_left hlt]
    exact hget

/-- What a definition of the same name leaves of a protected list: the list
with the flags and the elements of the definition. -/
theorem lookup_of_same {S : Site} {depth : Nat} {tab tab' : Tab} {d : Definition} {HL : HostList}
    (h : addHostListTab S depth tab d = some tab') (hl : lookup tab d.aname = some HL)
    (hp : HL.has HL_PROTECT = true) :
    ∃ i HL', tab[i]? = some HL ∧ fill S depth (idOf tab) d HL = some HL' ∧ tab' = tab.set i HL' ∧
      lookup tab' d.aname = some HL' := by
  obtain ⟨i, hi, hget⟩ := Option.bind_eq_some_iff.mp hl
  have hbase : d.base HL = HL := by simp [Definition.base, hp]
  unfold addHostListTab at h
  rw [hi] at h
  simp only [hget, Option.bind_some, hbase] at h
  obtain ⟨HL', hfill, rfl⟩ := Option.map_eq_some_iff.mp h
  have hlt := (List.getElem?_eq_some_iff.mp hget).1
  refine ⟨i, HL', hget, hfill, rfl, ?_⟩
  unfold lookup
  rw [indexOf_set hget (fill_what hfill), hi, Option.bind_some, List.getElem?_set_self hlt]

/-- One definition leaves a protected list as it was exactly when it is of
another name or adds nothing. -/
theorem lookup_step_iff {S : Site} {depth : Nat} {tab tab' : Tab} {d : Definition} {name : Text}
    {HL : HostList} (h : addHostListTab S depth tab d = some tab') (hl : lookup tab name = some HL)
    (hp : HL.has HL_PROTECT = true) :
    lookup tab' name = some HL ↔ (d.aname = name → Silent depth HL d) := by
  by_cases hn : d.aname = name
  · subst hn
    obtain ⟨i, HL', -, hfill, -, hl'⟩ := lookup_of_same h hl hp
    rw [hl', Option.some.injEq, fill_eq_self_iff hfill]
    simp
  · simp [lookup_of_other h hl hn, hn]

/-! ## Runs of definitions -/

theorem defineAll_snoc (S : Site) (depth : Nat) (tab : Tab) (ds : List Definition) (d : Definition) :
    defineAll S depth tab (ds ++ [d]) =
      (defineAll S depth tab ds).bind fun tab' => addHostListTab S depth tab' d := by
  unfold defineAll
  rw [List.foldlM_append]
  cases ds.foldlM (addHostListTab S depth) tab with
  | none => rfl
  | some tab' => simp

/-- Every state of the run has the list as it was. -/
def Fixed (S : Site) (depth : Nat) (tab : Tab) (name : Text) (HL : HostList)
    (ds : List Definition) : Prop :=
  ∀ pre tab', pre <+: ds → defineAll S depth tab pre = some tab' → lookup tab' name = some HL

/-- Every definition of the name that the run carries out adds nothing. -/
def AllSilent (S : Site) (depth : Nat) (tab : Tab) (name : Text) (HL : HostList)
    (ds : List Definition) : Prop :=
  ∀ pre d, pre ++ [d] <+: ds → (defineAll S depth tab (pre ++ [d])).isSome →
    d.aname = name → Silent depth HL d

/-- A protected list stays as it is through a run of definitions exactly
when every later definition of its name adds nothing. Each such definition
leaves the whole table as it was, so every query has the same answer. -/
theorem protected_list_fixed_iff (S : Site) (depth : Nat) (tab : Tab) (name : Text) (HL : HostList)
    (ds : List Definition) (hl : lookup tab name = some HL) (hp : HL.has HL_PROTECT = true) :
    (Fixed S depth tab name HL ds ↔ AllSilent S depth tab name HL ds) ∧
    (AllSilent S depth tab name HL ds →
      ∀ pre d tab₁ tab₂, pre ++ [d] <+: ds → d.aname = name →
        defineAll S depth tab pre = some tab₁ → defineAll S depth tab (pre ++ [d]) = some tab₂ →
        tab₂ = tab₁) := by
  have hfixed : AllSilent S depth tab name HL ds → Fixed S depth tab name HL ds := by
    intro hs pre
    induction pre using List.reverseRecOn with
    | nil =>
      intro tab' _ hrun
      cases hrun
      exact hl
    | append_singleton pre d ih =>
      intro tab' hpre hrun
      have hsome : (defineAll S depth tab (pre ++ [d])).isSome := by rw [hrun]; rfl
      rw [defineAll_snoc] at hrun
      obtain ⟨tab₁, hrun₁, hstep⟩ := Option.bind_eq_some_iff.mp hrun
      have hl₁ := ih tab₁ ((List.prefix_append pre [d]).trans hpre) hrun₁
      exact (lookup_step_iff hstep hl₁ hp).mpr (hs pre d hpre hsome)
  refine ⟨⟨?_, hfixed⟩, ?_⟩
  · intro hf pre d hpre hsome hn
    obtain ⟨tab₂, hrun₂⟩ := Option.isSome_iff_exists.mp hsome
    have hl₂ := hf _ tab₂ hpre hrun₂
    rw [defineAll_snoc] at hrun₂
    obtain ⟨tab₁, hrun₁, hstep⟩ := Option.bind_eq_some_iff.mp hrun₂
    have hl₁ := hf pre tab₁ ((List.prefix_append pre [d]).trans hpre) hrun₁
    exact (lookup_step_iff hstep hl₁ hp).mp hl₂ hn
  · intro hs pre d tab₁ tab₂ hpre hn hrun₁ hrun₂
    have hsilent := hs pre d hpre (by rw [hrun₂]; rfl) hn
    have hl₁ := hfixed hs pre tab₁ ((List.prefix_append pre [d]).trans hpre) hrun₁
    rw [defineAll_snoc, hrun₁, Option.bind_some] at hrun₂
    subst hn
    obtain ⟨i, HL', hget, hfill, rfl, -⟩ := lookup_of_same hrun₂ hl₁ hp
    obtain rfl := (fill_eq_self_iff hfill).mpr hsilent
    exact set_of_getElem? hget

/-- The table after `HOSTLIST=L/p:*.a`. -/
def protectedTab : Tab :=
  ((init_hostListTab numericSite 9).bind fun tab =>
    addHostListTab numericSite 9 tab ⟨"L/p".toList, "*.a".toList⟩).getD []

def protectedList : HostList := (lookup protectedTab "L".toList).getD (listOf [])

theorem lookup_protectedTab : lookup protectedTab "L".toList = some protectedList := by
  have h : (lookup protectedTab "L".toList).isSome = true := by decide +kernel
  rw [protectedList, ← Option.some_get h, Option.getD_some]

/-- The definition `HOSTLIST=L/p:/a` sets a flag, and `HOSTLIST=M:*.b` is of
another name. -/
theorem protected_list_fixed_other :
    (Fixed numericSite 9 protectedTab "L".toList protectedList
        [⟨"M".toList, "*.b".toList⟩, ⟨"L/p".toList, "/a".toList⟩] ↔
      AllSilent numericSite 9 protectedTab "L".toList protectedList
        [⟨"M".toList, "*.b".toList⟩, ⟨"L/p".toList, "/a".toList⟩]) :=
  (protected_list_fixed_iff numericSite 9 protectedTab "L".toList protectedList
    [⟨"M".toList, "*.b".toList⟩, ⟨"L/p".toList, "/a".toList⟩] lookup_protectedTab (by decide +kernel)).1

/-- The list of an id. -/
def Tab.list (tab : Tab) (id : Nat) : HostList := tab.getD (id - 1) (listOf [])

/-- The answer for the host `x.b` and the list of a name. -/
def answerXB (tab : Tab) (name : Text) : Nat :=
  (VA_hostIsinListX stillWorld (Tab.list tab) (HL_MAXDEPTH + 1)
      (Tab.list tab (idOf tab name)) client80
    { askTen with cname := "x.b".toList }).1

/-- After `HOSTLIST=L:*.b` the protected list holds the host `x.b`. -/
theorem protected_list_changes :
    protectedList.has HL_PROTECT = true ∧ answerXB protectedTab "L".toList = 0 ∧
    ¬ Fixed numericSite 9 protectedTab "L".toList protectedList [⟨"L".toList, "*.b".toList⟩] ∧
    ((addHostListTab numericSite 9 protectedTab ⟨"L".toList, "*.b".toList⟩).map
      fun tab => answerXB tab "L".toList) = some 3 := by
  refine ⟨by decide +kernel, by decide +kernel, fun h => ?_, by decide +kernel⟩
  have hsome : (defineAll numericSite 9 protectedTab [⟨"L".toList, "*.b".toList⟩]).isSome = true := by
    decide +kernel
  obtain ⟨tab', htab⟩ := Option.isSome_iff_exists.mp hsome
  have hsame := congrArg (Option.map fun hl => hl.hl_List.length)
    (h _ tab' (List.prefix_refl _) htab)
  have hlong : ((defineAll numericSite 9 protectedTab [⟨"L".toList, "*.b".toList⟩]).bind
      fun tab => (lookup tab "L".toList).map fun hl => hl.hl_List.length) = some 2 := by decide +kernel
  rw [htab, Option.bind_some, hsame] at hlong
  exact absurd hlong (by decide +kernel)

end delegate.hostlist
