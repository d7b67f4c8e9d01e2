-- The tree of DNS names is an index: each node stands for one sequence of
-- labels up to case, and its id is the place of the node in the table.
import Delegate.DnsNode

open ctext segs

namespace delegate.dnsnode

/-! ## Labels up to case -/

/-- A label without its case. -/
def fold (l : Text) : Text := l.map Char.toLower

theorem strcaseeq_iff {a b : Text} : strcaseeq a b = true ↔ fold a = fold b := by
  unfold strcaseeq fold
  rw [beq_iff_eq]

/-! ## The invariant -/

/-- The list of peers from a pointer on. -/
inductive Peers (heap : Nat → Node) : Option Nat → List Nat → Prop
  | nil : Peers heap none []
  | cons {p cs} : Peers heap (heap p).n_peer cs → Peers heap (some p) (p :: cs)

/-- The store is an index of the keys: the node with the id `i` stands for the labels `key i`. -/
structure Index (s : Store) (key : Nat → List Text) : Prop where
  pos : 1 ≤ s.NID
  next : s.next = s.NID + 1
  table : ∀ i ≤ s.NID, s.Nodes[i]? = some i
  room : s.NID < s.NodesX ∧ s.NodesX ≤ s.Nodes.length
  size : (s.NodesX = 2 ∧ s.NodesA = 0) ∨ s.NodesX = s.NodesA * MAXLEV
  nid : ∀ i ≤ s.NID, (s.heap i).n_nid = i
  top : key TopNode = []
  parent : ∀ i, 1 < i → i ≤ s.NID → ∃ j, (s.heap i).n_parent = some j ∧ 1 ≤ j ∧ j < i ∧
    key i = fold (s.heap i).n_label :: key j
  children : ∀ j, 1 ≤ j → j ≤ s.NID → ∃ cs, Peers s.heap (s.heap j).n_child cs ∧
    cs.length ≤ s.NID ∧ ∀ i, i ∈ cs ↔ 1 < i ∧ i ≤ s.NID ∧ (s.heap i).n_parent = some j
  inj : ∀ i j, 1 ≤ i → i ≤ s.NID → 1 ≤ j → j ≤ s.NID → key i = key j → i = j

/-- The ids of the first store. -/
theorem init_id {i : Nat} (h : i ≤ Store.init.NID) : i = 0 ∨ i = 1 := by
  change i ≤ 1 at h
  omega

theorem index_init : Index Store.init fun _ => [] where
  pos := le_rfl
  next := rfl
  table := by
    intro i hi
    rcases init_id hi with rfl | rfl <;> rfl
  room := ⟨Nat.lt_succ_self 1, le_rfl⟩
  size := .inl ⟨rfl, rfl⟩
  nid := by
    intro i hi
    rcases init_id hi with rfl | rfl <;> rfl
  top := rfl
  parent := by
    intro i h hi
    change i ≤ 1 at hi
    omega
  children := by
    intro j h hj
    have hj1 : j = 1 := by
      change j ≤ 1 at hj
      omega
    subst hj1
    refine ⟨[], .nil, Nat.zero_le _, fun i => ⟨fun h => absurd h List.not_mem_nil, ?_⟩⟩
    rintro ⟨h1, h2, -⟩
    change i ≤ 1 at h2
    omega
  inj := by
    intro i j hi hi' hj hj' _
    change i ≤ 1 at hi'
    change j ≤ 1 at hj'
    omega

theorem findPeer_spec {heap : Nat → Node} {p : Option Nat} {cs : List Nat} (h : Peers heap p cs)
    (label : Text) {n : Nat} (hn : cs.length ≤ n) :
    (∃ q ∈ cs, fold (heap q).n_label = fold label ∧ findPeer heap label n p = some (some q)) ∨
      ((∀ q ∈ cs, fold (heap q).n_label ≠ fold label) ∧ findPeer heap label n p = some none) := by
  induction h generalizing n with
  | nil => exact .inr ⟨fun _ h => absurd h List.not_mem_nil, by cases n <;> rfl⟩
  | @cons p cs _ ih =>
    obtain ⟨n, rfl⟩ : ∃ m, n = m + 1 := Nat.exists_eq_add_one.mpr (by simp at hn; omega)
    simp only [List.length_cons, Nat.add_le_add_iff_right] at hn
    unfold findPeer
    by_cases hl : fold (heap p).n_label = fold label
    · rw [if_pos (strcaseeq_iff.mpr hl)]
      exact .inl ⟨p, List.mem_cons_self, hl, rfl⟩
    · rw [if_neg fun h => hl (strcaseeq_iff.mp h)]
      rcases ih hn with ⟨q, hq, hql, hf⟩ | ⟨hno, hf⟩
      · exact .inl ⟨q, List.mem_cons_of_mem _ hq, hql, hf⟩
      · refine .inr ⟨?_, hf⟩
        intro q hq
        rcases List.mem_cons.mp hq with rfl | hq
        · exact hl
        · exact hno q hq

section Index
variable {s : Store} {key : Nat → List Text}

/-- A node with labels is not the top node. -/
theorem Index.one_lt (h : Index s key) {q : Nat} (h1 : 1 ≤ q) (hkey : key q ≠ []) : 1 < q := by
  apply Nat.lt_of_le_of_ne h1
  rintro rfl
  exact hkey h.top

/-- The child of a node with a label, if there is one. -/
theorem Index.find (h : Index s key) {np : Nat} (h1 : 1 ≤ np) (hnp : np ≤ s.NID) (label : Text) :
    (∃ q, 1 < q ∧ q ≤ s.NID ∧ key q = fold label :: key np ∧
        findPeer s.heap label s.next (s.heap np).n_child = some (some q)) ∨
      ((∀ q, 1 ≤ q → q ≤ s.NID → key q ≠ fold label :: key np) ∧
        findPeer s.heap label s.next (s.heap np).n_child = some none) := by
  obtain ⟨cs, hpeers, hlen, hmem⟩ := h.children np h1 hnp
  have hfuel : cs.length ≤ s.next := by
    rw [h.next]
    omega
  rcases findPeer_spec hpeers label hfuel with ⟨q, hq, hl, hf⟩ | ⟨hno, hf⟩
  · obtain ⟨hq1, hqn, hpar⟩ := (hmem q).mp hq
    obtain ⟨j, hj, -, -, hkey⟩ := h.parent q hq1 hqn
    rw [hpar] at hj
    cases hj
    exact .inl ⟨q, hq1, hqn, by rw [hkey, hl], hf⟩
  · refine .inr ⟨?_, hf⟩
    intro q hq1 hqn hkey
    have hq : 1 < q := h.one_lt hq1 (by rw [hkey]; exact List.cons_ne_nil _ _)
    obtain ⟨j, hpar, hj1, hjq, hkj⟩ := h.parent q hq hqn
    rw [hkj, List.cons.injEq] at hkey
    have hjnp : j = np := h.inj j np hj1 (by omega) h1 hnp hkey.2
    exact hno q ((hmem q).mpr ⟨hq, hqn, hjnp ▸ hpar⟩) hkey.1

/-! ## A new node -/

theorem growTable_spec (nodes : List Nat) (n : Nat) :
    n ≤ (growTable nodes n).length ∧
      ∀ i < nodes.length, i < n → (growTable nodes n)[i]? = nodes[i]? := by
  unfold growTable
  have hsize : n ≤ (if n * 8 < 1024 then 1024 else n * 8) / 8 := by
    split <;> omega
  refine ⟨?_, ?_⟩
  · simp only [List.length_take, List.length_append, List.length_replicate]
    omega
  · intro i hi hn
    simp only [List.getElem?_take]
    rw [if_pos (by omega), List.getElem?_append_left hi]

/-- The store with room for one more id. -/
theorem newnode_spec (h : Index s key) :
    ∃ nodes a x, newnode s =
        ({ s with heap := Function.update s.heap s.next { n_nid := s.NID + 1 }, next := s.next + 1
                  Nodes := nodes, NodesA := a, NodesX := x, NID := s.NID + 1 }, s.next) ∧
      (∀ i ≤ s.NID + 1, nodes[i]? = some i) ∧ s.NID + 1 < x ∧ x ≤ nodes.length ∧
      ((x = 2 ∧ a = 0) ∨ x = a * MAXLEV) := by
  obtain ⟨hlt, hle⟩ := h.room
  have hset : ∀ nodes : List Nat, s.NID + 1 < nodes.length →
      (∀ i ≤ s.NID, nodes[i]? = some i) →
      ∀ i ≤ s.NID + 1, (nodes.set (s.NID + 1) s.next)[i]? = some i := by
    intro nodes hlen htab i hi
    by_cases hi' : s.NID + 1 = i
    · subst hi'
      rw [List.getElem?_set_self hlen, h.next]
    · rw [List.getElem?_set_ne hi']
      exact htab i (by omega)
  unfold newnode
  by_cases hgrow : s.NodesX ≤ s.NID + 1
  · have hx : s.NID + 1 < (s.NodesA + 1) * MAXLEV := by
      rcases h.size with ⟨hx, ha⟩ | hx
      · rw [ha]
        unfold MAXLEV
        omega
      · unfold MAXLEV at hx ⊢
        omega
    obtain ⟨hlen, hkeep⟩ := growTable_spec s.Nodes ((s.NodesA + 1) * MAXLEV)
    simp only [if_pos hgrow]
    refine ⟨_, _, _, rfl, ?_, hx, ?_, .inr rfl⟩
    · apply hset _ (by omega)
      intro i hi
      rw [hkeep i (by omega) (by omega), h.table i hi]
    · rw [List.length_set]
      exact hlen
  · simp only [if_neg hgrow]
    refine ⟨_, _, _, rfl, hset _ (by omega) h.table, by omega, ?_, h.size⟩
    rw [List.length_set]
    exact hle

theorem Peers.congr {heap heap' : Nat → Node} {p : Option Nat} {cs : List Nat}
    (h : Peers heap p cs) (hsame : ∀ q ∈ cs, (heap' q).n_peer = (heap q).n_peer) :
    Peers heap' p cs := by
  induction h with
  | nil => exact .nil
  | @cons p cs _ ih =>
    refine .cons ?_
    rw [hsame p List.mem_cons_self]
    exact ih fun q hq => hsame q (List.mem_cons_of_mem _ hq)

/-- The keys with one more. -/
def addKey (key : Nat → List Text) (i : Nat) (k : List Text) : Nat → List Text :=
  Function.update key i k

/-- The store after a new child: the new node, its parent and the others. -/
structure Added (s s' : Store) (np : Nat) (label : Text) : Prop where
  NID : s'.NID = s.NID + 1
  next : s'.next = s.NID + 2
  table : ∀ i ≤ s.NID + 1, s'.Nodes[i]? = some i
  room : s.NID + 1 < s'.NodesX ∧ s'.NodesX ≤ s'.Nodes.length
  size : (s'.NodesX = 2 ∧ s'.NodesA = 0) ∨ s'.NodesX = s'.NodesA * MAXLEV
  self : s'.heap (s.NID + 1) = { n_nid := s.NID + 1, n_label := label, n_parent := some np
                                 n_peer := (s.heap np).n_child }
  parent : s'.heap np = { s.heap np with n_child := some (s.NID + 1) }
  other : ∀ p, p ≠ np → p ≠ s.NID + 1 → s'.heap p = s.heap p

theorem addChild_spec (h : Index s key) {np : Nat} (hnp : np ≤ s.NID) (label : Text) :
    ∃ s', dnsnode.addChild s np label = (s', s.NID + 1) ∧ Added s s' np label := by
  obtain ⟨nodes, a, x, hs, htab, hroom, hlen, hsize⟩ := newnode_spec h
  have hne : np ≠ s.NID + 1 := by omega
  unfold dnsnode.addChild
  rw [hs, h.next]
  refine ⟨_, rfl, rfl, rfl, htab, ⟨hroom, hlen⟩, hsize, ?_, ?_, ?_⟩
  · simp [Store.setNode, hne.symm]
  · simp [Store.setNode, hne]
  · intro p hp hp'
    simp [Store.setNode, hp, hp']

/-- The fields of the old nodes, but for the child of the parent. -/
theorem Added.old {s' : Store} {np : Nat} {label : Text} (h : Added s s' np label) {i : Nat}
    (hi : i ≤ s.NID) :
    (s'.heap i).n_nid = (s.heap i).n_nid ∧ (s'.heap i).n_label = (s.heap i).n_label ∧
      (s'.heap i).n_parent = (s.heap i).n_parent ∧ (s'.heap i).n_peer = (s.heap i).n_peer := by
  by_cases hinp : i = np
  · rw [hinp, h.parent]
    exact ⟨rfl, rfl, rfl, rfl⟩
  · rw [h.other i hinp (by omega)]
    exact ⟨rfl, rfl, rfl, rfl⟩

/-- The nodes below an old node: those from before, and the new one below its parent. -/
theorem Added.parent_iff {s' : Store} {np : Nat} {label : Text} (h : Added s s' np label)
    (hs : 1 ≤ s.NID) (i j : Nat) :
    (1 < i ∧ i ≤ s.NID + 1 ∧ (s'.heap i).n_parent = some j) ↔
      (i = s.NID + 1 ∧ j = np) ∨ (1 < i ∧ i ≤ s.NID ∧ (s.heap i).n_parent = some j) := by
  constructor
  · rintro ⟨hi1, hi, hp⟩
    by_cases hi' : i = s.NID + 1
    · rw [hi', h.self] at hp
      exact .inl ⟨hi', (Option.some.inj hp).symm⟩
    · have hle : i ≤ s.NID := by omega
      rw [(h.old hle).2.2.1] at hp
      exact .inr ⟨hi1, hle, hp⟩
  · rintro (⟨rfl, rfl⟩ | ⟨hi1, hi, hp⟩)
    · exact ⟨by omega, le_rfl, by rw [h.self]⟩
    · exact ⟨hi1, by omega, by rw [(h.old hi).2.2.1, hp]⟩

/-- The lists of children after a new child. -/
theorem Index.added_children (h : Index s key) {s' : Store} {np : Nat} {label : Text}
    (ha : Added s s' np label) (hnp : np ≤ s.NID) {j : Nat} (hj1 : 1 ≤ j) (hj : j ≤ s.NID + 1) :
    ∃ cs, Peers s'.heap (s'.heap j).n_child cs ∧ cs.length ≤ s.NID + 1 ∧
      ∀ i, i ∈ cs ↔ 1 < i ∧ i ≤ s.NID + 1 ∧ (s'.heap i).n_parent = some j := by
  by_cases hj' : j = s.NID + 1
  · subst hj'
    refine ⟨[], by rw [ha.self]; exact .nil, Nat.zero_le _, ?_⟩
    intro i
    rw [ha.parent_iff h.pos]
    refine ⟨(absurd · List.not_mem_nil), ?_⟩
    rintro (⟨-, hnew⟩ | ⟨hi1, hi, hp⟩)
    · omega
    · obtain ⟨k, hk, -, hki, -⟩ := h.parent i hi1 hi
      have := Option.some.inj (hp.symm.trans hk)
      omega
  · obtain ⟨cs, hcs, hlen, hmem⟩ := h.children j hj1 (by omega)
    have hpeers : Peers s'.heap (s.heap j).n_child cs :=
      hcs.congr fun q hq => (ha.old ((hmem q).mp hq).2.1).2.2.2
    by_cases hjnp : j = np
    · subst hjnp
      refine ⟨(s.NID + 1) :: cs, ?_, Nat.succ_le_succ hlen, ?_⟩
      · rw [ha.parent]
        refine .cons ?_
        rw [ha.self]
        exact hpeers
      · intro i
        rw [List.mem_cons, hmem, ha.parent_iff h.pos, and_iff_left rfl]
    · refine ⟨cs, by rw [ha.other j hjnp hj']; exact hpeers, by omega, ?_⟩
      intro i
      rw [hmem, ha.parent_iff h.pos]
      exact ⟨.inr, fun hi => hi.resolve_left fun hnew => hjnp hnew.2⟩

/-- A new child of a node gets the next id, and stands for its label before those of the node. -/
theorem Index.addChild (h : Index s key) {np : Nat} (h1 : 1 ≤ np) (hnp : np ≤ s.NID)
    {label : Text} (hnew : ∀ q, 1 ≤ q → q ≤ s.NID → key q ≠ fold label :: key np) :
    ∃ s', dnsnode.addChild s np label = (s', s.NID + 1) ∧ s'.NID = s.NID + 1 ∧
      Index s' (addKey key (s.NID + 1) (fold label :: key np)) := by
  obtain ⟨s', hs', ha⟩ := addChild_spec h hnp label
  have hne : np ≠ s.NID + 1 := by omega
  have hkey : ∀ i, i ≠ s.NID + 1 → addKey key (s.NID + 1) (fold label :: key np) i = key i :=
    fun i hi => Function.update_of_ne hi _ _
  have hkeyNew : addKey key (s.NID + 1) (fold label :: key np) (s.NID + 1) = fold label :: key np :=
    Function.update_self _ _ _
  refine ⟨s', hs', ha.NID, ?_⟩
  constructor
  · rw [ha.NID]
    omega
  · rw [ha.next, ha.NID]
  · rw [ha.NID]
    exact ha.table
  · rw [ha.NID]
    exact ha.room
  · exact ha.size
  · -- nid
    rw [ha.NID]
    intro i hi
    by_cases hi' : i = s.NID + 1
    · rw [hi', ha.self]
    · rw [(ha.old (by omega)).1]
      exact h.nid i (by omega)
  · -- top
    rw [hkey _ (by have := h.pos; unfold TopNode; omega)]
    exact h.top
  · -- parent
    rw [ha.NID]
    intro i hi1 hi
    by_cases hi' : i = s.NID + 1
    · subst hi'
      refine ⟨np, by rw [ha.self], h1, by omega, ?_⟩
      rw [hkeyNew, ha.self, hkey np hne]
    · obtain ⟨j, hj, hj1, hji, hkj⟩ := h.parent i hi1 (by omega)
      have hold := ha.old (show i ≤ s.NID by omega)
      refine ⟨j, by rw [hold.2.2.1, hj], hj1, hji, ?_⟩
      rw [hkey i hi', hkey j (by omega), hold.2.1, hkj]
  · -- children
    rw [ha.NID]
    exact fun j hj1 hj => h.added_children ha hnp hj1 hj
  · -- inj
    rw [ha.NID]
    intro i j hi1 hi hj1 hj hij
    by_cases hi' : i = s.NID + 1
    · by_cases hj' : j = s.NID + 1
      · omega
      · rw [hi', hkeyNew, hkey j hj'] at hij
        exact absurd hij.symm (hnew j hj1 (by omega))
    · by_cases hj' : j = s.NID + 1
      · rw [hj', hkeyNew, hkey i hi'] at hij
        exact absurd hij (hnew i hi1 (by omega))
      · rw [hkey i hi', hkey j hj'] at hij
        exact h.inj i j hi1 (by omega) hj1 (by omega) hij

/-- A node with the same links. -/
structure SameLinks (n n' : Node) : Prop where
  nid : n'.n_nid = n.n_nid
  label : n'.n_label = n.n_label
  parent : n'.n_parent = n.n_parent
  child : n'.n_child = n.n_child
  peer : n'.n_peer = n.n_peer

/-- A change of the data of a node leaves the index. -/
theorem Index.setNode (h : Index s key) {p : Nat} {n : Node} (hn : SameLinks (s.heap p) n) :
    Index (s.setNode p n) key := by
  have hsame : ∀ q, SameLinks (s.heap q) ((s.setNode p n).heap q) := by
    intro q
    unfold Store.setNode
    by_cases hq : q = p
    · rw [hq]
      simpa using hn
    · simp only [Function.update_of_ne hq]
      exact ⟨rfl, rfl, rfl, rfl, rfl⟩
  refine ⟨h.pos, h.next, h.table, h.room, h.size, ?_, h.top, ?_, ?_, h.inj⟩
  · intro i hi
    rw [(hsame i).nid]
    exact h.nid i hi
  · intro i h1 hi
    obtain ⟨j, hj⟩ := h.parent i h1 hi
    exact ⟨j, by rw [(hsame i).parent, (hsame i).label]; exact hj⟩
  · intro j h1 hj
    obtain ⟨cs, hcs, hlen, hmem⟩ := h.children j h1 hj
    refine ⟨cs, ?_, hlen, ?_⟩
    · rw [(hsame j).child]
      exact hcs.congr fun q _ => (hsame q).peer
    · intro i
      rw [(hsame i).parent]
      exact hmem i

/-! ## The search -/

/-- Where a node for labels exists, its parent exists. -/
theorem Index.tail (h : Index s key) {q : Nat} (h1 : 1 ≤ q) (hq : q ≤ s.NID) {l : Text}
    {ls : List Text} (hkey : key q = l :: ls) : ∃ j, 1 ≤ j ∧ j ≤ s.NID ∧ key j = ls := by
  have hq1 : 1 < q := h.one_lt h1 (by rw [hkey]; exact List.cons_ne_nil _ _)
  obtain ⟨j, -, hj1, hjq, hkj⟩ := h.parent q hq1 hq
  rw [hkj, List.cons.injEq] at hkey
  exact ⟨j, hj1, by omega, hkey.2⟩

/-- A search without creation leaves the store, and finds the node for the labels if there is
one. -/
theorem descend_get (h : Index s key) (labels : List Text) :
    (∃ q, 1 ≤ q ∧ q ≤ s.NID ∧ key q = labels.map fold ∧
        descend false labels s = some (s, some q)) ∨
      ((∀ q, 1 ≤ q → q ≤ s.NID → key q ≠ labels.map fold) ∧
        descend false labels s = some (s, none)) := by
  induction labels with
  | nil => exact .inl ⟨1, le_rfl, h.pos, h.top, rfl⟩
  | cons label labels ih =>
    unfold descend
    rcases ih with ⟨np, h1, hnp, hkey, hd⟩ | ⟨hno, hd⟩
    · rw [hd]
      simp only
      rcases h.find h1 hnp label with ⟨q, hq1, hq, hkq, hf⟩ | ⟨hno, hf⟩
      · rw [hf]
        exact .inl ⟨q, by omega, hq, by rw [hkq, hkey, List.map_cons], rfl⟩
      · rw [hf]
        refine .inr ⟨?_, rfl⟩
        rw [List.map_cons, ← hkey]
        exact hno
    · rw [hd]
      refine .inr ⟨?_, rfl⟩
      intro q h1 hq hkq
      obtain ⟨j, hj1, hj, hkj⟩ := h.tail h1 hq hkq
      exact hno j hj1 hj hkj

/-- The keys of a store are kept in another one. -/
def Extends (s s' : Store) (key key' : Nat → List Text) : Prop :=
  s.NID ≤ s'.NID ∧ ∀ i ≤ s.NID, key' i = key i

/-- A search with creation finds or makes the nodes for the labels and for all their parents. -/
theorem descend_put (h : Index s key) (labels : List Text) :
    ∃ s' key' q, descend true labels s = some (s', some q) ∧ Index s' key' ∧
      Extends s s' key key' ∧ 1 ≤ q ∧ q ≤ s'.NID ∧ key' q = labels.map fold ∧
      ∀ i, s.NID < i → i ≤ s'.NID → key' i <:+ labels.map fold := by
  induction labels with
  | nil =>
    exact ⟨s, key, 1, rfl, h, ⟨le_rfl, fun _ _ => rfl⟩, le_rfl, h.pos, h.top, fun i _ _ => by omega⟩
  | cons label labels ih =>
    obtain ⟨s', key', np, hd, hidx, hext, h1, hnp, hkey, hnew⟩ := ih
    unfold descend
    rw [hd]
    simp only
    rcases hidx.find h1 hnp label with ⟨q, hq1, hq, hkq, hf⟩ | ⟨hno, hf⟩
    · rw [hf]
      refine ⟨s', key', q, rfl, hidx, hext, by omega, hq, by rw [hkq, hkey, List.map_cons], ?_⟩
      intro i hi hi'
      exact (hnew i hi hi').trans (List.suffix_cons _ _)
    · rw [hf]
      obtain ⟨s'', hs'', hNID, hidx'⟩ := hidx.addChild h1 hnp hno
      simp only [if_true, hs'']
      have hkeep : ∀ i, i ≤ s'.NID → addKey key' (s'.NID + 1) (fold label :: key' np) i = key' i :=
        fun i hi => Function.update_of_ne (by omega) _ _
      have hself : addKey key' (s'.NID + 1) (fold label :: key' np) (s'.NID + 1) =
          (label :: labels).map fold := by
        rw [List.map_cons, ← hkey]
        exact Function.update_self _ _ _
      have hle := hext.1
      refine ⟨s'', _, _, rfl, hidx', ⟨by omega, ?_⟩, by omega, by omega, hself, ?_⟩
      · intro i hi
        rw [hkeep i (by omega)]
        exact hext.2 i hi
      · intro i hi hi'
        by_cases hlast : i = s'.NID + 1
        · rw [hlast, hself]
        · rw [hkeep i (by omega)]
          exact (hnew i hi (by omega)).trans (List.suffix_cons _ _)

end Index

/-! ## Names -/

/-- The labels of a name, which may end with a dot. -/
def labelsOf (name : Text) : List Text :=
  (split '.' name).1 ++ if (split '.' name).2 = [] then [] else [(split '.' name).2]

/-- A name of 1 to 36 labels that are not empty, in less than 512 bytes. -/
def Valid (name : Text) : Prop :=
  labelsOf name ≠ [] ∧ (∀ l ∈ labelsOf name, l ≠ []) ∧ (labelsOf name).length ≤ MAXLEV ∧
    name.length < 512

instance instDecidableValid (name : Text) : Decidable (Valid name) :=
  inferInstanceAs (Decidable (_ ∧ _ ∧ _ ∧ _))

/-- The key of a name. -/
def keyOf (name : Text) : List Text := (labelsOf name).map fold

theorem nameLabels_last {lc lp : Nat} {last : Text} (hdot : '.' ∉ last) (hne : last ≠ [])
    (hlc : lc < MAXLEV) (hlp : lp + last.length < 512) : nameLabels lc lp last = [last] := by
  obtain ⟨c, r, rfl⟩ := List.exists_cons_of_ne_nil hne
  have hall : ∀ d ∈ c :: r, (d != '.') = true := by
    intro d hd
    rw [bne_iff_ne]
    rintro rfl
    exact hdot hd
  obtain ⟨htake, hdrop⟩ := @while_append (· != '.') (c :: r) [] hall (by simp)
  rw [List.append_nil] at htake hdrop
  rw [List.length_cons] at hlp
  rw [nameLabels, if_neg (by omega), if_neg (by omega), htake, hdrop]
  dsimp only
  have hall' : (c :: r).take (511 - lp) = c :: r :=
    List.take_of_length_le (by rw [List.length_cons]; omega)
  rw [hall']
  simp [nameLabels]

theorem nameLabels_label {lc lp : Nat} {d np : Text} (hdot : '.' ∉ d)
    (hlc : lc < MAXLEV) (hlp : lp + d.length + 1 < 512) :
    nameLabels lc lp (d ++ '.' :: np) = d :: nameLabels (lc + 1) (lp + d.length + 1) np := by
  have hall : ∀ c ∈ d, (c != '.') = true := by
    intro c hc
    rw [bne_iff_ne]
    rintro rfl
    exact hdot hc
  obtain ⟨htake, hdrop⟩ := @while_append (· != '.') d ('.' :: np) hall (by simp)
  obtain ⟨c, r, hcr⟩ := List.exists_cons_of_ne_nil (show d ++ '.' :: np ≠ [] by simp)
  rw [hcr] at htake hdrop ⊢
  rw [nameLabels, if_neg (by omega), if_neg (by omega), htake, hdrop]
  dsimp only
  have hcut : d.take (511 - lp) = d := List.take_of_length_le (by omega)
  have hmin : min (d.length + 1) (512 - lp) = d.length + 1 := by omega
  rw [hcut, hmin, List.drop_one, List.tail_cons, Nat.add_assoc]

/-- The loop of `nsearch` over a name reads its labels. -/
theorem nameLabels_flat {ds : List Text} {last : Text} (hds : ∀ d ∈ ds, '.' ∉ d)
    (hlast : '.' ∉ last) {lc lp : Nat} (hlc : lc + ds.length + (if last = [] then 0 else 1) ≤ MAXLEV)
    (hlp : lp + (flat '.' ds ++ last).length < 512) :
    nameLabels lc lp (flat '.' ds ++ last) = ds ++ if last = [] then [] else [last] := by
  induction ds generalizing lc lp with
  | nil =>
    by_cases hl : last = []
    · subst hl
      simp [nameLabels]
    · rw [if_neg hl] at hlc ⊢
      exact nameLabels_last hlast hl (by simp at hlc; omega) hlp
  | cons d ds ih =>
    simp only [flat_cons, List.length_append, List.length_cons] at hlp hlc
    rw [flat_cons, List.append_assoc, List.cons_append,
      nameLabels_label (hds d List.mem_cons_self) (by omega) (by omega),
      ih (fun e he => hds e (List.mem_cons_of_mem _ he)) (by omega)
        (by simp only [List.length_append]; omega)]
    rfl

theorem nameLabels_eq {name : Text} (h : Valid name) : nameLabels 0 0 name = labelsOf name := by
  obtain ⟨htext, hds, hlast⟩ := @split_spec _ _ '.' name
  obtain ⟨-, -, hlen, hsize⟩ := h
  unfold labelsOf at hlen ⊢
  conv_lhs => rw [htext]
  apply nameLabels_flat hds hlast
  · by_cases hl : (split '.' name).2 = []
    · simpa [hl] using hlen
    · simpa [hl] using hlen
  · rw [← htext]
    omega

/-- The labels with dots between them. -/
def joinDots : List Text → Text
  | [] => []
  | [l] => l
  | l :: ls => l ++ '.' :: joinDots ls

theorem joinDots_cons {ls : List Text} (h : ls ≠ []) (l : Text) :
    joinDots (l :: ls) = l ++ '.' :: joinDots ls := by
  cases ls with
  | nil => exact absurd rfl h
  | cons l' ls => rfl

theorem joinDots_append (ds : List Text) (last : Text) :
    joinDots (ds ++ [last]) = flat '.' ds ++ last := by
  induction ds with
  | nil => rfl
  | cons d ds ih =>
    rw [List.cons_append, joinDots_cons (by simp), ih, flat_cons, List.append_assoc,
      List.cons_append]

theorem length_joinDots_fold (ls : List Text) :
    (joinDots (ls.map fold)).length = (joinDots ls).length := by
  induction ls with
  | nil => rfl
  | cons l ls ih =>
    by_cases h : ls = []
    · subst h
      simp [joinDots, fold]
    · have h' : ls.map fold ≠ [] := by simpa using h
      rw [List.map_cons, joinDots_cons h', joinDots_cons h, List.length_append, List.length_append,
        List.length_cons, List.length_cons, ih]
      simp [fold]

/-- A name of the labels has a dot at its end or not. -/
theorem length_joinDots_labelsOf (name : Text) :
    (joinDots (labelsOf name)).length ≤ name.length := by
  obtain ⟨htext, -, -⟩ := @split_spec _ _ '.' name
  conv_rhs => rw [htext]
  unfold labelsOf
  generalize (split '.' name).1 = ds, (split '.' name).2 = last
  by_cases hl : last = []
  · subst hl
    rw [if_pos rfl, List.append_nil, List.append_nil]
    rcases List.eq_nil_or_concat ds with rfl | ⟨ds, d, rfl⟩
    · simp [joinDots]
    · rw [List.concat_eq_append, joinDots_append]
      simp
  · rw [if_neg hl, joinDots_append]

/-- Labels that fit in a name. -/
structure Fits (ls : List Text) : Prop where
  labels : ∀ l ∈ ls, l ≠ [] ∧ '.' ∉ l
  count : ls.length ≤ MAXLEV
  size : (joinDots ls).length < 512

theorem dot_mem_fold {l : Text} : '.' ∈ fold l ↔ '.' ∈ l := by
  unfold fold
  rw [List.mem_map]
  constructor
  · rintro ⟨c, hc, h⟩
    exact eq_of_toLower_eq (by decide) h ▸ hc
  · exact fun h => ⟨'.', h, rfl⟩

theorem fold_eq_nil {l : Text} : fold l = [] ↔ l = [] := by simp [fold]

theorem fits_fold {ls : List Text} : Fits (ls.map fold) ↔ Fits ls := by
  constructor
  · intro h
    refine ⟨?_, by simpa using h.count, by simpa [length_joinDots_fold] using h.size⟩
    intro l hl
    obtain ⟨hne, hdot⟩ := h.labels (fold l) (List.mem_map_of_mem hl)
    exact ⟨fun h => hne (fold_eq_nil.mpr h), fun h => hdot (dot_mem_fold.mpr h)⟩
  · intro h
    refine ⟨?_, by simpa using h.count, by simpa [length_joinDots_fold] using h.size⟩
    intro l hl
    obtain ⟨k, hk, rfl⟩ := List.mem_map.mp hl
    obtain ⟨hne, hdot⟩ := h.labels k hk
    exact ⟨fun h => hne (fold_eq_nil.mp h), fun h => hdot (dot_mem_fold.mp h)⟩

theorem fits_labelsOf {name : Text} (h : Valid name) : Fits (labelsOf name) := by
  obtain ⟨-, hds, hlast⟩ := @split_spec _ _ '.' name
  obtain ⟨-, hne, hlen, hsize⟩ := h
  refine ⟨?_, hlen, lt_of_le_of_lt (length_joinDots_labelsOf name) hsize⟩
  intro l hl
  refine ⟨hne l hl, ?_⟩
  unfold labelsOf at hl
  rcases List.mem_append.mp hl with hl | hl
  · exact hds l hl
  · split at hl
    · cases hl
    · rw [List.mem_singleton.mp hl]
      exact hlast

theorem Fits.tail {l : Text} {ls : List Text} (h : Fits (l :: ls)) : Fits ls := by
  have hcount := h.count
  have hsize := h.size
  rw [List.length_cons] at hcount
  refine ⟨fun k hk => h.labels k (List.mem_cons_of_mem _ hk), by omega, ?_⟩
  by_cases hls : ls = []
  · rw [hls]
    decide
  · rw [joinDots_cons hls, List.length_append, List.length_cons] at hsize
    omega

theorem Fits.suffix {ls ks : List Text} (h : Fits ls) (hs : ks <:+ ls) : Fits ks := by
  induction ls with
  | nil => rwa [List.suffix_nil.mp hs]
  | cons l ls ih =>
    rcases List.suffix_cons_iff.mp hs with rfl | hs
    · exact h
    · exact ih h.tail hs

/-- The labels of a joined name are those it was made of. -/
theorem labelsOf_joinDots {ls : List Text} (h : Fits ls) (hne : ls ≠ []) :
    labelsOf (joinDots ls) = ls := by
  rcases List.eq_nil_or_concat ls with rfl | ⟨ds, d, rfl⟩
  · exact absurd rfl hne
  rw [List.concat_eq_append] at h ⊢
  obtain ⟨hd, hdot⟩ := h.labels d (by simp)
  have hds : ∀ e ∈ ds, '.' ∉ e := fun e he => (h.labels e (List.mem_append_left _ he)).2
  unfold labelsOf
  rw [joinDots_append, split_flat hds, split_of_not_mem hdot]
  simp [hd]

theorem valid_joinDots {ls : List Text} (h : Fits ls) (hne : ls ≠ []) : Valid (joinDots ls) := by
  unfold Valid
  rw [labelsOf_joinDots h hne]
  exact ⟨hne, fun l hl => (h.labels l hl).1, h.count, h.size⟩

/-! ## The names of nodes -/

section Index
variable {s : Store} {key : Nat → List Text}

/-- The name of a node is made of its labels. -/
theorem Index.getnodename (h : Index s key) {i n : Nat} (h1 : 1 < i) (hi : i ≤ s.NID) (hn : i ≤ n) :
    ∃ ls, ls.map fold = key i ∧ getnodename s.heap n i = some (joinDots ls) := by
  induction n generalizing i with
  | zero => omega
  | succ n ih =>
    obtain ⟨j, hpar, hj1, hji, hkey⟩ := h.parent i h1 hi
    unfold dnsnode.getnodename
    rw [hpar]
    by_cases hj : j = TopNode
    · rw [hj, h.top] at hkey
      simp only [hj, if_true]
      exact ⟨[(s.heap i).n_label], by rw [hkey]; rfl, rfl⟩
    · have hj1' : 1 < j := by
        unfold TopNode at hj
        omega
      obtain ⟨ls, hls, hname⟩ := ih hj1' (by omega) (by omega)
      have hne : ls ≠ [] := by
        rintro rfl
        obtain ⟨k, -, -, -, hk⟩ := h.parent j hj1' (by omega)
        rw [hk] at hls
        cases hls
      simp only [if_neg hj, hname, Option.map_some]
      exact ⟨(s.heap i).n_label :: ls, by rw [List.map_cons, hls, hkey], by rw [joinDots_cons hne]⟩

theorem Index.getnode (h : Index s key) {i : Nat} (hi : i ≤ s.NID) : getnode s i = i := by
  unfold dnsnode.getnode
  rw [List.getD_eq_getElem?_getD, h.table i hi]
  rfl

theorem labelsOf_ne_root {name : Text} (hv : Valid name) : labelsOf name ≠ [[]] := by
  intro h
  exact hv.2.1 [] (by rw [h]; exact List.mem_singleton.mpr rfl) rfl

theorem DNS_getbyname_spec (h : Index s key) {name : Text} (hv : Valid name) :
    (∃ q, 1 ≤ q ∧ q ≤ s.NID ∧ key q = keyOf name ∧ DNS_getbyname name s = some (s, q)) ∨
      ((∀ q, 1 ≤ q → q ≤ s.NID → key q ≠ keyOf name) ∧ DNS_getbyname name s = some (s, 0)) := by
  unfold DNS_getbyname nsearch
  simp only [nameLabels_eq hv, if_neg (labelsOf_ne_root hv)]
  rcases descend_get h (labelsOf name) with ⟨q, h1, hq, hkey, hd⟩ | ⟨hno, hd⟩
  · refine .inl ⟨q, h1, hq, hkey, ?_⟩
    rw [hd]
    simp [h.nid q hq]
  · have hzero : (s.heap NoNode).n_nid = 0 := h.nid NoNode (Nat.zero_le _)
    refine .inr ⟨hno, ?_⟩
    rw [hd]
    simp only [Option.map_some, hzero]

theorem DNS_putbyname_spec (h : Index s key) {name : Text} (hv : Valid name) :
    ∃ s' key' q, DNS_putbyname name s = some (s', q) ∧ Index s' key' ∧ Extends s s' key key' ∧
      1 ≤ q ∧ q ≤ s'.NID ∧ key' q = keyOf name ∧
      ∀ i, s.NID < i → i ≤ s'.NID → key' i <:+ keyOf name := by
  obtain ⟨s', key', q, hd, hidx, hext, h1, hq, hkey, hnew⟩ := descend_put h (labelsOf name)
  have hset := @Index.setNode _ _ hidx q { s'.heap q with leaf := true } ⟨rfl, rfl, rfl, rfl, rfl⟩
  refine ⟨_, key', q, ?_, hset, hext, h1, hq, hkey, hnew⟩
  unfold DNS_putbyname nsearch
  simp only [nameLabels_eq hv, if_neg (labelsOf_ne_root hv), hd, if_true, Option.map_some]
  rw [hset.nid q hq]

/-- The name of a node leads back to it. -/
theorem DNS_nodename_spec (h : Index s key) {id : Nat} (h1 : 1 < id) (hid : id ≤ s.NID)
    (hfits : Fits (key id)) :
    ∃ t, DNS_nodename s id 512 = some t ∧ DNS_getbyname t s = some (s, id) := by
  have hnext : id ≤ s.next := by
    rw [h.next]
    omega
  obtain ⟨ls, hls, hname⟩ := h.getnodename h1 hid hnext
  rw [← hls, fits_fold] at hfits
  have hne : ls ≠ [] := by
    rintro rfl
    obtain ⟨k, -, -, -, hk⟩ := h.parent id h1 hid
    rw [hk] at hls
    cases hls
  refine ⟨joinDots ls, ?_, ?_⟩
  · have hsize := hfits.size
    unfold DNS_nodename
    rw [h.getnode hid, hname, Option.map_some, List.take_of_length_le (by omega)]
  · have hkey : keyOf (joinDots ls) = key id := by
      unfold keyOf
      rw [labelsOf_joinDots hfits hne, hls]
    rcases DNS_getbyname_spec h (valid_joinDots hfits hne) with ⟨q, hq1, hq, hkq, hget⟩ | ⟨hno, -⟩
    · rw [hget, h.inj q id hq1 hq (by omega) hid (by rw [hkq, hkey])]
    · exact absurd hkey.symm (hno id (by omega) hid)

end Index

/-! ## Runs -/

inductive Op
  | put (name : Text)
  | get (name : Text)
  deriving DecidableEq, Repr

def Op.name : Op → Text
  | put name => name
  | get name => name

def step (s : Store) : Op → Option (Store × Nat)
  | .put name => DNS_putbyname name s
  | .get name => DNS_getbyname name s

/-- A run of calls, with the id that each one returns. -/
def run (s : Store) : List Op → Option (Store × List (Op × Nat))
  | [] => some (s, [])
  | op :: ops =>
    match step s op with
    | none => none
    | some (s, id) => (run s ops).map fun r => (r.1, (op, id) :: r.2)

/-- The names are the same up to case. -/
def SameName (a b : Text) : Prop := keyOf a = keyOf b

/-- The name `a` is the name `b` or a domain of it. -/
def DomainOf (a b : Text) : Prop := keyOf a <:+ keyOf b

/-- The store is a faithful index of the names of the calls in the log. -/
structure Faithful (s : Store) (log : List (Op × Nat)) : Prop where
  table : ∀ id ≤ s.NID, (s.heap (getnode s id)).n_nid = id
  given : ∀ name id, (Op.put name, id) ∈ log → id ≠ 0
  same : ∀ op id op' id', (op, id) ∈ log → (op', id') ∈ log → id ≠ 0 → id' ≠ 0 →
    (id = id' ↔ SameName op.name op'.name)
  found : ∀ before name id after, log = before ++ (Op.get name, id) :: after →
    (id = 0 ↔ ∀ put id', (Op.put put, id') ∈ before → ¬DomainOf name put)
  still : ∀ name, Valid name → ∃ id, DNS_getbyname name s = some (s, id)
  name : ∀ id, 1 < id → id ≤ s.NID →
    ∃ t, DNS_nodename s id 512 = some t ∧ DNS_getbyname t s = some (s, id)

/-- The invariant of runs. -/
structure History (s : Store) (key : Nat → List Text) (log : List (Op × Nat)) : Prop where
  index : Index s key
  puts : ∀ name id, (Op.put name, id) ∈ log → id ≠ 0
  ids : ∀ op id, (op, id) ∈ log → id ≠ 0 → 1 ≤ id ∧ id ≤ s.NID ∧ key id = keyOf op.name
  known : ∀ i, 1 < i → i ≤ s.NID → Fits (key i) ∧ ∃ name id, (Op.put name, id) ∈ log ∧
    key i <:+ keyOf name
  gets : ∀ before name id after, log = before ++ (Op.get name, id) :: after →
    (id = 0 ↔ ∀ put id', (Op.put put, id') ∈ before → ¬DomainOf name put)

theorem history_init : History Store.init (fun _ => []) [] where
  index := index_init
  puts _ _ h := absurd h List.not_mem_nil
  ids _ _ h := absurd h List.not_mem_nil
  known i h1 hi := by
    change i ≤ 1 at hi
    omega
  gets before name id after h := by
    have := congrArg List.length h
    simp at this

section History
variable {s : Store} {key : Nat → List Text} {log : List (Op × Nat)}

/-- All domains of the name of a node have nodes. -/
theorem Index.suffix (h : Index s key) {ks : List Text} {q : Nat} (h1 : 1 ≤ q) (hq : q ≤ s.NID)
    (hks : ks <:+ key q) : ∃ j, 1 ≤ j ∧ j ≤ s.NID ∧ key j = ks := by
  generalize hk : key q = k at hks
  induction k generalizing q with
  | nil => exact ⟨q, h1, hq, by rw [hk, List.suffix_nil.mp hks]⟩
  | cons l ls ih =>
    rcases List.suffix_cons_iff.mp hks with rfl | hks
    · exact ⟨q, h1, hq, hk⟩
    · obtain ⟨j, hj1, hj, hkj⟩ := h.tail h1 hq hk
      exact ih hj1 hj hkj hks

/-- A log with one more entry, at an entry of it. -/
theorem append_entry {α : Type} {log before after : List α} {e e' : α}
    (h : log ++ [e] = before ++ e' :: after) :
    (before = log ∧ e' = e) ∨ ∃ after', log = before ++ e' :: after' := by
  rcases List.eq_nil_or_concat after with rfl | ⟨after', x, rfl⟩
  · obtain ⟨hl, he⟩ := List.append_inj' h rfl
    cases he
    exact .inl ⟨hl.symm, rfl⟩
  · rw [List.concat_eq_append, ← List.cons_append, ← List.append_assoc] at h
    exact .inr ⟨after', (List.append_inj' h rfl).1⟩

theorem keyOf_ne_nil {name : Text} (hv : Valid name) : keyOf name ≠ [] := by
  unfold keyOf
  simpa using hv.1

/-- A name has a node if and only if it is a domain of a name that was put. -/
theorem History.node_iff (h : History s key log) {name : Text} (hv : Valid name) :
    (∃ q, 1 ≤ q ∧ q ≤ s.NID ∧ key q = keyOf name) ↔
      ∃ put id, (Op.put put, id) ∈ log ∧ DomainOf name put := by
  constructor
  · rintro ⟨q, h1, hq, hkey⟩
    have hq1 : 1 < q := h.index.one_lt h1 (by rw [hkey]; exact keyOf_ne_nil hv)
    obtain ⟨-, put, id, hmem, hsuf⟩ := h.known q hq1 hq
    exact ⟨put, id, hmem, by unfold DomainOf; rwa [← hkey]⟩
  · rintro ⟨put, id, hmem, hdom⟩
    obtain ⟨h1, hid, hkey⟩ := h.ids _ id hmem (h.puts put id hmem)
    exact h.index.suffix h1 hid (by rw [hkey]; exact hdom)

theorem History.get (h : History s key log) {name : Text} (hv : Valid name) :
    ∃ id, DNS_getbyname name s = some (s, id) ∧ History s key (log ++ [(.get name, id)]) := by
  have hadd : ∀ id, (id ≠ 0 → 1 ≤ id ∧ id ≤ s.NID ∧ key id = keyOf name) →
      (id = 0 ↔ ∀ put id', (Op.put put, id') ∈ log → ¬DomainOf name put) →
      History s key (log ++ [(.get name, id)]) := by
    intro id hid hzero
    refine ⟨h.index, ?_, ?_, ?_, ?_⟩
    · intro put id' hmem
      rcases List.mem_append.mp hmem with hmem | hmem
      · exact h.puts put id' hmem
      · cases List.mem_singleton.mp hmem
    · intro op id' hmem hne
      rcases List.mem_append.mp hmem with hmem | hmem
      · exact h.ids op id' hmem hne
      · cases List.mem_singleton.mp hmem
        exact hid hne
    · intro i h1 hi
      obtain ⟨hfits, put, id', hmem, hsuf⟩ := h.known i h1 hi
      exact ⟨hfits, put, id', List.mem_append_left _ hmem, hsuf⟩
    · intro before name' id' after hlog
      rcases append_entry hlog with ⟨rfl, he⟩ | ⟨after', hlog⟩
      · cases he
        exact hzero
      · exact h.gets before name' id' after' hlog
  have hiff := h.node_iff hv
  rcases DNS_getbyname_spec h.index hv with ⟨q, h1, hq, hkey, hget⟩ | ⟨hno, hget⟩
  · refine ⟨q, hget, hadd q (fun _ => ⟨h1, hq, hkey⟩) ⟨fun h0 => by omega, ?_⟩⟩
    intro hput
    obtain ⟨put, id, hmem, hdom⟩ := hiff.mp ⟨q, h1, hq, hkey⟩
    exact absurd hdom (hput put id hmem)
  · refine ⟨0, hget, hadd 0 (fun h => absurd rfl h) ⟨fun _ => ?_, fun _ => rfl⟩⟩
    intro put id hmem hdom
    obtain ⟨q, h1, hq, hkey⟩ := hiff.mpr ⟨put, id, hmem, hdom⟩
    exact hno q h1 hq hkey

theorem History.put (h : History s key log) {name : Text} (hv : Valid name) :
    ∃ s' key' id, DNS_putbyname name s = some (s', id) ∧
      History s' key' (log ++ [(.put name, id)]) := by
  obtain ⟨s', key', q, hput, hidx, hext, h1, hq, hkey, hnew⟩ := DNS_putbyname_spec h.index hv
  refine ⟨s', key', q, hput, hidx, ?_, ?_, ?_, ?_⟩
  · intro put id hmem
    rcases List.mem_append.mp hmem with hmem | hmem
    · exact h.puts put id hmem
    · cases List.mem_singleton.mp hmem
      omega
  · intro op id hmem hne
    rcases List.mem_append.mp hmem with hmem | hmem
    · obtain ⟨hid1, hid, hkid⟩ := h.ids op id hmem hne
      exact ⟨hid1, hid.trans hext.1, by rw [hext.2 id hid, hkid]⟩
    · cases List.mem_singleton.mp hmem
      exact ⟨h1, hq, hkey⟩
  · intro i hi1 hi
    by_cases hold : i ≤ s.NID
    · obtain ⟨hfits, put, id, hmem, hsuf⟩ := h.known i hi1 hold
      rw [hext.2 i hold]
      exact ⟨hfits, put, id, List.mem_append_left _ hmem, hsuf⟩
    · have hsuf := hnew i (by omega) hi
      have hfits : Fits (keyOf name) := fits_fold.mpr (fits_labelsOf hv)
      exact ⟨hfits.suffix hsuf, name, q, by simp, hsuf⟩
  · intro before name' id after hlog
    rcases append_entry hlog with ⟨-, he⟩ | ⟨after', hlog⟩
    · cases he
    · exact h.gets before name' id after' hlog

theorem History.run (h : History s key log) {ops : List Op} (hv : ∀ op ∈ ops, Valid op.name) :
    ∃ s' key' new, run s ops = some (s', new) ∧ History s' key' (log ++ new) := by
  induction ops generalizing s key log with
  | nil => exact ⟨s, key, [], rfl, by rwa [List.append_nil]⟩
  | cons op ops ih =>
    have hstep : ∃ s' key' id, step s op = some (s', id) ∧ History s' key' (log ++ [(op, id)]) := by
      have hop := hv op List.mem_cons_self
      cases op with
      | put name => exact h.put hop
      | get name =>
        obtain ⟨id, hget, hhist⟩ := h.get hop
        exact ⟨s, key, id, hget, hhist⟩
    obtain ⟨s', key', id, hs, hhist⟩ := hstep
    obtain ⟨s'', key'', new, hrun, hhist'⟩ := ih hhist fun o ho => hv o (List.mem_cons_of_mem _ ho)
    refine ⟨s'', key'', (op, id) :: new, ?_, ?_⟩
    · unfold dnsnode.run
      rw [hs]
      simp only [hrun, Option.map_some]
    · rwa [List.append_assoc, List.singleton_append] at hhist'

theorem History.faithful (h : History s key log) : Faithful s log where
  table id hid := by
    rw [h.index.getnode hid]
    exact h.index.nid id hid
  given := h.puts
  same op id op' id' hmem hmem' hne hne' := by
    obtain ⟨h1, hid, hkey⟩ := h.ids op id hmem hne
    obtain ⟨h1', hid', hkey'⟩ := h.ids op' id' hmem' hne'
    unfold SameName
    rw [← hkey, ← hkey']
    exact ⟨congrArg key, h.index.inj id id' h1 hid h1' hid'⟩
  found := h.gets
  still name hv := by
    rcases DNS_getbyname_spec h.index hv with ⟨q, -, -, -, hget⟩ | ⟨-, hget⟩
    · exact ⟨q, hget⟩
    · exact ⟨0, hget⟩
  name id h1 hid := DNS_nodename_spec h.index h1 hid (h.known id h1 hid).1

end History

theorem run_ops {s s' : Store} {ops : List Op} {log : List (Op × Nat)}
    (h : run s ops = some (s', log)) : log.map Prod.fst = ops := by
  induction ops generalizing s log with
  | nil =>
    cases h
    rfl
  | cons op ops ih =>
    unfold run at h
    cases hs : step s op with
    | none =>
      rw [hs] at h
      cases h
    | some r =>
      rw [hs] at h
      obtain ⟨r', hr', heq⟩ := Option.map_eq_some_iff.mp h
      cases heq
      rw [List.map_cons, ih hr']

/-- Every run of calls with valid names ends, and leaves a faithful index of the names. -/
theorem names_indexed (ops : List Op) (hv : ∀ op ∈ ops, Valid op.name) :
    ∃ s log, run Store.init ops = some (s, log) ∧ log.map Prod.fst = ops ∧ Faithful s log := by
  obtain ⟨s, key, log, hrun, hhist⟩ := history_init.run hv
  exact ⟨s, log, hrun, run_ops hrun, hhist.faithful⟩

theorem names_indexed_three :
    ∃ s log, run Store.init [.put "a.b".toList, .get "B".toList, .get "c.".toList] = some (s, log) ∧
      log.map Prod.fst = [.put "a.b".toList, .get "B".toList, .get "c.".toList] ∧
      Faithful s log := by
  apply names_indexed
  decide

end delegate.dnsnode
