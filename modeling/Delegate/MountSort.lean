-- The table of the MOUNT rules. A new rule is added at the end, and the table
-- is sorted again when it has grown. The comparison looks at the priority, at
-- texts that contain each other, and at the order of entry.
import Delegate.Bsort
import Delegate.CText

open ctext

namespace delegate.mount

/-! ## Rules -/

def C_DEFAULT : BitVec 32 := 0x1000

/-- The part of a rule that `set_MOUNT` reads from its left hand. -/
structure SrcParts where
  u_src : Text
  u_remain : Bool
  u_format : Option Text
deriving DecidableEq, Repr

/-- The format without the `$` at its end. -/
def formatText (s : Text) : Text := if s.getLast? = some '$' then s.dropLast else s

def scanSrc (src : Text) : SrcParts :=
  match strstr ['*', '%'] src with
  | some (path, rest) => ⟨path, true, some (formatText rest.tail)⟩
  | none =>
    if src.getLast? = some '*' then
      let path := src.dropLast
      if path.getLast? = some ']' then
        match strrchr '[' path with
        | some (a, b) => ⟨a, true, some ('[' :: b)⟩
        | none => ⟨path, true, none⟩
      else ⟨path, true, none⟩
    else ⟨src, false, none⟩

/-- A rule as the sort reads it. `lhs` is its left hand as it was given. -/
structure Mtab (π : Type) where
  lhs : Text
  u_whole : Text
  u_serno : Nat
  u_priority : π
  u_conds : BitVec 32
  u_src : Text
  u_remain : Bool
  u_format : Option Text
  made : u_src = (scanSrc lhs).u_src ∧ u_remain = (scanSrc lhs).u_remain
deriving DecidableEq

def S2_S1 : Int := 1
def S1_S2 : Int := -1

section Compare
variable {π : Type} [LinearOrder π]

/-- The end of `mtabcomp` for two rules with the same path. -/
def samePathComp (mt1 mt2 : Mtab π) : Int :=
  if mt1.u_remain && !mt2.u_remain then S2_S1
  else if mt2.u_remain && !mt1.u_remain then S1_S2
  else if mt1.u_format.isSome && mt2.u_format.isNone then S1_S2
  else if mt1.u_format.isNone && mt2.u_format.isSome then S2_S1
  else
    let fs1 := mt1.u_format.getD []
    let fs2 := mt2.u_format.getD []
    if mt1.u_format.isSome && (strstr fs2 fs1).isSome then S1_S2
    else if mt1.u_format.isSome && (strstr fs1 fs2).isSome then S2_S1
    else if mt1.u_conds &&& C_DEFAULT ≠ 0 then S2_S1
    else if mt2.u_conds &&& C_DEFAULT ≠ 0 then S1_S2
    else if mt2.u_conds < mt1.u_conds then S1_S2
    else if mt1.u_conds < mt2.u_conds then S2_S1
    -- reverse entry order for overwriting
    else if mt1.u_serno < mt2.u_serno then S2_S1
    else S1_S2

def mtabcomp (mt1 mt2 : Mtab π) : Int :=
  if mt1.u_priority < mt2.u_priority then S2_S1
  else if mt2.u_priority < mt1.u_priority then S1_S2
  else if mt1.u_src = mt2.u_src then samePathComp mt1 mt2
  else if (strstr mt2.u_src mt1.u_src).isSome && mt2.u_remain then S1_S2
  else if (strstr mt1.u_src mt2.u_src).isSome && mt1.u_remain then S2_S1
  -- entry order
  else if mt1.u_serno < mt2.u_serno then S1_S2
  else S2_S1

end Compare

/-! ## The table -/

def MTAB_SIZE : Nat := 256

def ASIS : Text := ['=']

/-- The table, and its length at the last sort. -/
structure Mounts (π : Type) where
  mtab : List (Mtab π) := []
  init_from : Nat := 0

/-- What `scanopt` reads from the options of a rule: its priority and its conditions. -/
structure Options (π : Type) where
  u_priority : π
  u_conds : BitVec 32
deriving DecidableEq, Repr

/-- The text of the destination after the short forms of `set_MOUNT` are replaced. -/
def dstText (dst : Text) : Text :=
  match dst with
  | '/' :: '/' :: '/' :: r =>
    (ASIS ++ "://".toList ++ ASIS ++ ":".toList ++ ASIS ++ "/".toList ++ r).take 1023
  | '/' :: '/' :: r => (ASIS ++ "://".toList ++ r).take 1023
  | '/' :: _ => ("file://".toList ++ dst).take 1023
  | _ => dst

/-- The format of the left hand. One in the destination gives one to a left hand without. -/
def srcFormat (s : SrcParts) (dst : Text) : Option Text :=
  match strstr ['*', '%'] (dstText dst) with
  | some (_, rest) =>
    some (s.u_format.getD (if s.u_src = ASIS then formatText rest.tail else s.u_src))
  | none => s.u_format

/-- The text in `whole`, a buffer of 1024 bytes. -/
def wholeText (src dst opts : Text) : Text := (src ++ ' ' :: (dst ++ ' ' :: opts)).take 1023

section Table
variable {π : Type} (scanopts : Text → Text → Options π)

/-- The rule that `set_MOUNT` makes. -/
def newMtab (serno : Nat) (src dst opts : Text) : Mtab π where
  lhs := src
  u_whole := wholeText src dst opts
  u_serno := serno
  u_priority := (scanopts dst opts).u_priority
  u_conds := (scanopts dst opts).u_conds
  u_src := (scanSrc src).u_src
  u_remain := (scanSrc src).u_remain
  u_format := srcFormat (scanSrc src) dst
  made := ⟨rfl, rfl⟩

/-- `set_MOUNT` after its first call. -/
def enter (m : Mounts π) (src dst opts : Text) : Mounts π :=
  if m.mtab.any (fun mt => mt.u_whole == wholeText src dst opts) then m
  else if MTAB_SIZE ≤ m.mtab.length then m
  else { m with mtab := m.mtab ++ [newMtab scanopts (m.mtab.length + 1) src dst opts] }

def set_MOUNT (m : Mounts π) (src dst opts : Text) : Mounts π :=
  let m := if m.mtab = [] then
      enter scanopts (enter scanopts m ['/', '-', '*'] ASIS "default".toList)
        ['/', '=', '*'] ASIS "default".toList
    else m
  enter scanopts m src dst opts

variable [LinearOrder π]

/-- `init_mtab` with sorting enabled. -/
def init_mtab (m : Mounts π) : Mounts π :=
  if m.mtab.length ≤ m.init_from then m
  else { mtab := bsort.Bsort mtabcomp m.mtab, init_from := m.mtab.length }

/-- One step of a configuration. -/
inductive Op
  | set_MOUNT (src dst opts : Text)
  | init_mtab
deriving DecidableEq, Repr

def step (m : Mounts π) : Op → Mounts π
  | .set_MOUNT src dst opts => set_MOUNT scanopts m src dst opts
  | .init_mtab => init_mtab m

def run (ops : List Op) : Mounts π := ops.foldl (step scanopts) {}

end Table

/-! ## The comparison -/

section Order
variable {π : Type} [LinearOrder π]

/-- The rule `a` belongs after the rule `y`: its priority is lower, or it is for all paths that
begin with a part of the path of `y`. -/
def Behind (y a : Mtab π) : Prop :=
  a.u_priority < y.u_priority ∨
    (a.u_priority = y.u_priority ∧ a.u_remain = true ∧ a.u_src <:+: y.u_src ∧ a.u_src ≠ y.u_src)

theorem behind_irrefl (y : Mtab π) : ¬Behind y y := by
  rintro (h | ⟨-, -, -, h⟩)
  · exact lt_irrefl _ h
  · exact h rfl

theorem not_infix_back {a b : Text} (h : a <:+: b) (hne : a ≠ b) : ¬b <:+: a := fun h' =>
  hne (h.eq_of_length (le_antisymm h.length_le h'.length_le))

/-- A rule is put before one that belongs after it, in either order of the arguments. -/
theorem mtabcomp_of_behind {y a : Mtab π} (h : Behind y a) :
    mtabcomp a y = S2_S1 ∧ mtabcomp y a = S1_S2 := by
  unfold mtabcomp
  rcases h with h | ⟨hp, hr, hin, hne⟩
  · rw [if_pos h, if_neg h.asymm, if_pos h]
    exact ⟨rfl, rfl⟩
  · have hnot : (strstr y.u_src a.u_src).isSome = false := by
      rw [strstr_eq_none (not_infix_back hin hne)]
      rfl
    have hsome : (strstr a.u_src y.u_src).isSome = true := strstr_isSome_iff.mpr hin
    constructor
    · rw [if_neg hp.not_lt, if_neg hp.not_gt, if_neg hne, hnot, hsome, hr]
      rfl
    · rw [if_neg hp.not_gt, if_neg hp.not_lt, if_neg (Ne.symm hne), hsome, hr]
      rfl

/-- What it takes for `b` to be put before `a`. -/
theorem beats_cases {a b : Mtab π} (h : 0 < mtabcomp a b) :
    a.u_priority < b.u_priority ∨ (a.u_priority = b.u_priority ∧
      ((a.u_src = b.u_src ∧ (b.u_remain = true → a.u_remain = true)) ∨
        (a.u_src <:+: b.u_src ∧ a.u_remain = true) ∨ b.u_serno ≤ a.u_serno)) := by
  unfold mtabcomp at h
  split at h
  · rename_i hlt
    exact .inl hlt
  rename_i hlt
  split at h
  · cases h
  rename_i hgt
  refine .inr ⟨le_antisymm (not_lt.mp hgt) (not_lt.mp hlt), ?_⟩
  split at h
  · rename_i heq
    refine .inl ⟨heq, ?_⟩
    intro hb
    by_contra ha
    unfold samePathComp at h
    rw [if_neg (by simp [hb]), if_pos (by simp [hb, ha])] at h
    cases h
  split at h
  · cases h
  split at h
  · rename_i hin
    rw [Bool.and_eq_true, strstr_isSome_iff] at hin
    exact .inr (.inl hin)
  split at h
  · cases h
  · rename_i hser
    exact .inr (.inr (not_lt.mp hser))

/-- A rule that is put before an earlier one belongs after `y` only if the earlier one does. -/
theorem behind_of_beats {y a b : Mtab π} (hser : a.u_serno < b.u_serno) (h : 0 < mtabcomp a b)
    (hb : Behind y b) : Behind y a := by
  rcases beats_cases h with hlt | ⟨heq, hpath⟩
  · rcases hb with hb | ⟨hb, -⟩
    · exact .inl (hlt.trans hb)
    · exact .inl (hb ▸ hlt)
  rcases hb with hb | ⟨hb, hr, hin, hne⟩
  · exact .inl (heq ▸ hb)
  refine .inr ⟨heq.trans hb, ?_⟩
  rcases hpath with ⟨hsrc, hremain⟩ | ⟨hsub, ha⟩ | hle
  · rw [hsrc]
    exact ⟨hremain hr, hin, hne⟩
  · refine ⟨ha, hsub.trans hin, ?_⟩
    intro hall
    exact hne (hin.eq_of_length (le_antisymm hin.length_le (hall ▸ hsub.length_le)))
  · exact absurd hser (not_lt.mpr hle)

/-- No rule stands before one that it belongs after. -/
def Ordered (t : List (Mtab π)) : Prop := t.Pairwise fun a y => ¬Behind y a

/-- The rules stand in the order of their entry. -/
def EntryOrder (t : List (Mtab π)) : Prop := t.Pairwise fun a b => a.u_serno < b.u_serno

/-- The comparison is transitive on the rules of the table. -/
def Transitive (t : List (Mtab π)) : Prop :=
  ∀ a ∈ t, ∀ b ∈ t, ∀ c ∈ t, 0 < mtabcomp a b → 0 < mtabcomp b c → 0 < mtabcomp a c

theorem ordered_of_entryOrder {t : List (Mtab π)} (h : EntryOrder t) :
    Ordered (bsort.Bsort mtabcomp t) := by
  apply bsort.Bsort_pairwise behind_irrefl
  · intro y a hb
    rw [(mtabcomp_of_behind hb).1]
    decide
  · intro y _
    exact h.imp fun hser hlt hb => behind_of_beats hser hlt hb

/-- One rule beats the other, and not the other way. -/
def Beaten (y a : Mtab π) : Prop := a ≠ y ∧ 0 < mtabcomp a y ∧ ¬0 < mtabcomp y a

theorem beaten_of_behind {y a : Mtab π} (h : Behind y a) : Beaten y a := by
  refine ⟨?_, ?_, ?_⟩
  · rintro rfl
    exact behind_irrefl _ h
  · rw [(mtabcomp_of_behind h).1]
    decide
  · rw [(mtabcomp_of_behind h).2]
    decide

theorem ordered_of_transitive {t : List (Mtab π)} (h : Transitive t) :
    Ordered (bsort.Bsort mtabcomp t) := by
  have hpair : (bsort.Bsort mtabcomp t).Pairwise fun a y => ¬Beaten y a := by
    apply bsort.Bsort_pairwise
    · intro y hy
      exact hy.1 rfl
    · intro y a hb
      exact hb.2.1
    · intro y hy
      apply List.pairwise_of_forall_mem_list
      intro a ha b hb hab hbad
      refine ⟨?_, h a ha b hb y hy hab hbad.2.1, ?_⟩
      · rintro rfl
        exact hbad.2.2 hab
      · intro hya
        exact hbad.2.2 (h y hy a ha b hb hya hab)
  exact hpair.imp fun hnot hb => hnot (beaten_of_behind hb)

/-! ## Left hands -/

/-- A left hand without a format part. -/
def PlainSrc (src : Text) : Prop := (scanSrc src).u_format = none

theorem scanSrc_of_plain {src : Text} (h : PlainSrc src) :
    scanSrc src = if src.getLast? = some '*' then ⟨src.dropLast, true, none⟩
      else ⟨src, false, none⟩ := by
  unfold PlainSrc scanSrc at h
  unfold scanSrc
  cases hs : strstr ['*', '%'] src with
  | some p =>
    rw [hs] at h
    cases h
  | none =>
    rw [hs] at h
    by_cases hstar : src.getLast? = some '*'
    · simp only [hstar, if_true] at h ⊢
      by_cases hbr : src.dropLast.getLast? = some ']'
      · simp only [hbr, if_true] at h ⊢
        cases hopen : strrchr '[' src.dropLast with
        | none => rfl
        | some p =>
          rw [hopen] at h
          cases h
      · simp only [hbr, if_false]
    · simp only [hstar, if_false]

/-- A rule for `P*` belongs after a rule for `PQ` of the same priority. -/
theorem behind_of_path {y a : Mtab π} {P Q : Text} (ha : PlainSrc a.lhs) (hy : PlainSrc y.lhs)
    (hp : a.u_priority = y.u_priority) (hP : a.lhs = P ++ ['*']) (hQ : y.lhs = P ++ Q)
    (hne : Q ≠ []) (hstar : Q ≠ ['*']) : Behind y a := by
  have ha' := scanSrc_of_plain ha
  have hy' := scanSrc_of_plain hy
  rw [hP, if_pos List.getLast?_concat, List.dropLast_concat] at ha'
  have hsrc : a.u_src = P := by rw [a.made.1, hP, ha']
  have hremain : a.u_remain = true := by rw [a.made.2, hP, ha']
  obtain ⟨R, hR, hyR⟩ : ∃ R, R ≠ [] ∧ y.u_src = P ++ R := by
    rw [y.made.1, hy', hQ]
    split
    · rename_i hlast
      refine ⟨Q.dropLast, ?_, List.dropLast_append_of_ne_nil hne⟩
      intro hnil
      have hone := List.dropLast_append_getLast hne
      rw [hnil, List.nil_append] at hone
      rw [← hone, List.getLast?_concat, Option.some.injEq] at hlast
      exact hstar (by rw [← hone, hlast])
    · exact ⟨Q, hne, rfl⟩
  refine .inr ⟨hp, hremain, ?_, ?_⟩
  · rw [hsrc, hyR]
    exact (List.prefix_append _ _).isInfix
  · rw [hsrc, hyR]
    intro h
    exact hR (List.self_eq_append_right.mp h)

/-- Rules for more of a path stand first, and so do rules of a higher priority. A rule for the
same left hand is not one for more of the path. -/
structure MoreSpecificFirst (t : List (Mtab π)) : Prop where
  path : ∀ (i j : Nat) (hi : i < t.length) (hj : j < t.length) (P Q : Text),
    t[i].u_priority = t[j].u_priority → t[i].lhs = P ++ ['*'] → t[j].lhs = P ++ Q →
      Q ≠ [] → Q ≠ ['*'] → j < i
  priority : ∀ (i j : Nat) (hi : i < t.length) (hj : j < t.length),
    t[j].u_priority < t[i].u_priority → i < j

/-- In a table in order, a rule stands before those that belong after it. -/
theorem Ordered.lt_of_behind {t : List (Mtab π)} (h : Ordered t) {i j : Nat} (hi : i < t.length)
    (hj : j < t.length) (hb : Behind t[j] t[i]) : j < i := by
  by_contra hle
  rcases Nat.lt_or_eq_of_le (not_lt.mp hle) with hlt | heq
  · exact List.pairwise_iff_getElem.mp h i j hi hj hlt hb
  · subst heq
    exact behind_irrefl _ hb

theorem Ordered.moreSpecificFirst {t : List (Mtab π)} (h : Ordered t)
    (hplain : ∀ mt ∈ t, PlainSrc mt.lhs) : MoreSpecificFirst t where
  path i j hi hj P Q hp hP hQ hne hstar := by
    apply h.lt_of_behind hi hj
    exact behind_of_path (hplain _ (List.getElem_mem hi)) (hplain _ (List.getElem_mem hj)) hp hP hQ
      hne hstar
  priority i j hi hj hlt := h.lt_of_behind hj hi (.inl hlt)

end Order

/-! ## Runs -/

section Run
variable {π : Type} [LinearOrder π] (scanopts : Text → Text → Options π)

/-- What a step must meet: a new left hand has no format part, and a sort finds the rules in the
order of their entry, or finds the comparison transitive on them. -/
def StepOk (m : Mounts π) : Op → Prop
  | .set_MOUNT src _ _ => PlainSrc src
  | .init_mtab => m.mtab.length ≤ m.init_from ∨ EntryOrder m.mtab ∨ Transitive m.mtab

def RunOk : Mounts π → List Op → Prop
  | _, [] => True
  | m, op :: ops => StepOk m op ∧ RunOk (step scanopts m op) ops

/-- The invariant: no left hand has a format part, and a table that has not grown since the last
sort is in order. -/
structure Inv (m : Mounts π) : Prop where
  plain : ∀ mt ∈ m.mtab, PlainSrc mt.lhs
  sorted : m.mtab.length ≤ m.init_from → Ordered m.mtab
  from_le : m.init_from ≤ m.mtab.length

theorem inv_empty : Inv ({} : Mounts π) :=
  ⟨fun _ h => absurd h List.not_mem_nil, fun _ => List.Pairwise.nil, le_rfl⟩

theorem inv_enter {m : Mounts π} (h : Inv m) {src : Text} (hsrc : PlainSrc src) (dst opts : Text) :
    Inv (enter scanopts m src dst opts) := by
  unfold enter
  split
  · exact h
  split
  · exact h
  refine ⟨?_, ?_, ?_⟩
  · intro mt hmt
    rcases List.mem_append.mp hmt with hmt | hmt
    · exact h.plain mt hmt
    · rw [List.mem_singleton.mp hmt]
      exact hsrc
  · intro hlen
    have := h.from_le
    simp only [List.length_append, List.length_singleton] at hlen
    omega
  · have := h.from_le
    simp only [List.length_append, List.length_singleton]
    omega

theorem inv_set_MOUNT {m : Mounts π} (h : Inv m) {src : Text} (hsrc : PlainSrc src)
    (dst opts : Text) : Inv (set_MOUNT scanopts m src dst opts) := by
  unfold set_MOUNT
  apply inv_enter scanopts _ hsrc
  have hdash : PlainSrc ['/', '-', '*'] := rfl
  have hequal : PlainSrc ['/', '=', '*'] := rfl
  split
  · exact inv_enter scanopts (inv_enter scanopts h hdash _ _) hequal _ _
  · exact h

/-- After `init_mtab` the table is in order. -/
theorem ordered_init_mtab {m : Mounts π} (h : Inv m) (hok : StepOk m .init_mtab) :
    Ordered (init_mtab m).mtab := by
  unfold init_mtab
  split
  · rename_i hlen
    exact h.sorted hlen
  · rename_i hlen
    rcases hok.resolve_left hlen with hent | htrans
    · exact ordered_of_entryOrder hent
    · exact ordered_of_transitive htrans

theorem inv_step {m : Mounts π} (h : Inv m) {op : Op} (hok : StepOk m op) :
    Inv (step scanopts m op) := by
  cases op with
  | set_MOUNT src dst opts => exact inv_set_MOUNT scanopts h hok dst opts
  | init_mtab =>
    refine ⟨?_, fun _ => ordered_init_mtab h hok, ?_⟩
    · intro mt hmt
      apply h.plain
      change mt ∈ (init_mtab m).mtab at hmt
      unfold init_mtab at hmt
      split at hmt
      · exact hmt
      · exact (bsort.Bsort_perm _).subset hmt
    · change (init_mtab m).init_from ≤ (init_mtab m).mtab.length
      unfold init_mtab
      split
      · exact h.from_le
      · exact (bsort.Bsort_perm _).length_eq.ge

theorem inv_run {m : Mounts π} (h : Inv m) {ops : List Op} (hok : RunOk scanopts m ops) :
    Inv (ops.foldl (step scanopts) m) := by
  induction ops generalizing m with
  | nil => exact h
  | cons op ops ih => exact ih (inv_step scanopts h hok.1) hok.2

theorem runOk_append {m : Mounts π} {ops ops' : List Op} (h : RunOk scanopts m (ops ++ ops')) :
    RunOk scanopts m ops ∧ RunOk scanopts (ops.foldl (step scanopts) m) ops' := by
  induction ops generalizing m with
  | nil => exact ⟨trivial, h⟩
  | cons op ops ih =>
    obtain ⟨hop, hrest⟩ := h
    exact ⟨⟨hop, (ih hrest).1⟩, (ih hrest).2⟩

/-! ## The rules of a table -/

omit [LinearOrder π] in
theorem enter_perm {m m' : Mounts π} (h : m.mtab.Perm m'.mtab) (src dst opts : Text) :
    (enter scanopts m src dst opts).mtab.Perm (enter scanopts m' src dst opts).mtab := by
  unfold enter
  rw [h.any_eq, h.length_eq]
  split
  · exact h
  split
  · exact h
  · exact h.append_right _

omit [LinearOrder π] in
theorem set_MOUNT_perm {m m' : Mounts π} (h : m.mtab.Perm m'.mtab) (src dst opts : Text) :
    (set_MOUNT scanopts m src dst opts).mtab.Perm (set_MOUNT scanopts m' src dst opts).mtab := by
  unfold set_MOUNT
  apply enter_perm
  by_cases hnil : m.mtab = []
  · have hnil' : m'.mtab = [] := by
      rw [hnil] at h
      exact h.nil_eq.symm
    rw [if_pos hnil, if_pos hnil']
    exact enter_perm scanopts (enter_perm scanopts h _ _ _) _ _ _
  · have hnil' : m'.mtab ≠ [] := by
      intro h'
      rw [h'] at h
      exact hnil h.eq_nil
    rw [if_neg hnil, if_neg hnil']
    exact h

/-- The rules that a run enters: its table without the sorts. -/
def entered (ops : List Op) : List (Mtab π) :=
  (run scanopts (ops.filter fun op => op ≠ .init_mtab)).mtab

theorem foldl_perm {m m' : Mounts π} (h : m.mtab.Perm m'.mtab) (ops : List Op) :
    (ops.foldl (step scanopts) m).mtab.Perm
      ((ops.filter fun op => op ≠ .init_mtab).foldl (step scanopts) m').mtab := by
  induction ops generalizing m m' with
  | nil => exact h
  | cons op ops ih =>
    cases op with
    | set_MOUNT src dst opts =>
      rw [List.filter_cons_of_pos (by simp), List.foldl_cons, List.foldl_cons]
      exact ih (set_MOUNT_perm scanopts h src dst opts)
    | init_mtab =>
      rw [List.filter_cons_of_neg (by simp), List.foldl_cons]
      apply ih
      refine List.Perm.trans ?_ h
      change (init_mtab m).mtab.Perm m.mtab
      unfold init_mtab
      split
      · exact List.Perm.refl _
      · exact bsort.Bsort_perm _

/-- After each `init_mtab` of a run whose steps meet the condition, the table holds the rules of
the run, with the more specific ones first. -/
theorem mounts_in_order (ops : List Op) (hok : RunOk scanopts {} (ops ++ [.init_mtab])) :
    (run scanopts (ops ++ [.init_mtab])).mtab.Perm (entered scanopts (ops ++ [.init_mtab])) ∧
      MoreSpecificFirst (run scanopts (ops ++ [.init_mtab])).mtab := by
  refine ⟨foldl_perm scanopts (List.Perm.refl _) _, ?_⟩
  obtain ⟨hops, hinit, -⟩ := runOk_append scanopts hok
  have hbefore := inv_run scanopts inv_empty hops
  have hafter := inv_step scanopts hbefore hinit
  unfold run
  rw [List.foldl_append]
  exact (ordered_init_mtab hbefore hinit).moreSpecificFirst hafter.plain

end Run

/-- Options of rules without conditions. -/
def noOptions (_ opts : Text) : Options Int := ⟨0, if opts = "default".toList then C_DEFAULT else 0⟩

/-- A rule that is relayed as it is. -/
def asis (src : Text) : Op := .set_MOUNT src ASIS []

theorem mounts_in_order_once :
    MoreSpecificFirst
      (run noOptions ([asis ['/', 'a', '*'], asis ['/', 'a', 'x']] ++ [.init_mtab])).mtab := by
  refine (mounts_in_order noOptions [asis ['/', 'a', '*'], asis ['/', 'a', 'x']]
    ⟨rfl, rfl, .inr (.inl ?_), trivial⟩).2
  unfold EntryOrder
  decide +kernel

/-- Two more sorts of a table that is no longer in the order of entry: the rule for `/a*` comes
to stand before the rule for `/ax`. -/
theorem mounts_out_of_order :
    ¬MoreSpecificFirst
      (run noOptions ([asis ['/', 'a', '*'], asis ['/', 'b'], asis ['/', 'a', 'x'], .init_mtab,
        asis ['/', 'c'], .init_mtab, asis ['/', 'd']] ++ [.init_mtab])).mtab := by
  intro h
  have hlt := h.path 2 4 (by decide +kernel) (by decide +kernel) ['/', 'a'] ['x']
    (by decide +kernel) (by decide +kernel) (by decide +kernel) (by decide) (by decide)
  omega

end delegate.mount
