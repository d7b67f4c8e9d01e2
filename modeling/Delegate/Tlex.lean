-- The finite automaton of rary/TLEX.cpp: how `frex_append` builds one from an
-- expression, and how `fa_scanX` runs it. A state has one other state to go on
-- from where it has no next one.
import Delegate.CText

open ctext

namespace delegate.tlex

/-! ## States -/

def FA_SMALL : Nat := 4

/-- `FaStat`, where a pointer to a state is its index and `xclass` and `eclass` say that a class is
set. `small` has what is in `in_ch` and `nstat`, `vec` what is in `Nstat`, the last one first. -/
structure FaStat where
  xclass : Bool := false
  eclass : Bool := false
  nnexts : Nat := 0
  small : List (Char × Nat) := []
  vec : Option (List (Char × Nat)) := none
  other : Option Nat := none
deriving DecidableEq, Repr

/-- The states, with the root first. -/
abbrev FA := List FaStat

def FA.stat (fa : FA) (fsp : Nat) : FaStat := fa[fsp]?.getD {}

def next1 (fa : FA) (fsp : Nat) (ch : Char) : Option Nat :=
  (((fa.stat fsp).vec.getD (fa.stat fsp).small).find? (·.1 == ch)).map Prod.snd

/-- `next`: the state, and `fa_backed`. -/
def next (fa : FA) (fsp : Nat) (ch : Char) : Option Nat × Bool :=
  match next1 fa fsp ch with
  | some nfsp => (some nfsp, false)
  | none =>
    match (fa.stat fsp).other with
    | none => (none, false)
    | some nfsp =>
      match next1 fa nfsp ch with
      | some xfsp => (some xfsp, true)
      | none => (some nfsp, nfsp != fsp)

/-- `NEXT`, which goes on from no other state where `Nstat` is set. -/
def NEXT (fa : FA) (fsp : Nat) (ch : Char) : Option Nat :=
  if (fa.stat fsp).vec.isSome then next1 fa fsp ch
  else if (fa.stat fsp).nnexts ≠ 0 then (next fa fsp ch).1
  else none

def FaStat.setNext (st : FaStat) (ch : Char) (nfsp : Nat) : FaStat :=
  if st.nnexts < FA_SMALL then
    { st with small := st.small ++ [(ch, nfsp)], nnexts := st.nnexts + 1 }
  else
    match st.vec with
    | some nvec => { st with vec := some ((ch, nfsp) :: nvec), nnexts := st.nnexts + 1 }
    | none =>
      { st with vec := some ((ch, nfsp) :: st.small.reverse), nnexts := st.nnexts + FA_SMALL + 1 }

def SETNEXT (fa : FA) (fsp : Nat) (ch : Char) (nfsp : Nat) : FA :=
  fa.modify fsp fun st => st.setNext ch nfsp

/-- `fa_stins`: the states, and the one that is next afterwards. -/
def fa_stins (fa : FA) (fsp : Nat) (nfsp : Option Nat) (ch : Char) : FA × Option Nat :=
  let fa' :=
    match NEXT fa fsp ch, nfsp with
    | some _, some _ => fa
    | some n, none =>
      if n = fsp then
        -- The new state has a copy of `Nstat`, which is empty where there is none.
        let fa := SETNEXT fa fsp ch fa.length
        fa ++ [{ vec := some ((fa.stat fsp).vec.getD []) }]
      else fa
    | none, none => SETNEXT fa fsp ch fa.length ++ [{}]
    | none, some n => SETNEXT fa fsp ch n
  (fa', NEXT fa' fsp ch)

/-! ## Expressions -/

/-- The members of a set in brackets, where `lrep` goes on behind the set, which has `n` characters
more. -/
def expset.members : Nat → Text → Char → Bool
  | 0, _, _ => false
  | n + 1, lrep, ch =>
    match lrep with
    | ch1 :: '-' :: ch2 :: lrep' =>
      (decide (ch1 ≤ ch ∧ ch ≤ ch2)) || expset.members (n - 2) lrep' ch
    | ch1 :: lrep' => ch == ch1 || expset.members n lrep' ch
    | [] => false

/-- `expset`: the members below 0x80, in their order. -/
def expset (n : Nat) (lrep : Text) : Text :=
  let negate := 0 < n ∧ lrep.head? = some '^'
  let bset : Char → Bool := fun ch =>
    if negate then !expset.members (n - 1) lrep.tail ch else expset.members n lrep ch
  ((List.range 0x80).map Char.ofNat).filter bset

/-- A set in brackets is put in. `starred` says that a `*` follows and is for the set. -/
def insertSet (fa : FA) (fsp : Nat) (set : Text) (starred : Bool) : FA × Option Nat :=
  -- The number of members is a `char`, and 128 members make it negative.
  let more := if set.length < 0x80 then set.tail else []
  more.foldl (fun r ch => fa_stins r.1 fsp r.2 ch)
    (fa_stins fa fsp (if starred then some fsp else none) (set.headD '\x00'))

/-- The loop of `fa_rexp`. It is `none` where the code reads behind the end of the expression, or
goes on from a state that is NULL. -/
def fa_rexp.loop (nosetrep : Bool) (rep : Text) (fa : FA) (fsp : Nat) (lastany : Option Nat)
    (metachar_on : Bool) : Option FA :=
  match rep with
  | [] => some (fa.modify fsp fun st => { st with xclass := true })
  | ch :: rep =>
    if ch = '$' then
      if rep = [] then some (fa.modify fsp fun st => { st with eclass := true })
      else if rep.head? = some '$' then
        match fa_stins fa fsp none ch with
        | (fa, some fsp) => fa_rexp.loop nosetrep rep fa fsp lastany metachar_on
        | (_, none) => none
      else fa_rexp.loop nosetrep rep fa fsp lastany (!metachar_on)
    else if metachar_on = false then
      match fa_stins fa fsp none ch with
      | (fa, some fsp) => fa_rexp.loop nosetrep rep fa fsp lastany metachar_on
      | (_, none) => none
    else if ch = '*' then
      if rep.head? = some '*' then
        fa_rexp.loop nosetrep rep.tail (fa.modify fsp fun st => { st with other := some fsp }) fsp
          (some fsp) metachar_on
      else fa_rexp.loop nosetrep rep fa fsp lastany metachar_on
    else if ch = '[' then
      match rep with
      | [] => none
      | lrep :: rep =>
        match _h : rep.dropWhile (· ≠ ']') with
        | [] => none
        | _ :: after =>
          if lrep = ']' then
            fa_rexp.loop nosetrep after
              (fa.modify fsp (fun st => { st with other := some fa.length }) ++ [{}]) fa.length
              lastany metachar_on
          else
            let set := expset (rep.length - after.length) (lrep :: rep)
            match insertSet fa fsp set (!nosetrep && after.head? == some '*') with
            | (fa, some fsp) => fa_rexp.loop nosetrep after fa fsp lastany metachar_on
            | (_, none) => none
    else
      let self := if rep.head? = some '*' ∧ rep.tail.head? ≠ some '*' then some fsp else none
      match fa_stins fa fsp self ch with
      | (fa, some fsp) =>
        fa_rexp.loop nosetrep rep (fa.modify fsp fun st => { st with other := lastany }) fsp lastany
          metachar_on
      | (fa, none) => some fa
termination_by rep.length
decreasing_by
  all_goals simp only [List.length_cons, List.length_tail]
  all_goals first | omega | skip
  all_goals
    have hle := List.length_dropWhile_le (· ≠ ']') rep
    rw [_h, List.length_cons] at hle
    omega

/-- The expression that `frex_append` makes of a pattern. A pattern of a command fits its buffer. -/
def rexpb (rexp : Text) : Text :=
  rexp.flatMap fun ch => if ch = '*' then ['*', '*'] else if ch = '?' then ['[', ']'] else [ch]

def frex_create (rexp : Text) : Option FA := fa_rexp.loop true (rexpb rexp) [{}] 0 none true

/-! ## The scanner -/

/-- `Match`, with offsets for the pointers. -/
structure Match where
  m_fsp : Nat
  m_top : Option Nat
  m_next : Nat
deriving DecidableEq, Repr

/-- The variables of `fa_scanX`. -/
structure Scan where
  fsp : Nat
  lsp : Option Nat
  ss : Nat
  lastmatch : Option Match
deriving DecidableEq, Repr

/-- `lastmatch` after a state is tested for a class. -/
def Scan.keep (fa : FA) (sc : Scan) : Option Match :=
  if (fa.stat sc.fsp).xclass then some ⟨sc.fsp, sc.lsp, sc.ss⟩ else sc.lastmatch

/-- The start of the match after a state, where `asp` is the state before any match. -/
def startAfter (asp : Option Nat) (lsp : Option Nat) (fsp ss : Nat) : Option Nat :=
  if asp.isSome then
    if lsp = none then (if some fsp ≠ asp then some ss else none)
    else (if some fsp = asp then none else lsp)
  else lsp

/-- A turn of the loop of `fa_scanX`, with `cc` and the `rest` after it: whether it goes on, and the
variables. -/
def fa_scanX.turn (fa : FA) (asp : Option Nat) (cc : Char) (rest : Text) (sc : Scan) : Bool × Scan :=
  let lastmatch := sc.keep fa
  let n := next fa sc.fsp cc
  if (n.1 = none ∨ n.2 = true) ∧ lastmatch.isSome = true then (false, { sc with lastmatch })
  else
    let lsp := if n.2 then none else sc.lsp
    match n.1 with
    | none =>
      let toEnd := (fa.stat sc.fsp).nnexts = 0 ∧ (fa.stat sc.fsp).other.isSome
      (false, { sc with lsp, lastmatch, ss := if toEnd then sc.ss + (rest.length + 1) else sc.ss })
    | some fsp => (true, ⟨fsp, startAfter asp lsp fsp sc.ss, sc.ss + 1, lastmatch⟩)

/-- The loop of `fa_scanX`. -/
def fa_scanX.loop (fa : FA) (asp : Option Nat) : Text → Scan → Scan
  | [], sc => sc
  | cc :: rest, sc =>
    let t := fa_scanX.turn fa asp cc rest sc
    if t.1 then fa_scanX.loop fa asp rest t.2 else t.2

/-- The state before any match, where the automaton has a wildcard first. -/
def preamble (fa : FA) : Option Nat := if (fa.stat 0).other = some 0 then some 0 else none

/-- The variables before the loop of `fa_scanX`. -/
def Scan.begins (fa : FA) : Scan where
  fsp := 0
  lsp := if preamble fa = none ∨ (fa.stat 0).xclass ∨ (fa.stat 0).eclass then some 0 else none
  ss := 0
  lastmatch := none

/-- The state is for the end of a text, and the text is at its end. -/
def Scan.atEnd (fa : FA) (len : Nat) (sc : Scan) : Bool :=
  sc.ss == len && (fa.stat sc.fsp).eclass

/-- After the loop, the last match is taken where the state has no class. -/
def Scan.settle (fa : FA) (len : Nat) (sc : Scan) : Scan :=
  if (fa.stat sc.fsp).xclass || sc.atEnd fa len then sc
  else
    match sc.lastmatch with
    | some m => { sc with fsp := m.m_fsp, lsp := m.m_top, ss := m.m_next }
    | none => sc

/-- `fa_scanX` for the longest match: the class, the start and the tail. -/
def fa_scanX (fa : FA) (input : Text) : Bool × Option Nat × Nat :=
  let sc := (fa_scanX.loop fa (preamble fa) input (Scan.begins fa)).settle fa input.length
  let start := if sc.lsp = none ∧ sc.atEnd fa input.length = true then some sc.ss else sc.lsp
  (sc.atEnd fa input.length || (fa.stat sc.fsp).xclass, start, sc.ss)

/-- `frex_matchX`: the start, which may be NULL, and the tail of the match. -/
def frex_matchX (fa : FA) (str : Text) : Option (Option Nat × Nat) :=
  let r := fa_scanX fa str
  if r.1 then some r.2 else none

/-! ## Matches without characters -/

/-- The automaton accepts in its root: anywhere, or at the end of the text. -/
def accepts (fa : FA) (str : Text) : Prop :=
  (fa.stat 0).xclass = true ∨ str = [] ∧ (fa.stat 0).eclass = true

/-- Before the first character the state is the root, and a match that is kept is one. -/
structure Scan.Kept (fa : FA) (sc : Scan) : Prop where
  root : sc.ss = 0 → sc.fsp = 0
  kept : ∀ m, sc.lastmatch = some m → (fa.stat m.m_fsp).xclass = true ∧ (m.m_next = 0 → m.m_fsp = 0)

theorem Scan.Kept.keep {fa : FA} {sc : Scan} (h : sc.Kept fa) : ∀ m, sc.keep fa = some m →
    (fa.stat m.m_fsp).xclass = true ∧ (m.m_next = 0 → m.m_fsp = 0) := by
  intro m hm
  unfold Scan.keep at hm
  split at hm
  · rename_i hx
    rw [← Option.some.inj hm]
    exact ⟨hx, h.root⟩
  · exact h.kept m hm

theorem kept_turn {fa : FA} {asp : Option Nat} {cc : Char} {rest : Text} {sc : Scan}
    (h : sc.Kept fa) : (fa_scanX.turn fa asp cc rest sc).2.Kept fa := by
  unfold fa_scanX.turn
  dsimp only
  split
  · exact ⟨h.root, h.keep⟩
  · split
    · refine ⟨fun hss => h.root ?_, h.keep⟩
      dsimp only at hss
      split at hss
      · omega
      · exact hss
    · exact ⟨fun hss => absurd hss (Nat.succ_ne_zero _), h.keep⟩

theorem kept_loop {fa : FA} {asp : Option Nat} {input : Text} {sc : Scan} (h : sc.Kept fa) :
    (fa_scanX.loop fa asp input sc).Kept fa := by
  induction input generalizing sc with
  | nil => exact h
  | cons cc input ih =>
    unfold fa_scanX.loop
    dsimp only
    split
    · exact ih (kept_turn h)
    · exact kept_turn h

/-- Where the root has a class, there is a match to keep from the first turn on. -/
theorem kept_some {fa : FA} {asp : Option Nat} {input : Text} {sc : Scan}
    (hroot : (fa.stat 0).xclass = true) (h : sc.lastmatch.isSome = true ∨ sc.fsp = 0) :
    let sc' := fa_scanX.loop fa asp input sc
    sc'.lastmatch.isSome = true ∨ sc'.fsp = 0 := by
  induction input generalizing sc with
  | nil => exact h
  | cons cc input ih =>
    have hkeep : (sc.keep fa).isSome = true := by
      unfold Scan.keep
      split
      · rfl
      · rename_i hx
        refine h.resolve_right fun hfsp => hx ?_
        rw [hfsp, hroot]
    have hturn : (fa_scanX.turn fa asp cc input sc).2.lastmatch.isSome = true := by
      unfold fa_scanX.turn
      dsimp only
      split
      · exact hkeep
      · split <;> exact hkeep
    unfold fa_scanX.loop
    dsimp only
    split
    · exact ih (.inl hturn)
    · exact .inl hturn

theorem kept_settle {fa : FA} {len : Nat} {sc : Scan} (h : sc.Kept fa) : (sc.settle fa len).Kept fa := by
  unfold Scan.settle
  split
  · exact h
  · split
    · rename_i m hm
      exact ⟨(h.kept m hm).2, h.kept⟩
    · exact h

/-- The state and the place where the scanner ends. -/
def ended (fa : FA) (str : Text) : Scan :=
  (fa_scanX.loop fa (preamble fa) str (Scan.begins fa)).settle fa str.length

theorem frex_matchX_eq (fa : FA) (str : Text) :
    frex_matchX fa str =
      let sc := ended fa str
      if sc.atEnd fa str.length || (fa.stat sc.fsp).xclass then
        some (if sc.lsp = none ∧ sc.atEnd fa str.length = true then some sc.ss else sc.lsp, sc.ss)
      else none := rfl

theorem kept_ended (fa : FA) (str : Text) : (ended fa str).Kept fa :=
  kept_settle (kept_loop ⟨fun _ => rfl, fun m hm => by cases hm⟩)

theorem ended_nil (fa : FA) : (ended fa []).ss = 0 := by
  unfold ended fa_scanX.loop Scan.settle
  split
  · rfl
  · rfl

/-- A match ends where it begins only if the root accepts there. -/
theorem accepts_of_empty {fa : FA} {str : Text} {start : Option Nat}
    (h : frex_matchX fa str = some (start, 0)) : accepts fa str := by
  rw [frex_matchX_eq] at h
  dsimp only at h
  split at h
  · rename_i hclass
    rw [Option.some.injEq, Prod.mk.injEq] at h
    have hfsp := (kept_ended fa str).root h.2
    unfold Scan.atEnd at hclass
    rw [hfsp, h.2] at hclass
    rcases Bool.or_eq_true_iff.mp hclass with hend | hx
    · rw [Bool.and_eq_true, beq_iff_eq] at hend
      exact .inr ⟨List.length_eq_zero_iff.mp hend.1.symm, hend.2⟩
    · exact .inl hx
  · cases h

/-- Where the root accepts, the empty text is matched. -/
theorem frex_matchX_nil {fa : FA} (h : accepts fa []) : frex_matchX fa [] = some (some 0, 0) := by
  have hclass : (fa.stat 0).xclass = true ∨ (fa.stat 0).eclass = true := by
    rcases h with h | ⟨-, h⟩
    · exact .inl h
    · exact .inr h
  have hended : ended fa [] = ⟨0, some 0, 0, none⟩ := by
    unfold ended fa_scanX.loop Scan.begins Scan.settle Scan.atEnd
    rcases hclass with h | h <;> simp [h]
  rw [frex_matchX_eq, hended]
  unfold Scan.atEnd
  rcases hclass with h | h <;> simp [h]

/-- Where the root has a class, each text is matched. -/
theorem frex_matchX_ne_none {fa : FA} (h : (fa.stat 0).xclass = true) (str : Text) :
    frex_matchX fa str ≠ none := by
  have hkept := kept_ended fa str
  have hloop : (fa_scanX.loop fa (preamble fa) str (Scan.begins fa)).Kept fa :=
    kept_loop ⟨fun _ => rfl, fun m hm => by cases hm⟩
  have hsome := @kept_some fa (preamble fa) str (Scan.begins fa) h (.inr rfl)
  have hclass : ((ended fa str).atEnd fa str.length || (fa.stat (ended fa str).fsp).xclass) = true := by
    unfold ended Scan.settle
    split
    · rename_i hx
      rw [Bool.or_comm]
      exact hx
    · rename_i hx
      rcases hsome with hm | hfsp
      · obtain ⟨m, hm⟩ := Option.isSome_iff_exists.mp hm
        rw [hm]
        dsimp only
        rw [(hloop.kept m hm).1, Bool.or_true]
      · rw [hfsp, h] at hx
        simp at hx
  rw [frex_matchX_eq]
  dsimp only
  rw [if_pos hclass]
  simp

end delegate.tlex
