-- Substitution of literal texts (rary/sed.cpp, rary/TLEX.cpp): the automaton of
-- a literal is a chain whose states all go back to the root, so occurrences that
-- begin in one that almost matches are missed.
import Delegate.Borders
import Delegate.Sed

open ctext borders

namespace delegate.sed

open tlex

/-! ## The automaton of a literal -/

/-- The states of a literal: each has its character, and the root as its other state. -/
structure Chain (fa : FA) (p : Text) (xclass : Bool) : Prop where
  length : fa.length = p.length + 1
  stat : ∀ i ≤ p.length, fa.stat i =
    { xclass := xclass && i == p.length
      nnexts := if i < p.length then 1 else 0
      small := (p[i]?.map fun c => (c, i + 1)).toList
      other := some 0 }

theorem stat_modify (fa : FA) (i j : Nat) (f : FaStat → FaStat) :
    FA.stat (fa.modify i f) j = if i = j ∧ j < fa.length then f (fa.stat j) else fa.stat j := by
  unfold FA.stat
  rw [List.getElem?_modify]
  by_cases hj : j < fa.length
  · rw [List.getElem?_eq_getElem hj]
    by_cases hij : i = j <;> simp [hij, hj]
  · rw [List.getElem?_eq_none (by omega)]
    simp [hj]

theorem stat_concat (fa : FA) (st : FaStat) (j : Nat) :
    FA.stat (fa ++ [st]) j = if j = fa.length then st else fa.stat j := by
  unfold FA.stat
  by_cases hj : j = fa.length
  · rw [if_pos hj, hj, List.getElem?_concat_length]
    rfl
  · rw [if_neg hj]
    by_cases hlt : j < fa.length
    · rw [List.getElem?_append_left hlt]
    · rw [List.getElem?_eq_none (by rw [List.length_append, List.length_singleton]; omega),
        List.getElem?_eq_none (by omega)]

/-- The states after a character is put in behind the last one. -/
def extended (fa : FA) (p : Text) (ch : Char) : FA :=
  (SETNEXT fa p.length ch fa.length ++ [({} : FaStat)]).modify (p.length + 1) fun st => { st with other := some 0 }

theorem Chain.extend {fa : FA} {p : Text} (h : Chain fa p false) (ch : Char) :
    Chain (extended fa p ch) (p ++ [ch]) false := by
  unfold extended SETNEXT
  refine ⟨by simp [h.length], ?_⟩
  intro i hi
  rw [List.length_append, List.length_singleton] at hi
  rw [stat_modify, stat_concat, stat_modify, List.length_append, List.length_modify, h.length,
    List.length_singleton]
  rcases Nat.lt_trichotomy i p.length with hlt | rfl | hgt
  · rw [if_neg (by omega), if_neg (by omega), if_neg (by omega), h.stat i (by omega),
      List.getElem?_append_left hlt]
    simp [hlt, Nat.lt_succ_of_lt hlt]
  · rw [if_neg (by omega), if_neg (by omega), if_pos (by omega), h.stat _ (Nat.le_refl _)]
    simp [FaStat.setNext, FA_SMALL]
  · have hi : i = p.length + 1 := by omega
    rw [if_pos (by omega), if_pos (by omega), List.getElem?_eq_none (by simp [hi])]
    simp [hi]

theorem Chain.stins {fa : FA} {p : Text} (h : Chain fa p false) (ch : Char) :
    fa_stins fa p.length none ch =
      (SETNEXT fa p.length ch fa.length ++ [({} : FaStat)], some (p.length + 1)) := by
  have hlast := h.stat _ (Nat.le_refl _)
  have hnext : NEXT fa p.length ch = none := by
    unfold NEXT
    simp [hlast]
  have hnew : FA.stat (SETNEXT fa p.length ch fa.length ++ [({} : FaStat)]) p.length =
      (fa.stat p.length).setNext ch fa.length := by
    unfold SETNEXT
    rw [stat_concat, stat_modify, List.length_modify, h.length, if_neg (by omega), if_pos (by omega)]
  unfold fa_stins
  simp only [hnext]
  rw [Prod.mk.injEq]
  refine ⟨rfl, ?_⟩
  unfold NEXT next next1
  rw [hnew, hlast, h.length]
  simp [FaStat.setNext, FA_SMALL]

/-- The characters that stand for themselves in an expression. -/
def Plain (c : Char) : Prop := c ∉ ['$', '*', '[', '?', '^', '/', '&']

theorem chain_loop {rep : Text} (hrep : ∀ c ∈ rep, Plain c) {fa : FA} {p : Text}
    (h : Chain fa p false) : ∃ fa', fa_rexp.loop true rep fa p.length (some 0) true = some fa' ∧
      Chain fa' (p ++ rep) true := by
  induction rep generalizing fa p with
  | nil =>
    refine ⟨fa.modify p.length fun st => { st with xclass := true }, by rw [fa_rexp.loop], ?_⟩
    rw [List.append_nil]
    refine ⟨by rw [List.length_modify, h.length], fun i hi => ?_⟩
    rw [stat_modify, h.length, h.stat i hi]
    by_cases hlast : p.length = i
    · rw [if_pos ⟨hlast, by omega⟩]
      simp [hlast]
    · rw [if_neg fun hi => hlast hi.1]
      simp [Ne.symm hlast]
  | cons ch rep ih =>
    have hch : Plain ch := hrep ch (List.mem_cons_self ..)
    have hself : ¬(rep.head? = some '*' ∧ rep.tail.head? ≠ some '*') := by
      rintro ⟨hhead, -⟩
      have hstar := hrep '*' (List.mem_cons_of_mem _ (List.mem_of_head? hhead))
      exact hstar (by simp)
    unfold Plain at hch
    simp only [List.mem_cons, List.not_mem_nil, or_false, not_or] at hch
    obtain ⟨hdollar, hstar, hset, -⟩ := hch
    obtain ⟨fa', hfa', hchain⟩ := ih (fun c hc => hrep c (List.mem_cons_of_mem _ hc)) (h.extend ch)
    refine ⟨fa', ?_, ?_⟩
    · rw [fa_rexp.loop.eq_def]
      rw [List.length_append, List.length_singleton] at hfa'
      simp only [hdollar, hstar, hset, if_false, hself, Bool.true_eq_false, h.stins ch]
      exact hfa'
    · rw [List.append_assoc] at hchain
      exact hchain

theorem rexpb_plain {p : Text} (hp : ∀ c ∈ p, Plain c) : rexpb p = p := by
  unfold rexpb
  induction p with
  | nil => rfl
  | cons c p ih =>
    have hc : Plain c := hp c (List.mem_cons_self ..)
    unfold Plain at hc
    simp only [List.mem_cons, List.not_mem_nil, or_false, not_or] at hc
    rw [List.flatMap_cons, if_neg hc.2.1, if_neg hc.2.2.2.1,
      ih fun c hc => hp c (List.mem_cons_of_mem _ hc)]
    rfl

/-- The automaton of a literal is its chain. -/
theorem frex_create_plain {p : Text} (hp : ∀ c ∈ p, Plain c) :
    ∃ fa, frex_create ('*' :: p) = some fa ∧ Chain fa p true := by
  have hroot : Chain ([({} : FaStat)].modify 0 fun st => { st with other := some 0 }) [] false := by
    refine ⟨rfl, fun i hi => ?_⟩
    rw [Nat.le_zero.mp hi]
    rfl
  obtain ⟨fa, hfa, hchain⟩ := chain_loop hp hroot
  refine ⟨fa, ?_, hchain⟩
  have hexp : rexpb ('*' :: p) = '*' :: '*' :: rexpb p := rfl
  unfold frex_create
  rw [hexp, rexpb_plain hp, fa_rexp.loop]
  exact hfa

/-! ## The scanner on the chain -/

theorem Chain.next1 {fa : FA} {p : Text} (h : Chain fa p true) {i : Nat} (hi : i ≤ p.length)
    (c : Char) : next1 fa i c = if p[i]? = some c then some (i + 1) else none := by
  unfold tlex.next1
  rw [h.stat i hi]
  cases p[i]? with
  | none => simp
  | some d => by_cases hd : d = c <;> simp [hd]

/-- A state goes on, or goes back to the root and from it. -/
theorem Chain.next {fa : FA} {p : Text} (h : Chain fa p true) {i : Nat} (hi : i ≤ p.length)
    (c : Char) : ∃ backed, next fa i c = (some (step p i c), backed) ∧
      (p[i]? = some c → backed = false) ∧ (p[i]? ≠ some c → p[0]? = some c → backed = true) ∧
      (i = p.length → 0 < i → backed = true) := by
  unfold tlex.next borders.step
  rw [h.next1 hi]
  by_cases hc : p[i]? = some c
  · have hlt := (List.getElem?_eq_some_iff.mp hc).1
    simp only [if_pos hc]
    exact ⟨false, rfl, fun _ => rfl, fun hne => absurd hc hne, fun heq => by omega⟩
  · have hother : (fa.stat i).other = some 0 := by rw [h.stat i hi]
    simp only [if_neg hc, hother, h.next1 (Nat.zero_le _)]
    by_cases h0 : p[0]? = some c
    · simp only [if_pos h0]
      exact ⟨true, rfl, fun heq => absurd heq hc, fun _ _ => rfl, fun _ _ => rfl⟩
    · simp only [if_neg h0]
      refine ⟨_, rfl, fun heq => absurd heq hc, fun _ heq => absurd heq h0, ?_⟩
      rintro - hpos
      simp only [bne_iff_ne]
      omega

/-- Where the part that is matched begins. -/
def startOf (i ss : Nat) : Option Nat := if i = 0 then none else some (ss - i)

/-- Before the literal is matched, the scanner has the part that is matched, and its start. -/
structure Follows (p : Text) (i : Nat) (sc : Scan) : Prop where
  fsp : sc.fsp = i
  lsp : sc.lsp = startOf i sc.ss
  le : i ≤ sc.ss
  lastmatch : sc.lastmatch = none

theorem Chain.xclass {fa : FA} {p : Text} (h : Chain fa p true) {i : Nat} (hi : i ≤ p.length) :
    (fa.stat i).xclass = (i == p.length) := by
  rw [h.stat i hi, Bool.true_and]

theorem Follows.turn {fa : FA} {p : Text} (h : Chain fa p true) {i : Nat} {sc : Scan}
    (hsc : Follows p i sc) (hi : i < p.length) (c : Char) (rest : Text) :
    ∃ sc', fa_scanX.turn fa (some 0) c rest sc = (true, sc') ∧ Follows p (step p i c) sc' ∧
      sc'.ss = sc.ss + 1 := by
  obtain ⟨backed, hnext, hgoes, hback, -⟩ := h.next (Nat.le_of_lt hi) c
  have hkeep : sc.keep fa = none := by
    unfold Scan.keep
    rw [hsc.fsp, h.xclass (Nat.le_of_lt hi), beq_eq_false_iff_ne.mpr (Nat.ne_of_lt hi)]
    exact hsc.lastmatch
  unfold fa_scanX.turn
  simp only [hkeep, hsc.fsp, hnext]
  refine ⟨_, if_neg (by simp), ⟨rfl, ?_, ?_, rfl⟩, rfl⟩
  · have hle := hsc.le
    unfold startAfter startOf
    simp only [hsc.lsp]
    unfold startOf borders.step
    by_cases hc : p[i]? = some c
    · simp only [if_pos hc, hgoes hc]
      by_cases hzero : i = 0
      · simp [hzero]
      · simp only [hzero]
        simp
    · simp only [if_neg hc]
      by_cases h0 : p[0]? = some c
      · simp [if_pos h0, hback hc h0]
      · simp only [if_neg h0]
        cases backed <;> by_cases hzero : i = 0 <;> simp [hzero]
  · exact Nat.le_trans step_le_succ (Nat.succ_le_succ hsc.le)

/-- Where the scanner ends on a chain. -/
theorem Chain.loop {fa : FA} {p : Text} (h : Chain fa p true) (hp : 0 < p.length) {i : Nat}
    {sc : Scan} (hsc : Follows p i sc) (hi : i ≤ p.length) (str : Text) :
    let sc' := fa_scanX.loop fa (some 0) str sc
    (∃ k, reach p i str = some k ∧ sc'.fsp = p.length ∧ sc'.ss = sc.ss + k ∧
        sc'.lsp = some (sc.ss + k - p.length)) ∨
      (reach p i str = none ∧ sc'.fsp < p.length ∧ sc'.lastmatch = none) := by
  induction str generalizing i sc with
  | nil =>
    unfold fa_scanX.loop reach
    by_cases hfull : i = p.length
    · refine .inl ⟨0, if_pos hfull, hsc.fsp.trans hfull, rfl, ?_⟩
      rw [hsc.lsp, startOf, if_neg (by omega), hfull]
      rfl
    · exact .inr ⟨if_neg hfull, by rw [hsc.fsp]; omega, hsc.lastmatch⟩
  | cons c str ih =>
    unfold fa_scanX.loop reach
    by_cases hfull : i = p.length
    · -- The match is kept, and each character goes back from it.
      obtain ⟨backed, hnext, -, -, hback⟩ := h.next hi c
      have hkeep : sc.keep fa = some ⟨sc.fsp, sc.lsp, sc.ss⟩ := by
        unfold Scan.keep
        rw [hsc.fsp, h.xclass hi, if_pos (beq_iff_eq.mpr hfull)]
      have hturn : fa_scanX.turn fa (some 0) c str sc =
          (false, { sc with lastmatch := some ⟨sc.fsp, sc.lsp, sc.ss⟩ }) := by
        unfold fa_scanX.turn
        simp only [hkeep, hsc.fsp, hnext, hback hfull (by omega)]
        exact if_pos (by simp)
      simp only [hturn]
      refine .inl ⟨0, if_pos hfull, hsc.fsp.trans hfull, rfl, ?_⟩
      simp only [Bool.false_eq_true, if_false]
      rw [hsc.lsp, startOf, if_neg (by omega), hfull]
      rfl
    · obtain ⟨sc', hturn, hfollows, hss⟩ := hsc.turn h (by omega) c str
      simp only [hturn, if_true, if_neg hfull]
      rcases ih hfollows step_le with ⟨k, hk, hfsp, hend, hlsp⟩ | ⟨hnone, hrest⟩
      · refine .inl ⟨k + 1, by rw [hk]; rfl, hfsp, ?_, ?_⟩
        · rw [hend, hss]
          omega
        · rw [hlsp, hss]
          congr 2
          omega
      · exact .inr ⟨by rw [hnone]; rfl, hrest⟩

/-- The automaton of a literal finds what its chain reaches. -/
theorem Chain.frex_matchX {fa : FA} {p : Text} (h : Chain fa p true) (hp : 0 < p.length)
    (str : Text) :
    frex_matchX fa str = (reach p 0 str).map fun k => (some (k - p.length), k) := by
  have hroot := h.stat 0 (Nat.zero_le _)
  have hpre : preamble fa = some 0 := by
    unfold preamble
    rw [hroot]
    exact if_pos rfl
  have hbegins : Follows p 0 (Scan.begins fa) := by
    refine ⟨rfl, ?_, Nat.le_refl _, rfl⟩
    unfold Scan.begins startOf
    rw [hpre, hroot]
    have hne : ¬0 = p.length := by omega
    simp [hne]
  have heclass : ∀ i ≤ p.length, (fa.stat i).eclass = false := fun i hi => by rw [h.stat i hi]
  rw [frex_matchX_eq]
  unfold ended Scan.settle Scan.atEnd
  rw [hpre]
  rcases h.loop hp hbegins (Nat.zero_le _) str with ⟨k, hk, hfsp, hss, hlsp⟩ | ⟨hnone, hfsp, hlast⟩
  · have hclass := h.xclass (Nat.le_refl _)
    rw [beq_self_eq_true] at hclass
    have hzero : (Scan.begins fa).ss = 0 := rfl
    rw [hzero, Nat.zero_add] at hss hlsp
    simp only [hfsp, hclass, Bool.true_or, if_true, heclass _ (Nat.le_refl _), hk, hlsp, hss]
    simp
  · have hclass := h.xclass (Nat.le_of_lt hfsp)
    rw [beq_eq_false_iff_ne.mpr (Nat.ne_of_lt hfsp)] at hclass
    simp only [hclass, heclass _ (Nat.le_of_lt hfsp), hlast, hnone]
    simp [hclass, heclass _ (Nat.le_of_lt hfsp)]

/-! ## Replaced texts -/

/-- The rest behind an occurrence is shorter. -/
theorem rest_shorter {p t a b : Text} (h : strstr p t = some (a, b)) (hp : p ≠ []) :
    (b.drop p.length).length < t.length := by
  obtain ⟨rfl, hpre⟩ := strstr_some h
  have hpos := List.length_pos_iff.mpr hp
  have hle := hpre.length_le
  rw [List.length_drop, List.length_append]
  omega

/-- The text with its first occurrence of `p` replaced, or each from left to right. -/
def replaced (g : Bool) (p r t : Text) : Text :=
  match _h : strstr p t with
  | none => t
  | some (a, b) =>
    if _hg : g = true ∧ p ≠ [] then a ++ r ++ replaced g p r (b.drop p.length)
    else a ++ r ++ b.drop p.length
termination_by t.length
decreasing_by exact rest_shorter _h _hg.2

theorem replaced_none {g : Bool} {p r t : Text} (h : strstr p t = none) : replaced g p r t = t := by
  rw [replaced]
  split
  · rfl
  · rename_i h'
    rw [h] at h'
    cases h'

theorem replaced_some {g : Bool} {p r t a b : Text} (h : strstr p t = some (a, b)) :
    replaced g p r t = a ++ r ++
      if g = true ∧ p ≠ [] then replaced g p r (b.drop p.length) else b.drop p.length := by
  rw [replaced]
  split
  · rename_i h'
    rw [h] at h'
    cases h'
  · rename_i h'
    rw [h] at h'
    cases h'
    split <;> rfl

/-- The text before an occurrence, the occurrence and the rest. -/
theorem strstr_split {p t a b : Text} (h : strstr p t = some (a, b)) :
    t = a ++ p ++ b.drop p.length := by
  obtain ⟨rfl, rest, rfl⟩ := strstr_some h
  rw [List.drop_left, List.append_assoc]

/-- A text that is replaced by itself. -/
theorem replaced_self {g : Bool} {p t : Text} : replaced g p p t = t := by
  induction hlen : t.length using Nat.strong_induction_on generalizing t with
  | _ n ih =>
    cases hfound : strstr p t with
    | none => exact replaced_none hfound
    | some found =>
      obtain ⟨a, b⟩ := found
      have hsplit := strstr_split hfound
      rw [replaced_some hfound]
      split
      · rename_i hg
        rw [ih _ (hlen ▸ rest_shorter hfound hg.2) rfl]
        exact hsplit.symm
      · exact hsplit.symm

/-- What is reached first is the first occurrence. -/
theorem reach_eq_strstr {p : Text} (hp : Steady p) (t : Text) :
    reach p 0 t = (strstr p t).map fun found => found.1.length + p.length := by
  have hroot : p.take 0 <:+ [] := by simp
  cases hfound : strstr p t with
  | none =>
    cases hreach : reach p 0 t with
    | none => rfl
    | some k =>
      obtain ⟨-, hsuf⟩ := reach_some hroot hreach
      have hocc : p <:+: t := hsuf.isInfix.trans (List.take_prefix k t).isInfix
      rw [← strstr_isSome_iff, hfound] at hocc
      cases hocc
  | some found =>
    obtain ⟨a, b⟩ := found
    have hsplit := strstr_split hfound
    have htake : t.take (a.length + p.length) = a ++ p := by
      rw [hsplit, ← List.length_append, List.take_left]
    have hle : a.length + p.length ≤ t.length := by
      rw [hsplit, List.length_append, List.length_append]
      omega
    obtain ⟨k, hk, hreach⟩ := reach_of_occurs hp (matched_nil p) hle
      (by rw [htake, List.nil_append]; exact List.suffix_append a p)
    obtain ⟨hkt, x, hx⟩ := reach_some hroot hreach
    rw [List.nil_append] at hx
    have hfirst : a.length ≤ x.length :=
      @strstr_first p t a b x (t.drop k) hfound (by rw [hx, List.take_append_drop])
    have hlen := congrArg List.length hx
    rw [List.length_append, List.length_take, Nat.min_eq_left hkt] at hlen
    have heq : k = a.length + p.length := by omega
    rw [hreach, heq]
    rfl

/-! ## The command -/

/-- A text that the command is made of. -/
structure Literal (t : Text) : Prop where
  alnum : ∀ c ∈ t, c.isAlphanum = true
  fits : t.length < 127

theorem plain_of_alnum {c : Char} (h : c.isAlphanum = true) : Plain c := by
  intro hc
  simp only [List.mem_cons, List.not_mem_nil, or_false] at hc
  rcases hc with rfl | rfl | rfl | rfl | rfl | rfl | rfl <;> cases h

theorem Literal.plain {t : Text} (h : Literal t) : ∀ c ∈ t, Plain c := fun c hc =>
  plain_of_alnum (h.alnum c hc)

/-- `s/p/r/` or `s/p/r/g` -/
def substitution (p r : Text) (g : Bool) : Text :=
  's' :: '/' :: (p ++ '/' :: (r ++ '/' :: if g then ['g'] else []))

theorem sed_fmt_plain {sc : SedCom} (h : ∀ c ∈ sc.c_outpat, Plain c) (spat : Text) :
    sed_fmt sc spat = sc.c_outpat := by
  unfold sed_fmt
  generalize sc.c_outpat = out at h
  induction out with
  | nil => rfl
  | cons c out ih =>
    have hc : Plain c := h c (List.mem_cons_self ..)
    unfold Plain at hc
    simp only [List.mem_cons, List.not_mem_nil, or_false, not_or] at hc
    rw [List.flatMap_cons, if_neg hc.2.2.2.2.2.2, ih fun c hc => h c (List.mem_cons_of_mem _ hc)]
    rfl

theorem scan_pat_plain {p : Text} (hp : ∀ c ∈ p, Plain c) (rest : Text) (rexp : Bool) :
    scan_pat (p ++ '/' :: rest) '/' rexp false = ((if rexp then ['*'] else []) ++ p, '/' :: rest) := by
  have hhead : (p ++ '/' :: rest).head? ≠ some '^' := by
    cases p with
    | nil => simp
    | cons c p =>
      intro h
      have hc : c = '^' := Option.some.inj h
      exact hp c (List.mem_cons_self ..) (by rw [hc]; simp)
  have hnot : ∀ c ∈ p, decide (c ≠ '/') = true := by
    intro c hc
    refine decide_eq_true fun heq => hp c hc ?_
    rw [heq]
    simp
  unfold scan_pat
  rw [beq_eq_false_iff_ne.mpr hhead, Bool.and_false]
  simp only [Bool.false_eq_true, if_false, bne_iff_ne, ne_eq, hhead, not_false_eq_true, Bool.and_eq_true,
    and_true]
  obtain ⟨htake, hdrop⟩ := while_append hnot (t := '/' :: rest) (by simp)
  rw [htake, hdrop]

theorem sed_compile_literal {p r : Text} {g : Bool} (hp : Literal p) (hr : Literal r) :
    ∃ fa, Chain fa p true ∧ sed_compile (substitution p r g) =
      some { subst := true, glob := g, c_srcrex := some fa, c_outpat := r } := by
  obtain ⟨fa, hfa, hchain⟩ := frex_create_plain hp.plain
  refine ⟨fa, hchain, ?_⟩
  unfold sed_compile substitution sed_compile.address
  rw [if_neg (by simp)]
  simp only [Option.bind_eq_bind, Option.bind_some, scan_pat_plain hp.plain, if_true,
    List.singleton_append, hfa, List.head?_cons, List.tail_cons, scan_pat_plain hr.plain]
  cases g <;> rfl

/-! ## Substitutions -/

/-- A substitution with a steady pattern replaces each occurrence. -/
theorem substLoop_steady {sc : SedCom} {fa : FA} {p : Text} {n : Nat} (h : Chain fa p true)
    (hp : p ≠ []) (hsteady : Steady p) (hr : ∀ c ∈ sc.c_outpat, Plain c) (line op : Text)
    (hn : line.length < n) :
    substLoop sc fa n line op = some (some (op ++ replaced sc.glob p sc.c_outpat line)) := by
  induction n generalizing line op with
  | zero => exact absurd hn (Nat.not_lt_zero _)
  | succ n ih =>
    unfold substLoop
    rw [h.frex_matchX (List.length_pos_iff.mpr hp), reach_eq_strstr hsteady]
    cases hfound : strstr p line with
    | none =>
      rw [replaced_none hfound]
      rfl
    | some found =>
      obtain ⟨a, b⟩ := found
      have hlt := rest_shorter hfound hp
      have hsplit := strstr_split hfound
      have htake : line.take a.length = a := by
        rw [hsplit, List.append_assoc, List.take_left]
      have hdrop : line.drop (a.length + p.length) = b.drop p.length := by
        rw [← List.length_append]
        conv_lhs => rw [hsplit]
        rw [List.drop_left]
      simp only [Option.map_some, Nat.add_sub_cancel, sed_fmt_plain hr, htake, hdrop]
      rw [replaced_some hfound]
      by_cases hglob : sc.glob = true
      · rw [if_pos hglob, if_pos ⟨hglob, hp⟩, ih _ _ (by omega)]
        simp only [List.append_assoc]
      · rw [if_neg hglob, if_neg fun hg => hglob hg.1]
        simp only [List.append_assoc]

/-- A substitution of a text by itself leaves the line as it is. -/
theorem substLoop_self {sc : SedCom} {fa : FA} {p : Text} {n : Nat} (h : Chain fa p true)
    (hp : p ≠ []) (hr : ∀ c ∈ p, Plain c) (hout : sc.c_outpat = p) (line op : Text)
    (hn : line.length < n) : substLoop sc fa n line op = some (some (op ++ line)) := by
  induction n generalizing line op with
  | zero => exact absurd hn (Nat.not_lt_zero _)
  | succ n ih =>
    have hpos := List.length_pos_iff.mpr hp
    unfold substLoop
    rw [h.frex_matchX hpos]
    cases hreach : reach p 0 line with
    | none => rfl
    | some k =>
      obtain ⟨hle, x, hx⟩ := @reach_some _ _ p line [] 0 k (by simp) hreach
      rw [List.nil_append] at hx
      have hlen := congrArg List.length hx
      rw [List.length_append, List.length_take, Nat.min_eq_left hle] at hlen
      have hbefore : line.take (k - p.length) = x := by
        have hk : k - p.length = x.length := by omega
        rw [← List.take_append_drop k line, ← hx, hk, List.append_assoc, List.take_left]
      have hwhole : x ++ p ++ line.drop k = line := by rw [hx, List.take_append_drop]
      have hfmt : sed_fmt sc ((line.take k).drop (k - p.length)) = p := by
        rw [sed_fmt_plain (hout ▸ hr), hout]
      simp only [Option.map_some, hbefore, hfmt]
      by_cases hglob : sc.glob = true
      · rw [if_pos hglob, ih _ _ (by rw [List.length_drop]; omega), ← hwhole]
        simp only [List.append_assoc, hwhole]
      · rw [if_neg hglob]
        simp only [List.append_assoc] at hwhole ⊢
        rw [hwhole]

theorem sed_execute1_single {sc : SedCom} {fa : FA} {n : Nat} {line out : Text}
    (hdelete : sc.delete = false) (hmatch : sc.c_matchrex = none) (hsrc : sc.c_srcrex = some fa) :
    sed_execute1 n false [sc] line out = substLoop sc fa n line [] := by
  unfold sed_execute1 apply_commands apply_command addressed
  simp only [hdelete, hmatch, hsrc, Bool.false_and, Bool.true_eq_false, Bool.false_eq_true, if_false,
    Option.isSome_none]
  cases substLoop sc fa n line [] with
  | none => rfl
  | some r => cases r <;> rfl

/-- The command replaces literal texts in each line exactly if the pattern is steady, or is replaced by
itself. -/
theorem sed_execute1_literal_iff (p r : Text) (hp : Literal p) (hne : p ≠ []) (hr : Literal r) :
    (∀ (g : Bool) (line out : Text), (∀ c ∈ line, c.isAlphanum = true) →
      ∃ sc, sed_compile (substitution p r g) = some sc ∧
        ∃ n, sed_execute1 n false [sc] line out = some (some (replaced g p r line))) ↔
      Steady p ∨ r = p := by
  constructor
  · intro h
    by_contra hbad
    rw [not_or] at hbad
    obtain ⟨i, k, hocc, hmiss⟩ := missed_of_not_steady hbad.1
    obtain ⟨fa, hchain, hcompile⟩ := @sed_compile_literal p r false hp hr
    have halnum : ∀ c ∈ p.take k ++ p.drop i, c.isAlphanum = true := by
      intro c hc
      refine hp.alnum c ?_
      rcases List.mem_append.mp hc with hc | hc
      · exact List.mem_of_mem_take hc
      · exact List.mem_of_mem_drop hc
    obtain ⟨sc, hsc, n, hrun⟩ := h false (p.take k ++ p.drop i) [] halnum
    rw [hcompile, Option.some.injEq] at hsc
    rw [← hsc, sed_execute1_single rfl rfl rfl] at hrun
    cases n with
    | zero => cases hrun
    | succ n =>
      -- The occurrence is missed, and the line is as it was.
      have hsame : replaced false p r (p.take k ++ p.drop i) = p.take k ++ p.drop i := by
        unfold substLoop at hrun
        rw [hchain.frex_matchX (List.length_pos_iff.mpr hne), hmiss] at hrun
        exact (Option.some.inj (Option.some.inj hrun)).symm
      obtain ⟨⟨a, b⟩, hfound⟩ := Option.isSome_iff_exists.mp (strstr_isSome_iff.mpr hocc.isInfix)
      rw [replaced_some hfound] at hsame
      have hsplit := strstr_split hfound
      rw [hsplit] at hsame
      simp only [Bool.false_eq_true, false_and, if_false] at hsame
      exact hbad.2 (List.append_cancel_left (List.append_cancel_right hsame))
  · intro h g line out _
    obtain ⟨fa, hchain, hcompile⟩ := @sed_compile_literal p r g hp hr
    refine ⟨_, hcompile, line.length + 1, ?_⟩
    rw [sed_execute1_single rfl rfl rfl]
    rcases h with hsteady | rfl
    · exact substLoop_steady hchain hne hsteady hr.plain line [] (Nat.lt_succ_self _)
    · rw [replaced_self]
      exact substLoop_self hchain hne hp.plain rfl line [] (Nat.lt_succ_self _)

/-- Where a start of this pattern ends a longer one, both go on with the same character. -/
theorem steady_abab : Steady ['a', 'b', 'a', 'b'] := by
  intro i k hi hik hk hends
  have hall : ∀ k < 4, ∀ i < k, 0 < i → ['a', 'b', 'a', 'b'].take i <:+ ['a', 'b', 'a', 'b'].take k →
      ['a', 'b', 'a', 'b'][i]? = ['a', 'b', 'a', 'b'][k]? := by
    decide
  exact hall k hk i hik hi hends

theorem sed_execute1_literal_abab :
    ∃ sc, sed_compile (substitution ['a', 'b', 'a', 'b'] ['x'] true) = some sc ∧
      ∃ n, sed_execute1 n false [sc] ['b', 'a', 'b', 'a', 'b', 'a', 'b', 'a', 'b', 'a'] [] =
        some (some ['b', 'x', 'x', 'a']) := by
  have hline := (sed_execute1_literal_iff ['a', 'b', 'a', 'b'] ['x'] ⟨by simp, by simp⟩ (by simp)
    ⟨by simp, by simp⟩).mpr (.inl steady_abab) true
    ['b', 'a', 'b', 'a', 'b', 'a', 'b', 'a', 'b', 'a'] [] (by simp)
  have hfirst : strstr ['a', 'b', 'a', 'b'] ['b', 'a', 'b', 'a', 'b', 'a', 'b', 'a', 'b', 'a'] =
      some (['b'], ['a', 'b', 'a', 'b', 'a', 'b', 'a', 'b', 'a']) := by
    decide
  have hsecond : strstr ['a', 'b', 'a', 'b'] ['a', 'b', 'a', 'b', 'a'] =
      some ([], ['a', 'b', 'a', 'b', 'a']) := by
    decide
  have hnone : strstr ['a', 'b', 'a', 'b'] ['a'] = none := by
    decide
  have hreplaced : replaced true ['a', 'b', 'a', 'b'] ['x']
      ['b', 'a', 'b', 'a', 'b', 'a', 'b', 'a', 'b', 'a'] = ['b', 'x', 'x', 'a'] := by
    rw [replaced_some hfirst]
    simp [replaced_some hsecond, replaced_none hnone]
  rwa [hreplaced] at hline

/-- With the pattern `aab` the line `aaab` is left as it is. -/
theorem overlap_missed :
    ∃ sc, sed_compile (substitution ['a', 'a', 'b'] ['x'] false) = some sc ∧
      (∀ n, sed_execute1 (n + 1) false [sc] ['a', 'a', 'a', 'b'] [] = some (some ['a', 'a', 'a', 'b'])) ∧
      replaced false ['a', 'a', 'b'] ['x'] ['a', 'a', 'a', 'b'] = ['a', 'x'] := by
  obtain ⟨fa, hchain, hcompile⟩ := @sed_compile_literal ['a', 'a', 'b'] ['x'] false
    ⟨by simp, by simp⟩ ⟨by simp, by simp⟩
  have hmiss : reach ['a', 'a', 'b'] 0 ['a', 'a', 'a', 'b'] = none := rfl
  refine ⟨_, hcompile, fun n => ?_, ?_⟩
  · rw [sed_execute1_single rfl rfl rfl]
    unfold substLoop
    rw [hchain.frex_matchX (by simp), hmiss]
    rfl
  · have hfound : strstr ['a', 'a', 'b'] ['a', 'a', 'a', 'b'] = some (['a'], ['a', 'a', 'b']) := by
      decide
    rw [replaced_some hfound]
    rfl

end delegate.sed
