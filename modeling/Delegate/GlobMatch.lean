-- The glob match (String.cpp). `rexpmatchX` reads the pattern against the
-- text and keeps one place to go back to, that of the last `*`. The texts
-- that a pattern stands for are said first, and the loop is measured
-- against them.
import Delegate.HostMatch

open ctext

/-! ## The texts of a glob pattern -/

namespace glob

section
variable {α : Type*} {star : α} {eqv : α → α → Prop}

/-- The texts that a pattern produces: any text in the place of each
`star`, and an equal character in the place of every other character. -/
inductive Produces (star : α) (eqv : α → α → Prop) : List α → List α → Prop
  | nil : Produces star eqv [] []
  | star {r s : List α} (t : List α) :
    Produces star eqv r s → Produces star eqv (star :: r) (t ++ s)
  | char {p c : α} {r s : List α} (hp : p ≠ star) (he : eqv p c) :
    Produces star eqv r s → Produces star eqv (p :: r) (c :: s)

theorem produces_nil_iff {s : List α} : Produces star eqv [] s ↔ s = [] := by
  constructor
  · intro h
    cases h
    rfl
  · rintro rfl
    exact .nil

theorem produces_star_iff {r s : List α} :
    Produces star eqv (star :: r) s ↔ ∃ t, t <:+ s ∧ Produces star eqv r t := by
  constructor
  · intro h
    cases h with
    | star t h => exact ⟨_, List.suffix_append t _, h⟩
    | char hp => exact absurd rfl hp
  · rintro ⟨t, ⟨u, rfl⟩, h⟩
    exact .star u h

theorem produces_char_iff {p : α} {r s : List α} (hp : p ≠ star) :
    Produces star eqv (p :: r) s ↔ ∃ c t, s = c :: t ∧ eqv p c ∧ Produces star eqv r t := by
  constructor
  · intro h
    cases h with
    | star => exact absurd rfl hp
    | char _ he h => exact ⟨_, _, rfl, he, h⟩
  · rintro ⟨c, t, rfl, he, h⟩
    exact .char hp he h

/-- A `star` takes what stands before a text that the pattern produces. -/
theorem produces_star_suffix {r s t : List α} (h : Produces star eqv (star :: r) t)
    (hs : t <:+ s) : Produces star eqv (star :: r) s := by
  obtain ⟨u, hu, hr⟩ := produces_star_iff.mp h
  exact produces_star_iff.mpr ⟨u, hu.trans hs, hr⟩

/-- The empty text comes from a pattern of stars. -/
theorem produces_empty_iff {r : List α} : Produces star eqv r [] ↔ ∀ p ∈ r, p = star := by
  induction r with
  | nil => simp [produces_nil_iff]
  | cons p r ih =>
    by_cases hp : p = star
    · subst hp
      simp [produces_star_iff, ih]
    · simp [produces_char_iff hp, hp]

/-- The part of a pattern before its first `star` takes as many characters
as it has. The rest of the pattern produces what is left. -/
theorem produces_after {u r t : List α} (hu : star ∉ u) (h : Produces star eqv (u ++ r) t) :
    ∃ a s, t = a ++ s ∧ a.length = u.length ∧ Produces star eqv r s := by
  induction u generalizing t with
  | nil => exact ⟨[], t, rfl, rfl, h⟩
  | cons p u ih =>
    have hp : p ≠ star := by
      rintro rfl
      simp at hu
    obtain ⟨c, t', rfl, -, h'⟩ := (produces_char_iff hp).mp h
    obtain ⟨a, s, rfl, ha, hs⟩ := ih (fun hm => hu (List.mem_cons_of_mem _ hm)) h'
    exact ⟨c :: a, s, rfl, by simp [ha], hs⟩

end

end glob

open glob

namespace delegate.hostlist

/-! ## The loop, one turn at a time -/

/-- The variables of the loop: `rp`, `sp`, and where `star` and `mark` are
set, the pattern after `star` and the text from `mark` on. -/
structure Scan where
  rp : Text
  sp : Text
  star : Option (Text × Text)
deriving DecidableEq, Repr

/-- The last branch of the loop: back to the last `*`, one character on. -/
def Scan.back (l : Scan) : Scan ⊕ Bool :=
  match l.star with
  | some (r, _ :: ms) => .inl ⟨r, ms, some (r, ms)⟩
  | _ => .inr false

/-- One turn of the loop, or what `rexpmatchX` returns. -/
def Scan.turn (igncase : Bool) (l : Scan) : Scan ⊕ Bool :=
  match l.sp with
  | [] => .inr (l.rp.dropWhile (· = '*')).isEmpty
  | c :: s =>
    match l.rp with
    | [] => l.back
    | p :: r =>
      if p = '*' then .inl ⟨r, c :: s, some (r, c :: s)⟩
      else if p = c || igncase && chrcaseeq c p then .inl ⟨r, s, l.star⟩
      else l.back

/-- What the loop returns within `n` turns, if it ends in them. -/
def Scan.runs (igncase : Bool) : Nat → Scan → Option Bool
  | 0, _ => none
  | n + 1, l =>
    match l.turn igncase with
    | .inl l' => runs igncase n l'
    | .inr b => some b

/-- A loop that ends returns what `rexpLoop` says. -/
theorem rexpLoop_of_runs {ic b : Bool} (n : Nat) (l : Scan) :
    l.runs ic n = some b → rexpLoop ic n l.rp l.sp l.star = b := by
  induction n generalizing l with
  | zero =>
    intro h
    simp [Scan.runs] at h
  | succ n ih =>
    obtain ⟨rp, sp, star⟩ := l
    have hback : (match Scan.back ⟨rp, sp, star⟩ with
        | .inl l' => l'.runs ic n
        | .inr b => some b) = some b →
        (match star with
          | some (r, _ :: ms) => rexpLoop ic n r ms (some (r, ms))
          | _ => false) = b := by
      rcases star with _ | ⟨r, _ | ⟨m, ms⟩⟩
      · simp [Scan.back]
      · simp [Scan.back]
      · exact ih ⟨r, ms, some (r, ms)⟩
    intro h
    rcases sp with _ | ⟨c, s⟩
    · simpa [Scan.runs, Scan.turn, rexpLoop] using h
    · rcases rp with _ | ⟨p, r⟩
      · simp only [rexpLoop]
        exact hback h
      · simp only [Scan.runs, Scan.turn] at h
        simp only [rexpLoop]
        by_cases hp : p = '*'
        · rw [if_pos hp] at h ⊢
          exact ih _ h
        · rw [if_neg hp] at h ⊢
          by_cases hc : (p = c || ic && chrcaseeq c p) = true
          · rw [if_pos hc] at h ⊢
            exact ih _ h
          · rw [if_neg hc] at h ⊢
            exact hback h

/-! ## What is still to be found -/

/-- The character `c` of a text stands for `p` of a pattern. -/
def Same (ic : Bool) (p c : Char) : Prop := p = c ∨ ic = true ∧ chrcaseeq c p = true

theorem same_iff {ic : Bool} {p c : Char} :
    (p = c || ic && chrcaseeq c p) = true ↔ Same ic p c := by simp [Same]

/-- Between the last `*` and `rp` the pattern has no `*`, and takes the
text between `mark` and `sp`. -/
def Scan.Aligned (l : Scan) : Prop :=
  ∀ r ms, l.star = some (r, ms) →
    ∃ u v, r = u ++ l.rp ∧ ms = v ++ l.sp ∧ '*' ∉ u ∧ v.length = u.length

/-- The rest of the pattern produces the rest of the text, or the pattern
after the last `*` produces a text that starts behind the mark. -/
def Scan.Finds (ic : Bool) (l : Scan) : Prop :=
  Produces '*' (Same ic) l.rp l.sp ∨
    ∃ r m ms t, l.star = some (r, m :: ms) ∧ t <:+ ms ∧ Produces '*' (Same ic) r t

/-- Every turn takes a character of the pattern, or moves the mark and
starts the pattern again, which is at most `k` long. -/
def Scan.size (k : Nat) (l : Scan) : Nat :=
  (match l.star with
    | none => l.sp.length
    | some (_, ms) => ms.length) * (k + 1) + l.rp.length + 1

/-- What was left of the pattern at the last `*` is at most `k` long. -/
def Scan.Fits (k : Nat) (l : Scan) : Prop :=
  l.rp.length ≤ k ∧ ∀ r ms, l.star = some (r, ms) → r.length ≤ k

/-- What one turn keeps. -/
structure Scan.Follows (ic : Bool) (k : Nat) (l l' : Scan) : Prop where
  aligned : l'.Aligned
  finds : l'.Finds ic ↔ l.Finds ic
  fits : l'.Fits k
  size : l'.size k < l.size k

section
variable {ic : Bool} {k : Nat} {l : Scan}

/-- A new `*` drops the place of the one before: what the pattern after
that one would find, the new one finds too. -/
theorem follows_star {r : Text} {c : Char} {s : Text} (hrp : l.rp = '*' :: r)
    (hsp : l.sp = c :: s) (ha : l.Aligned) (hf : l.Fits k) :
    l.Follows ic k ⟨r, c :: s, some (r, c :: s)⟩ := by
  have hnew : Scan.Finds ic ⟨r, c :: s, some (r, c :: s)⟩ ↔
      Produces '*' (Same ic) l.rp l.sp := by
    rw [hrp, hsp, produces_star_iff]
    constructor
    · rintro (h | ⟨r', m, ms, t, he, ht, h⟩)
      · exact ⟨c :: s, List.suffix_refl _, h⟩
      · cases he
        exact ⟨t, ht.trans (List.suffix_cons _ _), h⟩
    · rintro ⟨t, ht, h⟩
      rcases List.suffix_cons_iff.mp ht with rfl | ht
      · exact .inl h
      · exact .inr ⟨r, c, s, t, rfl, ht, h⟩
  have hlen : l.rp.length = r.length + 1 := by simp [hrp]
  refine ⟨?_, ?_, ?_, ?_⟩
  · intro r' ms he
    cases he
    exact ⟨[], [], rfl, rfl, by simp, rfl⟩
  · rw [hnew]
    refine ⟨.inl, ?_⟩
    rintro (h | ⟨r', m, ms, t, he, ht, h⟩)
    · exact h
    · obtain ⟨u, v, rfl, hms, hu, hv⟩ := ha _ _ he
      obtain ⟨a, t', rfl, hal, h'⟩ := produces_after hu h
      rw [hrp] at h' ⊢
      -- The rest of the old match starts behind `sp`.
      have hle : t'.length ≤ l.sp.length := by
        have h1 := ht.length_le
        have h2 := congrArg List.length hms
        simp only [List.length_append, List.length_cons] at h1 h2
        omega
      have hsuf : t' <:+ m :: ms :=
        (List.suffix_append a t').trans (ht.trans (List.suffix_cons m ms))
      rw [hms] at hsuf
      exact produces_star_suffix h'
        (List.suffix_of_suffix_length_le hsuf (List.suffix_append v _) hle)
  · have h1 := hf.1
    refine ⟨by simp only; omega, fun r' ms he => ?_⟩
    cases he
    omega
  · have hle : (c :: s).length ≤ (match l.star with
        | none => l.sp.length
        | some (_, ms) => ms.length) := by
      rcases hst : l.star with _ | ⟨r', ms⟩
      · simp [hsp]
      · obtain ⟨u, v, -, hms, -, -⟩ := ha _ _ hst
        simp [hms, hsp]
    have := Nat.mul_le_mul_right (k + 1) hle
    simp only [Scan.size]
    omega

/-- A character that stands for the next of the pattern. -/
theorem follows_char {p c : Char} {r s : Text} (hrp : l.rp = p :: r) (hsp : l.sp = c :: s)
    (hp : p ≠ '*') (hs : Same ic p c) (ha : l.Aligned) (hf : l.Fits k) :
    l.Follows ic k ⟨r, s, l.star⟩ := by
  refine ⟨?_, ?_, ?_, ?_⟩
  · intro r' ms he
    obtain ⟨u, v, hr, hms, hu, hv⟩ := ha r' ms he
    refine ⟨u ++ [p], v ++ [c], by simp [hr, hrp], by simp [hms, hsp], ?_, by simp [hv]⟩
    simp [hu, Ne.symm hp]
  · have hone : Produces '*' (Same ic) l.rp l.sp ↔ Produces '*' (Same ic) r s := by
      rw [hrp, hsp, produces_char_iff hp]
      constructor
      · rintro ⟨c', t, he, -, h⟩
        cases he
        exact h
      · exact fun h => ⟨c, s, rfl, hs, h⟩
    unfold Scan.Finds
    rw [hone]
  · have h1 := hf.1
    simp only [hrp, List.length_cons] at h1
    exact ⟨by simp only; omega, hf.2⟩
  · have hle : s.length ≤ l.sp.length := by simp [hsp]
    have := Nat.mul_le_mul_right (k + 1) hle
    rcases hst : l.star with _ | ⟨r', ms⟩ <;> simp only [Scan.size, hst, hrp, List.length_cons] <;>
      omega

/-- Back to the last `*`, when the pattern does not produce the text. -/
theorem follows_back {l' : Scan} (hno : ¬ Produces '*' (Same ic) l.rp l.sp)
    (hf : l.Fits k) (h : l.back = .inl l') : l.Follows ic k l' := by
  rcases hst : l.star with _ | ⟨r, _ | ⟨m, ms⟩⟩
  · simp [Scan.back, hst] at h
  · simp [Scan.back, hst] at h
  · simp only [Scan.back, hst, Sum.inl.injEq] at h
    subst h
    refine ⟨?_, ?_, ?_, ?_⟩
    · intro r' ms' he
      cases he
      exact ⟨[], [], rfl, rfl, by simp, rfl⟩
    · constructor
      · rintro (h | ⟨r', m', ms', t, he, ht, h⟩)
        · exact .inr ⟨r, m, ms, ms, hst, List.suffix_refl _, h⟩
        · cases he
          exact .inr ⟨r, m, _, t, hst, ht.trans (List.suffix_cons _ _), h⟩
      · rintro (h | ⟨r', m', ms', t, he, ht, h⟩)
        · exact absurd h hno
        · rw [hst] at he
          cases he
          rcases ms with _ | ⟨m2, ms⟩
          · rw [List.suffix_nil.mp ht] at h
            exact .inl h
          · rcases List.suffix_cons_iff.mp ht with rfl | ht
            · exact .inl h
            · exact .inr ⟨r, m2, ms, t, rfl, ht, h⟩
    · have hr := hf.2 r (m :: ms) hst
      refine ⟨hr, fun r' ms' he => ?_⟩
      cases he
      exact hr
    · have hr := hf.2 r (m :: ms) hst
      simp only [Scan.size, hst, List.length_cons, Nat.add_mul]
      omega

/-- Without a place to go back to nothing is left to be found. -/
theorem not_finds_back {b : Bool} (hno : ¬ Produces '*' (Same ic) l.rp l.sp)
    (h : l.back = .inr b) : b = true ↔ l.Finds ic := by
  rcases hst : l.star with _ | ⟨r, _ | ⟨m, ms⟩⟩
  · simp only [Scan.back, hst, Sum.inr.injEq] at h
    simp [← h, Scan.Finds, hno, hst]
  · simp only [Scan.back, hst, Sum.inr.injEq] at h
    simp [← h, Scan.Finds, hno, hst]
  · simp [Scan.back, hst] at h

/-- At the end of the text the rest of the pattern is stars. -/
theorem finds_end (hsp : l.sp = []) (ha : l.Aligned) :
    (l.rp.dropWhile (· = '*')).isEmpty = true ↔ l.Finds ic := by
  have hstars : (l.rp.dropWhile (· = '*')).isEmpty = true ↔
      Produces '*' (Same ic) l.rp l.sp := by
    rw [hsp, produces_empty_iff]
    simp [List.dropWhile_eq_nil_iff]
  rw [hstars]
  refine ⟨.inl, ?_⟩
  rintro (h | ⟨r, m, ms, t, he, ht, h⟩)
  · exact h
  · -- The pattern before `rp` takes the text from the mark on.
    obtain ⟨u, v, rfl, hms, hu, hv⟩ := ha _ _ he
    obtain ⟨a, s, rfl, hal, -⟩ := produces_after hu h
    have h1 := ht.length_le
    have h2 := congrArg List.length hms
    simp only [hsp, List.length_append, List.length_cons, List.length_nil] at h1 h2
    omega

/-- What the pattern and the text say at a character that the pattern does
not have. -/
theorem not_produces_char {p c : Char} {r s : Text} (hp : p ≠ '*') (hs : ¬ Same ic p c) :
    ¬ Produces '*' (Same ic) (p :: r) (c :: s) := by
  rw [produces_char_iff hp]
  rintro ⟨c', t, he, h, -⟩
  cases he
  exact hs h

/-- One turn, case by case. -/
theorem turn_follows {l' : Scan} (ha : l.Aligned) (hf : l.Fits k) (h : l.turn ic = .inl l') :
    l.Follows ic k l' := by
  rcases hsp : l.sp with _ | ⟨c, s⟩
  · simp [Scan.turn, hsp] at h
  · rcases hrp : l.rp with _ | ⟨p, r⟩
    · simp only [Scan.turn, hsp, hrp] at h
      exact follows_back (by simp [hrp, hsp, produces_nil_iff]) hf h
    · simp only [Scan.turn, hsp, hrp] at h
      split_ifs at h with hp hc
      · cases h
        subst hp
        exact follows_star hrp hsp ha hf
      · cases h
        exact follows_char hrp hsp hp (same_iff.mp hc) ha hf
      · refine follows_back ?_ hf h
        rw [hrp, hsp]
        exact not_produces_char hp (fun hs => hc (same_iff.mpr hs))

theorem turn_ends {b : Bool} (ha : l.Aligned) (h : l.turn ic = .inr b) :
    b = true ↔ l.Finds ic := by
  rcases hsp : l.sp with _ | ⟨c, s⟩
  · simp only [Scan.turn, hsp, Sum.inr.injEq] at h
    rw [← h]
    exact finds_end hsp ha
  · rcases hrp : l.rp with _ | ⟨p, r⟩
    · simp only [Scan.turn, hsp, hrp] at h
      exact not_finds_back (by simp [hrp, hsp, produces_nil_iff]) h
    · simp only [Scan.turn, hsp, hrp] at h
      split_ifs at h with hp hc
      refine not_finds_back ?_ h
      rw [hrp, hsp]
      exact not_produces_char hp (fun hs => hc (same_iff.mpr hs))

/-- The loop ends within as many turns as its size, and it returns whether
anything was left to be found. -/
theorem runs_finds (n : Nat) (ha : l.Aligned) (hf : l.Fits k) (hn : l.size k ≤ n) :
    ∃ b, l.runs ic n = some b ∧ (b = true ↔ l.Finds ic) := by
  induction n generalizing l with
  | zero => simp [Scan.size] at hn
  | succ n ih =>
    rw [Scan.runs]
    rcases ht : l.turn ic with l' | b
    · have hstep := turn_follows ha hf ht
      have hlt := hstep.size
      obtain ⟨b, hb, hiff⟩ := ih hstep.aligned hstep.fits (by omega)
      exact ⟨b, hb, hiff.trans hstep.finds⟩
    · exact ⟨b, rfl, turn_ends ha ht⟩

end

/-! ## The match -/

theorem size_le_rexpTurns (rexp str : Text) :
    (Scan.mk rexp str none).size rexp.length ≤ rexpTurns rexp str := by
  have h : (str.length + 1) * (rexp.length + 1) ≤ rexpTurns rexp str :=
    Nat.mul_le_mul_left _ (by omega)
  simp only [Scan.size]
  rw [Nat.add_mul] at h
  omega

/-- The loop of `rexpmatchX` ends, and its value says whether the pattern
produces the text. -/
theorem rexpmatchX_decides (rexp str ropts : Text) :
    Scan.runs (ropts.contains 'c') (rexpTurns rexp str) ⟨rexp, str, none⟩ =
        some (rexpmatchX rexp str ropts) ∧
      (rexpmatchX rexp str ropts = true ↔
        Produces '*' (Same (ropts.contains 'c')) rexp str) := by
  obtain ⟨b, hb, hiff⟩ : ∃ b,
      Scan.runs (ropts.contains 'c') (rexpTurns rexp str) ⟨rexp, str, none⟩ = some b ∧
        (b = true ↔ Scan.Finds (ropts.contains 'c') ⟨rexp, str, none⟩) := by
    refine runs_finds (rexpTurns rexp str) ?_ ?_ (size_le_rexpTurns rexp str)
    · exact fun _ _ he => nomatch he
    · exact ⟨le_refl _, fun _ _ he => nomatch he⟩
  have hval : rexpmatchX rexp str ropts = b := rexpLoop_of_runs _ _ hb
  rw [hval]
  refine ⟨hb, hiff.trans ?_⟩
  simp [Scan.Finds]

end delegate.hostlist
