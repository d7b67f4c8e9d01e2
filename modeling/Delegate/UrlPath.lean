-- Normalisation of the path of a URL (`urlpath_normalize`). The function reads
-- with one pointer and writes with another, in two buffers or in one.
import Delegate.CText
import Delegate.Segments

open ctext

namespace delegate.url

/-! ## Memory -/

abbrev Mem := Nat → Char

def NUL : Char := '\x00'

/-- `UREND`: the end of a URL in a text. -/
def UREND (ch : Char) : Bool := ch == '"' || ch == '>' || isspace ch || ch == NUL

def CURDIR (mem : Mem) (u : Nat) : Option Nat :=
  if mem u = '.' ∧ (mem (u + 1) = '/' ∨ UREND (mem (u + 1)) = true) then some (u + 1) else none

def UPDIR (mem : Mem) (u : Nat) : Option Nat :=
  if mem u = '.' then CURDIR mem (u + 1) else none

/-- The memory and the two pointers. -/
structure Ptrs where
  mem : Mem
  up : Nat
  xp : Nat

/-- One character goes from `up` to `xp`. Where the pointers meet, it is there already. -/
def put (s : Ptrs) : Ptrs where
  mem := if s.xp ≠ s.up then Function.update s.mem s.xp (s.mem s.up) else s.mem
  up := s.up + 1
  xp := s.xp + 1

/-- `strcpy(xp,up)` and `xp += strlen(xp)`, one character at a time from the left. -/
def copyRest : Nat → Ptrs → Option Ptrs
  | 0, _ => none
  | n + 1, s =>
    if s.mem s.up = NUL then some { s with mem := Function.update s.mem s.xp NUL }
    else copyRest n (put s)

/-- The loop to the top of the next URL element. -/
def copyElem : Nat → Ptrs → Option Ptrs
  | 0, _ => none
  | n + 1, s =>
    let uc := s.mem s.up
    if uc = '/' ∨ uc = '?' ∨ UREND uc = true then some s else copyElem n (put s)

/-- The loop back to a `/`, from `k` characters after `rurl`. -/
def backTo (mem : Mem) (rurl : Nat) : Nat → Nat
  | 0 => rurl
  | k + 1 => if mem (rurl + k) = '/' then rurl + k else backTo mem rurl k

/-- The pointer `xp` after an element for the upper directory. -/
def upDir (mem : Mem) (rurl xp : Nat) : Nat :=
  let xp := if rurl < xp then xp - 1 else xp
  let xp := backTo mem rurl (xp - rurl)
  if mem xp = '/' then xp + 1 else xp

/-- An element from its top on, after the `/` before it. The flag says that the loop goes on. -/
def element (fuel rurl : Nat) (s : Ptrs) : Option (Bool × Ptrs) :=
  let uc := s.mem s.up
  if uc = '?' ∨ UREND uc = true then
    if s.xp ≠ s.up then
      (copyRest fuel s).map fun t => (false, { t with up := s.up })
    else some (false, s)
  else
    match CURDIR s.mem s.up with
    | some np => some (true, { s with up := if s.mem np = '/' then np + 1 else np })
    | none =>
      match UPDIR s.mem s.up with
      | some np =>
        let xp := upDir s.mem rurl s.xp
        some (true, { mem := Function.update s.mem xp NUL, xp
                      up := if s.mem np = '/' then np + 1 else np })
      | none => (copyElem fuel s).map fun t => (true, t)

/-- The loop over the URL elements. -/
def elements (fuel rurl : Nat) : Nat → Ptrs → Option Ptrs
  | 0, _ => none
  | n + 1, s =>
    if s.mem s.up = NUL then some s
    else
      let s := if s.mem s.up = '/' then put s else s
      match element fuel rurl s with
      | none => none
      | some (false, s) => some s
      | some (true, s) => elements fuel rurl n s

/-- `urlpath_normalize`: the memory afterwards, and the value. No loop makes more than `fuel`
turns. -/
def urlpath_normalize (fuel : Nat) (mem : Mem) (url rurl : Nat) : Option (Mem × Bool) :=
  (elements fuel rurl fuel ⟨mem, url, rurl⟩).map fun s =>
    (if s.xp ≠ s.up then Function.update s.mem s.xp NUL else s.mem, decide (s.xp ≠ s.up))

/-- The memory spells the text from `p` on. -/
def Spells (mem : Mem) : Nat → Text → Prop
  | _, [] => True
  | p, c :: t => mem p = c ∧ Spells mem (p + 1) t

/-- The memory holds the C string `t` at `p`. -/
def Holds (mem : Mem) (p : Nat) (t : Text) : Prop := Spells mem p (t ++ [NUL]) ∧ NUL ∉ t

instance instDecidableSpells (mem : Mem) (p : Nat) : (t : Text) → Decidable (Spells mem p t)
  | [] => inferInstanceAs (Decidable True)
  | c :: t =>
    have := instDecidableSpells mem (p + 1) t
    inferInstanceAs (Decidable (mem p = c ∧ Spells mem (p + 1) t))

instance instDecidableHolds (mem : Mem) (p : Nat) (t : Text) : Decidable (Holds mem p t) :=
  inferInstanceAs (Decidable (Spells mem p (t ++ [NUL]) ∧ NUL ∉ t))

/-- The buffers of `n` characters at `url` and `rurl` are one or lie apart. -/
def Buffers (url rurl n : Nat) : Prop := rurl = url ∨ rurl + n < url ∨ url + n < rurl

/-! ## The same on texts -/

/-- A character of an element. -/
def elemChar (c : Char) : Bool := !(c == '/' || c == '?' || UREND c)

variable {c : Char} {t r : Text} {mem : Mem} {fuel u : Nat}

theorem elemChar_eq_false : elemChar c = false ↔ c = '/' ∨ c = '?' ∨ UREND c = true := by
  simp only [elemChar, Bool.not_eq_false', Bool.or_eq_true, beq_iff_eq, or_assoc]

/-- The text after an element for the current directory. -/
def curdir : Text → Option Text
  | ['.'] => some []
  | '.' :: c :: r => if c = '/' then some r else if UREND c then some (c :: r) else none
  | _ => none

/-- The text after an element for the upper directory. -/
def updir : Text → Option Text
  | '.' :: r => curdir r
  | _ => none

/-- The output without its last element, back to the `/` before it. -/
def popOut (out : Text) : Text :=
  if out.length ≤ 1 then out else out.dropLast.rdropWhile (· != '/')

theorem curdir_cons (c : Char) (r : Text) :
    curdir ('.' :: c :: r) =
      if c = '/' then some r else if UREND c then some (c :: r) else none := rfl

theorem curdir_length (h : curdir t = some r) : r.length < t.length := by
  unfold curdir at h
  split at h
  · cases h
    simp
  · split at h
    · cases h
      simp only [List.length_cons]
      omega
    · split at h
      · cases h
        simp
      · cases h
  · cases h

theorem updir_length (h : updir t = some r) : r.length < t.length := by
  unfold updir at h
  split at h
  · have := curdir_length h
    simp only [List.length_cons]
    omega
  · cases h

theorem dropWhile_length (h : elemChar c = true) (r : Text) :
    ((c :: r).dropWhile elemChar).length < (c :: r).length := by
  rw [List.dropWhile_cons_of_pos h]
  exact Nat.lt_succ_of_le (List.length_dropWhile_le _ _)

/-- What the loop makes of the output so far and the rest of the URL. -/
def normText (out : Text) : Text → Text
  | [] => out
  | c :: r =>
    if c = '/' then normText (out ++ ['/']) r
    else if he : elemChar c = true then
      match hc : curdir (c :: r) with
      | some r' =>
        have := curdir_length hc
        normText out r'
      | none =>
        match hu : updir (c :: r) with
        | some r' =>
          have := updir_length hu
          normText (popOut out) r'
        | none =>
          have := dropWhile_length he r
          normText (out ++ (c :: r).takeWhile elemChar) ((c :: r).dropWhile elemChar)
    else out ++ c :: r
termination_by rest => rest.length
decreasing_by
  · exact Nat.lt_succ_self _
  · assumption
  · assumption
  · assumption

theorem normText_nil (out : Text) : normText out [] = out := by
  rw [normText]

theorem normText_slash (out r : Text) :
    normText out ('/' :: r) = normText (out ++ ['/']) r := by
  rw [normText, if_pos rfl]

theorem normText_stop (hc : c ≠ '/') (he : elemChar c = false) (out r : Text) :
    normText out (c :: r) = out ++ c :: r := by
  rw [normText, if_neg hc, dif_neg (by simp [he])]

theorem curdir_head (h : curdir t = some r) : ∃ t', t = '.' :: t' := by
  unfold curdir at h
  split at h
  · exact ⟨_, rfl⟩
  · exact ⟨_, rfl⟩
  · cases h

theorem updir_head (h : updir t = some r) : ∃ t', t = '.' :: t' := by
  unfold updir at h
  split at h
  · exact ⟨_, rfl⟩
  · cases h

theorem normText_curdir (h : curdir t = some r) (out : Text) : normText out t = normText out r := by
  obtain ⟨t', rfl⟩ := curdir_head h
  rw [normText, if_neg (by decide), dif_pos (by decide)]
  split
  · rename_i r' h'
    rw [h] at h'
    cases h'
    rfl
  · rename_i h'
    rw [h] at h'
    cases h'

theorem normText_updir (hn : curdir t = none) (h : updir t = some r) (out : Text) :
    normText out t = normText (popOut out) r := by
  obtain ⟨t', rfl⟩ := updir_head h
  rw [normText, if_neg (by decide), dif_pos (by decide)]
  split
  · rename_i r' h'
    rw [hn] at h'
    cases h'
  · split
    · rename_i r' h'
      rw [h] at h'
      cases h'
      rfl
    · rename_i h'
      rw [h] at h'
      cases h'

/-- An element with a name is copied. Before a `/` or at the end there is nothing to copy. -/
theorem normText_elem (hc : curdir t = none) (hu : updir t = none) (out : Text) :
    normText out t = normText (out ++ t.takeWhile elemChar) (t.dropWhile elemChar) := by
  cases t with
  | nil => rw [List.takeWhile_nil, List.dropWhile_nil, List.append_nil]
  | cons c r =>
    by_cases he : elemChar c = true
    · have hslash : c ≠ '/' := by
        rintro rfl
        revert he
        decide
      conv_lhs => rw [normText, if_neg hslash, dif_pos he]
      split
      · rename_i h'
        rw [hc] at h'
        cases h'
      · split
        · rename_i h'
          rw [hu] at h'
          cases h'
        · rfl
    · rw [List.takeWhile_cons_of_neg he, List.dropWhile_cons_of_neg he, List.append_nil]

/-! ## Texts in memory -/

theorem spells_append {p : Nat} {a b : Text} :
    Spells mem p (a ++ b) ↔ Spells mem p a ∧ Spells mem (p + a.length) b := by
  induction a generalizing p with
  | nil => simp [Spells]
  | cons c a ih =>
    simp only [List.cons_append, Spells, ih, List.length_cons, and_assoc]
    rw [Nat.add_assoc, Nat.add_comm 1]

/-- A write outside of a text does not change it. -/
theorem spells_update {p q : Nat} (c : Char) (h : q < p ∨ p + t.length ≤ q) :
    Spells (Function.update mem q c) p t ↔ Spells mem p t := by
  induction t generalizing p with
  | nil => rfl
  | cons d t ih =>
    simp only [List.length_cons] at h
    have hp : p ≠ q := by omega
    simp only [Spells]
    rw [Function.update_of_ne hp, ih (by omega)]

theorem Spells.left {p : Nat} {a : Text} (h : Spells mem p t) (ha : a <+: t) : Spells mem p a := by
  obtain ⟨b, rfl⟩ := ha
  exact (spells_append.mp h).1

theorem Spells.get {p : Nat} (h : Spells mem p t) {i : Nat} (hi : i < t.length) :
    mem (p + i) = t[i] := by
  induction t generalizing p i with
  | nil => cases hi
  | cons c t ih =>
    cases i with
    | zero => exact h.1
    | succ i =>
      have := ih h.2 (Nat.lt_of_succ_lt_succ hi)
      rwa [Nat.add_assoc, Nat.add_comm 1] at this

/-- The invariant of the loops: `out` is written, `rest` is still to be read, and the output is
no longer than the part that was read. -/
structure Inv (url rurl n : Nat) (s : Ptrs) (out rest : Text) : Prop where
  wrote : Spells s.mem rurl out
  xp : s.xp = rurl + out.length
  reads : Holds s.mem s.up rest
  up : s.up + rest.length = url + n
  room : out.length + rest.length ≤ n
  clean : NUL ∉ out

section Loops
variable {url rurl n : Nat} (hb : Buffers url rurl n) {s : Ptrs} {out rest : Text}
include hb

/-- The place to write is not in the rest of the source. -/
theorem Inv.apart (h : Inv url rurl n s out rest) (hne : s.xp ≠ s.up) :
    s.xp < s.up ∨ s.up + rest.length < s.xp := by
  have hxp := h.xp
  have hup := h.up
  have hroom := h.room
  rcases hb with hb | hb | hb <;> omega

/-- One character more is written and read. -/
theorem Inv.put (h : Inv url rurl n s out (c :: rest)) :
    Inv url rurl n (put s) (out ++ [c]) rest := by
  have hc : s.mem s.up = c := h.reads.1.1
  have hrest : Spells s.mem (s.up + 1) (rest ++ [NUL]) := h.reads.1.2
  have hxp := h.xp
  have hup := h.up
  have hroom := h.room
  obtain ⟨hcn, hclean⟩ := List.ne_and_not_mem_of_not_mem_cons h.reads.2
  have hlen : (out ++ [c]).length = out.length + 1 := by simp
  have hout : NUL ∉ out ++ [c] := by
    simp [h.clean, hcn]
  simp only [List.length_cons] at hup hroom
  by_cases hne : s.xp ≠ s.up
  · have hapart := h.apart hb hne
    simp only [List.length_cons] at hapart
    refine ⟨?_, ?_, ⟨?_, hclean⟩, ?_, ?_, hout⟩
    · unfold delegate.url.put
      simp only [if_pos hne, hc]
      rw [spells_append, spells_update c (.inr hxp.ge), ← hxp]
      exact ⟨h.wrote, Function.update_self .., trivial⟩
    · unfold delegate.url.put
      simp only
      omega
    · unfold delegate.url.put
      simp only [if_pos hne]
      rw [spells_update _ (by simp only [List.length_append, List.length_singleton]; omega)]
      exact hrest
    · unfold delegate.url.put
      simp only
      omega
    · omega
  · rw [not_not] at hne
    refine ⟨?_, ?_, ⟨?_, hclean⟩, ?_, ?_, hout⟩
    · unfold delegate.url.put
      simp only [if_neg (not_not.mpr hne)]
      rw [spells_append, ← hxp, hne]
      exact ⟨h.wrote, hc, trivial⟩
    · unfold delegate.url.put
      simp only
      omega
    · unfold delegate.url.put
      simp only [if_neg (not_not.mpr hne)]
      exact hrest
    · unfold delegate.url.put
      simp only
      omega
    · omega

/-- An element is copied up to its end. -/
theorem copyElem_spec {e : Text} (he : ∀ c ∈ e, elemChar c = true)
    (hrest : ∀ c ∈ rest.head?, elemChar c = false) (hf : e.length < fuel)
    (h : Inv url rurl n s out (e ++ rest)) :
    ∃ s', copyElem fuel s = some s' ∧ Inv url rurl n s' (out ++ e) rest := by
  induction e generalizing s out fuel with
  | nil =>
    obtain ⟨fuel, rfl⟩ : ∃ k, fuel = k + 1 := ⟨fuel - 1, by simp at hf; omega⟩
    refine ⟨s, ?_, by simpa using h⟩
    have hstop : elemChar (s.mem s.up) = false := by
      have hread := h.reads.1
      cases rest with
      | nil =>
        have hnul : s.mem s.up = NUL := hread.1
        rw [hnul]
        rfl
      | cons c rest =>
        have hc : s.mem s.up = c := hread.1
        rw [hc]
        exact hrest c rfl
    rw [copyElem, if_pos (elemChar_eq_false.mp hstop)]
  | cons c e ih =>
    obtain ⟨fuel, rfl⟩ : ∃ k, fuel = k + 1 := ⟨fuel - 1, by simp at hf; omega⟩
    have hc : s.mem s.up = c := h.reads.1.1
    have hgo := he c List.mem_cons_self
    obtain ⟨s', hs', hinv⟩ := ih (fun d hd => he d (List.mem_cons_of_mem _ hd))
      (Nat.lt_of_succ_lt_succ hf) (h.put hb)
    refine ⟨s', ?_, by simpa using hinv⟩
    rw [copyElem, if_neg, hs']
    rw [hc, ← elemChar_eq_false, hgo]
    decide

/-- The rest of the source is copied with its end. -/
theorem copyRest_spec (hf : rest.length < fuel) (hne : s.xp ≠ s.up) (h : Inv url rurl n s out rest)
    :
    ∃ s', copyRest fuel s = some s' ∧ Holds s'.mem rurl (out ++ rest) ∧
      s'.xp = rurl + (out ++ rest).length := by
  induction rest generalizing s out fuel with
  | nil =>
    obtain ⟨fuel, rfl⟩ : ∃ k, fuel = k + 1 := ⟨fuel - 1, by simp at hf; omega⟩
    have hnul : s.mem s.up = NUL := h.reads.1.1
    have hxp := h.xp
    refine ⟨_, by rw [copyRest, if_pos hnul], ⟨?_, by simpa using h.clean⟩, by simpa using hxp⟩
    rw [List.append_nil, spells_append, spells_update _ (.inr hxp.ge), ← hxp]
    exact ⟨h.wrote, Function.update_self .., trivial⟩
  | cons c rest ih =>
    obtain ⟨fuel, rfl⟩ : ∃ k, fuel = k + 1 := ⟨fuel - 1, by simp at hf; omega⟩
    have hc : s.mem s.up ≠ NUL := by
      rw [h.reads.1.1]
      exact (List.ne_and_not_mem_of_not_mem_cons h.reads.2).1.symm
    have hne' : (put s).xp ≠ (put s).up := by
      unfold put
      simp only
      omega
    obtain ⟨s', hs', hinv⟩ := ih (Nat.lt_of_succ_lt_succ hf) hne' (h.put hb)
    exact ⟨s', by rw [copyRest, if_neg hc, hs'], by simpa using hinv⟩

end Loops

/-! ## Dot elements in memory -/

theorem Holds.tail (h : Holds mem u (c :: t)) : mem u = c ∧ c ≠ NUL ∧ Holds mem (u + 1) t := by
  obtain ⟨hc, ht⟩ := List.ne_and_not_mem_of_not_mem_cons h.2
  exact ⟨h.1.1, hc.symm, h.1.2, ht⟩

theorem Holds.nil (h : Holds mem u []) : mem u = NUL := h.1.1

/-- `CURDIR` in memory finds what `curdir` finds in the text. -/
theorem CURDIR_eq (h : Holds mem u t) : CURDIR mem u = (curdir t).map fun _ => u + 1 := by
  unfold CURDIR
  match t, h with
  | [], h =>
    rw [if_neg]
    · rfl
    · rw [h.nil]
      exact fun hd => absurd hd.1 (by decide)
  | c :: t, h =>
    obtain ⟨hc, -, ht⟩ := h.tail
    rw [hc]
    by_cases hdot : c = '.'
    · subst hdot
      match t, ht with
      | [], ht =>
        rw [ht.nil]
        rfl
      | d :: t, ht =>
        obtain ⟨hd, -, -⟩ := ht.tail
        rw [hd, curdir_cons]
        by_cases hslash : d = '/'
        · rw [if_pos ⟨rfl, .inl hslash⟩, if_pos hslash]
          rfl
        · by_cases hend : UREND d = true
          · rw [if_pos ⟨rfl, .inr hend⟩, if_neg hslash, if_pos hend]
            rfl
          · rw [if_neg fun h => h.2.elim hslash hend, if_neg hslash, if_neg hend]
            rfl
    · rw [if_neg fun hd => hdot hd.1]
      unfold curdir
      split <;> simp_all

theorem Holds.curdir (h : Holds mem u t) (hr : curdir t = some r) :
    Holds mem (if mem (u + 1) = '/' then u + 1 + 1 else u + 1) r ∧
      (if mem (u + 1) = '/' then u + 1 + 1 else u + 1) + r.length = u + t.length := by
  unfold delegate.url.curdir at hr
  split at hr
  · cases hr
    obtain ⟨-, -, h1⟩ := h.tail
    rw [h1.nil, if_neg (by decide)]
    exact ⟨h1, rfl⟩
  · obtain ⟨-, -, h1⟩ := h.tail
    obtain ⟨hs, -, h2⟩ := h1.tail
    rw [hs]
    split at hr
    · rename_i hslash
      cases hr
      rw [if_pos hslash]
      exact ⟨h2, by simp only [List.length_cons]; omega⟩
    · rename_i hslash
      rw [if_neg hslash]
      split at hr
      · cases hr
        exact ⟨h1, by simp only [List.length_cons]; omega⟩
      · cases hr
  · cases hr

/-- `UPDIR` in memory finds what `updir` finds in the text. -/
theorem UPDIR_eq (h : Holds mem u t) : UPDIR mem u = (updir t).map fun _ => u + 1 + 1 := by
  unfold UPDIR
  match t, h with
  | [], h =>
    rw [h.nil, if_neg (by decide)]
    rfl
  | c :: t, h =>
    obtain ⟨hc, -, ht⟩ := h.tail
    rw [hc]
    by_cases hdot : c = '.'
    · subst hdot
      rw [if_pos rfl, CURDIR_eq ht]
      rfl
    · rw [if_neg hdot]
      unfold updir
      split
      · rename_i heq
        exact absurd (List.cons.inj heq).1 hdot
      · rfl

theorem Holds.updir (h : Holds mem u t) (hr : updir t = some r) :
    Holds mem (if mem (u + 1 + 1) = '/' then u + 1 + 1 + 1 else u + 1 + 1) r ∧
      (if mem (u + 1 + 1) = '/' then u + 1 + 1 + 1 else u + 1 + 1) + r.length = u + t.length := by
  obtain ⟨t', rfl⟩ := updir_head hr
  obtain ⟨-, -, h1⟩ := h.tail
  have hcur := h1.curdir hr
  rw [List.length_cons]
  exact ⟨hcur.1, by omega⟩

theorem backTo_spec {rurl : Nat} {o : Text} (h : Spells mem rurl o) (hroot : o.head? = some '/') :
    ∃ j, backTo mem rurl o.length = rurl + j ∧ mem (rurl + j) = '/' ∧
      o.rdropWhile (· != '/') = o.take (j + 1) ∧ j < o.length := by
  induction o using List.reverseRecOn with
  | nil => cases hroot
  | append_singleton o c ih =>
    obtain ⟨ho, hc, -⟩ := spells_append.mp h
    rw [List.length_append, List.length_singleton, backTo, hc]
    by_cases hslash : c = '/'
    · rw [if_pos hslash]
      refine ⟨o.length, rfl, hc.trans hslash, ?_, by omega⟩
      rw [List.rdropWhile_concat_neg _ _ _ (by simp [hslash]), List.take_of_length_le (by simp)]
    · rw [if_neg hslash]
      have hroot' : o.head? = some '/' := by
        cases o with
        | nil =>
          rw [List.nil_append, List.head?_cons, Option.some.injEq] at hroot
          exact absurd hroot hslash
        | cons d o => exact hroot
      obtain ⟨j, hj, hm, hd, hlt⟩ := ih ho hroot'
      refine ⟨j, hj, hm, ?_, by omega⟩
      rw [List.rdropWhile_concat_pos _ _ _ (by simp [hslash]), hd,
        List.take_append_of_le_length (by omega)]

/-- The pointer goes back to the end of the output without its last element. -/
theorem upDir_spec {rurl : Nat} {out : Text} (h : Spells mem rurl out)
    (hroot : out.head? = some '/') :
    upDir mem rurl (rurl + out.length) = rurl + (popOut out).length ∧ popOut out <+: out ∧
      (popOut out).head? = some '/' := by
  unfold upDir popOut
  cases out with
  | nil => cases hroot
  | cons c o =>
    have hc : c = '/' := by simpa using hroot
    subst hc
    by_cases hlen : ('/' :: o).length ≤ 1
    · have ho : o = [] := by simpa using hlen
      subst ho
      have hm : mem rurl = '/' := h.1
      simp [backTo, hm]
    · have hdrop : ('/' :: o).dropLast.head? = some '/' := by
        cases o with
        | nil => simp at hlen
        | cons d o => rfl
      have hspell : Spells mem rurl ('/' :: o).dropLast := h.left (List.dropLast_prefix _)
      obtain ⟨j, hj, hm, hd, hlt⟩ := backTo_spec hspell hdrop
      have hpos : ('/' :: o).dropLast.length = rurl + ('/' :: o).length - 1 - rurl := by
        rw [List.length_dropLast]
        omega
      have hlt' : rurl < rurl + ('/' :: o).length := by simp
      simp only [if_neg hlen, if_pos hlt', ← hpos, hj, if_pos hm, hd]
      refine ⟨?_, (List.take_prefix _ _).trans (List.dropLast_prefix _), ?_⟩
      · rw [List.length_take]
        omega
      · rw [List.head?_take, if_neg (by omega)]
        exact hdrop

/-! ## The loop -/

/-- The memory holds the text at `rurl` once the end is written at `xp`. -/
def Final (rurl : Nat) (s : Ptrs) (t : Text) : Prop :=
  NUL ∉ t ∧ ((s.xp = s.up ∧ Holds s.mem rurl t) ∨
    (Spells s.mem rurl t ∧ s.xp = rurl + t.length ∧ (s.xp = s.up → s.mem s.xp = NUL)))

section Elements
variable {url rurl n : Nat} (hb : Buffers url rurl n) {s : Ptrs} {out rest : Text}
include hb

/-- The rest of a URL from its end on. -/
theorem element_stop (hstop : ∀ c ∈ rest.head?, c ≠ '/' ∧ elemChar c = false)
    (hf : rest.length < fuel) (h : Inv url rurl n s out rest) :
    ∃ s', element fuel rurl s = some (false, s') ∧ Final rurl s' (normText out rest) := by
  have hend : s.mem s.up = '?' ∨ UREND (s.mem s.up) = true := by
    cases rest with
    | nil =>
      rw [h.reads.nil]
      exact .inr rfl
    | cons c rest =>
      rw [h.reads.tail.1]
      exact (elemChar_eq_false.mp (hstop c rfl).2).resolve_left (hstop c rfl).1
  have hnorm : normText out rest = out ++ rest := by
    cases rest with
    | nil => rw [normText_nil, List.append_nil]
    | cons c rest => exact normText_stop (hstop c rfl).1 (hstop c rfl).2 out rest
  have hclean : NUL ∉ out ++ rest := by
    rw [List.mem_append, not_or]
    exact ⟨h.clean, h.reads.2⟩
  unfold element
  rw [hnorm]
  simp only [if_pos hend]
  by_cases hne : s.xp ≠ s.up
  · obtain ⟨s', hs', hholds, hxp⟩ := copyRest_spec hb hf hne h
    obtain ⟨hspell, hnul⟩ := spells_append.mp hholds.1
    rw [if_pos hne, hs']
    refine ⟨_, rfl, hclean, .inr ⟨hspell, hxp, fun _ => ?_⟩⟩
    simp only
    rw [hxp]
    exact hnul.1
  · rw [if_neg hne]
    rw [not_not] at hne
    refine ⟨s, rfl, hclean, .inl ⟨hne, ?_, hclean⟩⟩
    rw [List.append_assoc, spells_append, ← h.xp, hne]
    exact ⟨h.wrote, h.reads.1⟩

/-- An element for the upper directory takes the last element of the output away. -/
theorem Inv.updir (hroot : out.head? = some '/') (hr : updir rest = some r)
    (h : Inv url rurl n s out rest) :
    Inv url rurl n
      { mem := Function.update s.mem (upDir s.mem rurl s.xp) NUL
        xp := upDir s.mem rurl s.xp
        up := if s.mem (s.up + 1 + 1) = '/' then s.up + 1 + 1 + 1 else s.up + 1 + 1 }
      (popOut out) r := by
  obtain ⟨hxp, hpre, -⟩ := upDir_spec h.wrote hroot
  obtain ⟨hholds, hpos⟩ := h.reads.updir hr
  have hlen := hpre.length_le
  have hrlen := updir_length hr
  have hup := h.up
  have hroom := h.room
  have hadv : s.up + 1 < if s.mem (s.up + 1 + 1) = '/' then s.up + 1 + 1 + 1 else s.up + 1 + 1 := by
    split <;> omega
  rw [← h.xp] at hxp
  rw [hxp]
  refine ⟨?_, rfl, ⟨?_, hholds.2⟩, ?_, ?_, fun hm => h.clean (hpre.subset hm)⟩
  · simp only
    rw [spells_update _ (.inr le_rfl)]
    exact h.wrote.left hpre
  · simp only
    rw [spells_update _ _]
    · exact hholds.1
    · rw [List.length_append, List.length_singleton]
      rcases hb with hb | hb | hb <;> omega
  · simp only
    omega
  · omega

/-- An element that the loop goes on after. -/
theorem element_next (hroot : out.head? = some '/') (hgo : c = '/' ∨ elemChar c = true)
    (hf : (c :: rest).length < fuel) (h : Inv url rurl n s out (c :: rest)) :
    ∃ s' out' rest', element fuel rurl s = some (true, s') ∧ Inv url rurl n s' out' rest' ∧
      out'.head? = some '/' ∧ normText out (c :: rest) = normText out' rest' ∧
      rest'.length ≤ (c :: rest).length ∧ (c ≠ '/' → rest'.length < (c :: rest).length) := by
  have hc : s.mem s.up = c := h.reads.1.1
  have hend : ¬(c = '?' ∨ UREND c = true) := by
    rcases hgo with rfl | hgo
    · decide
    · intro hstop
      rw [elemChar_eq_false.mpr (.inr hstop)] at hgo
      cases hgo
  have hup := h.up
  have hroom := h.room
  unfold element
  rw [hc]
  simp only [if_neg hend, CURDIR_eq h.reads, UPDIR_eq h.reads]
  cases hcur : curdir (c :: rest) with
  | some r =>
    obtain ⟨hholds, hpos⟩ := h.reads.curdir hcur
    have hlen := curdir_length hcur
    refine ⟨_, out, r, rfl, ⟨h.wrote, h.xp, hholds, ?_, ?_, h.clean⟩, hroot,
      normText_curdir hcur out, hlen.le, fun _ => hlen⟩
    · simp only
      omega
    · omega
  | none =>
    cases hupd : updir (c :: rest) with
    | some r =>
      have hlen := updir_length hupd
      exact ⟨_, popOut out, r, rfl, h.updir hb hroot hupd, (upDir_spec h.wrote hroot).2.2,
        normText_updir hcur hupd out, hlen.le, fun _ => hlen⟩
    | none =>
      have hsplit : (c :: rest).takeWhile elemChar ++ (c :: rest).dropWhile elemChar = c :: rest :=
        List.takeWhile_append_dropWhile
      have hhead : ∀ d ∈ ((c :: rest).dropWhile elemChar).head?, elemChar d = false := by
        intro d hd
        have hnot := List.head?_dropWhile_not elemChar (c :: rest)
        rw [Option.mem_def] at hd
        rw [hd] at hnot
        simpa using hnot
      have htake : ((c :: rest).takeWhile elemChar).length < fuel :=
        lt_of_le_of_lt (List.takeWhile_prefix _).length_le hf
      rw [← hsplit] at h
      obtain ⟨s', hs', hinv⟩ := copyElem_spec hb (fun d hd => List.mem_takeWhile_imp hd) hhead
        htake h
      refine ⟨s', _, _, by simp only [Option.map_none, hs', Option.map_some], hinv, ?_,
        normText_elem hcur hupd out, List.length_dropWhile_le _ _, ?_⟩
      · rw [List.head?_append, hroot]
        rfl
      · intro hslash
        exact dropWhile_length (hgo.resolve_left hslash) rest

/-- One element: the loop ends with the output, or goes on with less to read. -/
theorem element_spec (hroot : out.head? = some '/') (hf : rest.length < fuel)
    (h : Inv url rurl n s out rest) :
    (∃ s', element fuel rurl s = some (false, s') ∧ Final rurl s' (normText out rest)) ∨
      ∃ s' out' rest', element fuel rurl s = some (true, s') ∧ Inv url rurl n s' out' rest' ∧
        out'.head? = some '/' ∧ normText out rest = normText out' rest' ∧
        rest'.length ≤ rest.length ∧ (rest.head? ≠ some '/' → rest'.length < rest.length) := by
  by_cases hstop : ∀ c ∈ rest.head?, c ≠ '/' ∧ elemChar c = false
  · exact .inl (element_stop hb hstop hf h)
  · cases rest with
    | nil => simp at hstop
    | cons c rest =>
      have hgo : c = '/' ∨ elemChar c = true := by
        simpa [Option.mem_def, imp_iff_not_or, or_comm] using hstop
      obtain ⟨s', out', rest', hs', hinv, hr, hn, hle, hlt⟩ := element_next hb hroot hgo hf h
      exact .inr ⟨s', out', rest', hs', hinv, hr, hn, hle, fun hc => hlt fun h => hc (h ▸ rfl)⟩

/-- The loop ends, with the output of the loop on texts. -/
theorem elements_spec {k : Nat} (hk : rest.length < k) (hf : rest.length < fuel)
    (hroot : out.head? = some '/' ∨ (out = [] ∧ rest.head? = some '/'))
    (h : Inv url rurl n s out rest) :
    ∃ s', elements fuel rurl k s = some s' ∧ Final rurl s' (normText out rest) := by
  induction k generalizing s out rest with
  | zero => cases hk
  | succ k ih =>
    cases rest with
    | nil =>
      have hnul : s.mem s.up = NUL := h.reads.nil
      refine ⟨s, by rw [elements, if_pos hnul], ?_⟩
      rw [normText_nil]
      exact ⟨h.clean, .inr ⟨h.wrote, h.xp, fun heq => heq ▸ hnul⟩⟩
    | cons c rest =>
      obtain ⟨hc, hnul, -⟩ := h.reads.tail
      simp only [List.length_cons] at hk hf
      rw [elements, hc, if_neg hnul]
      by_cases hslash : c = '/'
      · -- the `/` is copied, and then the element after it
        subst hslash
        have hroot' : (out ++ ['/']).head? = some '/' := by
          rcases hroot with hroot | ⟨rfl, -⟩
          · rw [List.head?_append, hroot]
            rfl
          · rfl
        rw [normText_slash]
        simp only [if_true]
        rcases element_spec hb hroot' (Nat.lt_of_succ_lt hf) (h.put hb) with
          ⟨s', hs', hfin⟩ | ⟨s', out', rest', hs', hinv, hr, hn, hle, -⟩
        · exact ⟨s', by rw [hs'], hfin⟩
        · rw [hs', hn]
          exact ih (by omega) (by omega) (.inl hr) hinv
      · have hroot' : out.head? = some '/' := by
          rcases hroot with hroot | ⟨-, hroot⟩
          · exact hroot
          · exact absurd (Option.some.inj hroot) hslash
        simp only [if_neg hslash]
        rcases element_spec hb hroot' hf h with
          ⟨s', hs', hfin⟩ | ⟨s', out', rest', hs', hinv, hr, hn, -, hlt⟩
        · exact ⟨s', by rw [hs'], hfin⟩
        · have := hlt fun h => hslash (Option.some.inj h)
          simp only [List.length_cons] at this
          rw [hs', hn]
          exact ih (by omega) (by omega) (.inl hr) hinv

/-- `urlpath_normalize` ends, and leaves at `rurl` what the loop on texts makes of the URL. -/
theorem urlpath_normalize_spec (ht : t.length = n) (hmem : Holds mem url t)
    (hroot : t.head? = some '/') (hf : n < fuel) :
    ∃ mem' changed, urlpath_normalize fuel mem url rurl = some (mem', changed) ∧
      Holds mem' rurl (normText [] t) := by
  have h : Inv url rurl n ⟨mem, url, rurl⟩ [] t :=
    ⟨trivial, rfl, hmem, by simp [ht], by simp [ht], List.not_mem_nil⟩
  obtain ⟨s, hs, hclean, hfin⟩ := elements_spec hb (ht ▸ hf) (ht ▸ hf) (.inr ⟨rfl, hroot⟩) h
  unfold urlpath_normalize
  rw [hs]
  refine ⟨_, _, rfl, ?_⟩
  by_cases hne : s.xp ≠ s.up
  · rw [if_pos hne]
    obtain ⟨hspell, hxp, -⟩ := hfin.resolve_left fun hl => hne hl.1
    refine ⟨?_, hclean⟩
    rw [spells_append, spells_update _ (.inr hxp.ge), ← hxp]
    exact ⟨hspell, Function.update_self .., trivial⟩
  · rw [if_neg hne]
    rw [not_not] at hne
    rcases hfin with ⟨-, hholds⟩ | ⟨hspell, hxp, hnul⟩
    · exact hholds
    · refine ⟨?_, hclean⟩
      rw [spells_append, ← hxp]
      exact ⟨hspell, hnul hne, trivial⟩

end Elements

end delegate.url
