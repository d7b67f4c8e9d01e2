-- Texts that are matched with a format into tags: `uvfromsfX` with no size of
-- the text given, `utoi` and `utosX` (rary/String.cpp).
import Delegate.CText

open ctext

namespace delegate.utag

/-! ## Tags -/

/-- A tag that is filled: the text from its address on, and its length. -/
structure UTag where
  ut_addr : Text
  ut_leng : Nat
  deriving DecidableEq

/-- The text of the tag itself. -/
def UTag.text (tag : UTag) : Text := tag.ut_addr.take tag.ut_leng

/-- `utoi`, which does not look at the length of the tag. -/
def utoi (tag : Option UTag) : Int :=
  match tag with
  | none => 0
  | some tag => atoi tag.ut_addr

/-- `Utos(tag,str)`, with a text of `siz` bytes. -/
def Utos (tag : Option UTag) (siz : Nat) : Text :=
  match tag with
  | none => []
  | some tag => tag.ut_addr.take (min (siz - 1) tag.ut_leng)

/-! ## Formats -/

def blank (c : Char) : Bool := c == ' ' || c == '\t'

/-- The flags of a directive: is the tag suppressed, the width, and the format from the directive
on. -/
def flags (supp : Bool) (width : Nat) : Text → Bool × Nat × Text
  | fc :: fp =>
    if fc = '*' then flags true width fp
    else if '1' ≤ fc ∧ fc < '9' then flags supp (width * 10 + (fc.toNat - '0'.toNat)) fp
    else (supp, width, fc :: fp)
  | [] => (supp, width, [])

/-- The text after `%S` up to the next directive, of 31 bytes at most, and the format after it. The
loop is left at the 31st byte, which stays in the format. -/
def estr (fp : Text) : Text × Text :=
  let e := (fp.takeWhile (· ≠ '%')).take 31
  (e, fp.drop (min 30 e.length))

/-- Does the set of `%[...]` have the character? -/
def isin (sc : Char) : Text → Bool
  | [] => false
  | s1 :: '-' :: [] => s1 == sc
  | s1 :: '-' :: s3 :: set =>
    s1 == sc || (decide (s1 ≤ sc) && decide (sc ≤ s3)) || isin sc set
  | s1 :: set => s1 == sc || isin sc set

/-- What a directive leaves where it does not match: the text and the format. -/
inductive Matched
  | tag (tag : UTag) (sp fp : Text)
  | exit (sp fp : Text)

/-- One directive `c`, with the format `fp` after it. Where it does not match, the text `osp` and the
format `ofp` before the directive are left by `%S`. -/
def directive (width : Nat) (ofp : Text) (c : Char) (fp osp : Text) : Matched :=
  match c with
  | 'd' =>
    let st := osp.dropWhile isspace
    let sp := (sign st).2
    if sp.head?.any Char.isDigit then
      let rest := sp.dropWhile Char.isDigit
      .tag ⟨st, st.length - rest.length⟩ rest fp
    else .exit sp (c :: fp)
  | 'c' =>
    let n := min (if width = 0 then 1 else width) osp.length
    .tag ⟨osp, n⟩ (osp.drop n) fp
  | 'S' =>
    let e := (estr fp).1
    if e = [] then
      let sp := osp.dropWhile fun c => !isspace c
      .tag ⟨osp, osp.length - sp.length⟩ sp (estr fp).2
    else
      match strstr e osp with
      | none => .exit osp ofp
      | some (s, sp) => .tag ⟨osp, s.length⟩ (sp.drop e.length) (estr fp).2
  | 's' =>
    let st := osp.dropWhile isspace
    if st = [] then .exit [] (c :: fp)
    else
      let sp := st.dropWhile fun c => !isspace c
      .tag ⟨st, st.length - sp.length⟩ sp fp
  | '[' =>
    let neg := fp.head? == some '^'
    let fp := if neg then fp.tail else fp
    let set := fp.takeWhile (· ≠ ']')
    let run := osp.takeWhile fun sc => isin sc set != neg
    let n := if width = 0 then run.length else min width run.length
    .tag ⟨osp, n⟩ (osp.drop n) (fp.drop (set.length + 1))
  | _ => .exit osp (c :: fp)

/-- What is left of the format is no longer. -/
theorem directive_fp {width : Nat} {ofp fp osp sp fp' : Text} {c : Char} {tag : UTag}
    (h : directive width ofp c fp osp = .tag tag sp fp') : fp'.length ≤ fp.length := by
  unfold directive at h
  split at h
  · dsimp only at h
    split at h <;> cases h
    exact Nat.le_refl _
  · cases h
    exact Nat.le_refl _
  · dsimp only [estr] at h
    split at h
    · cases h
      simp
    · split at h <;> cases h
      simp
  · dsimp only at h
    split at h <;> cases h
    exact Nat.le_refl _
  · cases h
    split
    · rw [List.length_drop, List.length_tail]
      omega
    · simp
  · cases h

theorem flags_fp (supp : Bool) (width : Nat) (fp : Text) :
    (flags supp width fp).2.2.length ≤ fp.length := by
  induction fp generalizing supp width with
  | nil => exact Nat.le_refl _
  | cons fc fp ih =>
    rw [flags]
    split
    · exact Nat.le_succ_of_le (ih _ _)
    · split
      · exact Nat.le_succ_of_le (ih _ _)
      · exact Nat.le_refl _

/-- What is left by the matcher: the tags that were filled, the text and the format. -/
structure Result where
  tags : List UTag
  rsp : Text
  rfp : Text

/-- The loop over the format, with room for `n` tags. -/
def uvfromsfX.loop (n : Nat) (fmt sp : Text) (tags : List UTag) : Result :=
  match fmt with
  | [] => ⟨tags, sp, []⟩
  | fc :: fp =>
    if tags.length = n then ⟨tags, sp, fc :: fp⟩
    else if blank fc then loop n (fp.dropWhile blank) (sp.dropWhile blank) tags
    else if fc ≠ '%' then
      if sp.head? = some fc then loop n fp sp.tail tags else ⟨tags, sp, fc :: fp⟩
    else
      match _hf : flags false 0 fp with
      | (_, _, []) => ⟨tags, sp, []⟩
      | (supp, width, c :: fp') =>
        match _hd : directive width (fc :: fp) c fp' sp with
        | .exit rsp rfp => ⟨tags, rsp, rfp⟩
        | .tag tag sp' fp'' => loop n fp'' sp' (if supp then tags else tags ++ [tag])
termination_by fmt.length
decreasing_by
  · exact Nat.lt_succ_of_le (List.length_dropWhile_le _ _)
  · exact Nat.lt_succ_self _
  · have hle := directive_fp _hd
    have hflags := flags_fp false 0 fp
    rw [_hf] at hflags
    simp only [List.length_cons] at hflags ⊢
    omega

/-- `uvfromsfX` with the text up to its end, and `n` tags of `uvinit`. -/
def uvfromsfX (n : Nat) (str fmt : Text) : Result := uvfromsfX.loop n fmt str []

theorem uvfromsfX.loop_prefix (n : Nat) (fmt sp : Text) (tags : List UTag) :
    tags <+: (uvfromsfX.loop n fmt sp tags).tags := by
  fun_induction uvfromsfX.loop n fmt sp tags
  case case8 supp _ _ _ _ _ _ _ _ ih =>
    refine List.IsPrefix.trans ?_ ih
    split
    · exact List.prefix_rfl
    · exact List.prefix_append _ _
  all_goals first | exact List.prefix_rfl | assumption

/-- `atoi` skips the blanks that `%d` skips. -/
theorem atoi_dropWhile (s : Text) : atoi (s.dropWhile isspace) = atoi s := by
  have hidem : (s.dropWhile isspace).dropWhile isspace = s.dropWhile isspace := by
    have h := head_dropWhile isspace s
    cases hs : s.dropWhile isspace with
    | nil => rfl
    | cons c r =>
      rw [hs] at h
      rw [List.dropWhile_cons, if_neg (by simpa using h c rfl)]
  unfold atoi strtol
  rw [hidem]

/-- Where no digit follows, there is no number. -/
theorem atoi_of_no_digit {s : Text}
    (h : ¬((sign (s.dropWhile isspace)).2.head?.any Char.isDigit = true)) : atoi s = 0 := by
  have hnone : (sign (s.dropWhile isspace)).2.takeWhile Char.isDigit = [] := by
    cases hs : (sign (s.dropWhile isspace)).2 with
    | nil => rfl
    | cons c r =>
      rw [hs] at h
      rw [List.takeWhile_cons, if_neg (by simpa using h)]
  unfold atoi strtol
  dsimp only
  rw [hnone, if_pos rfl]

/-- The number of a first `%d` is that of `atoi`. -/
theorem utoi_first (s : Text) (n : Nat) (fmt : Text) :
    utoi (uvfromsfX (n + 1) s ('%' :: 'd' :: fmt)).tags[0]? = atoi s := by
  have hflags : flags false 0 ('d' :: fmt) = (false, 0, 'd' :: fmt) := rfl
  have hdir : directive 0 ('%' :: 'd' :: fmt) 'd' fmt s =
      if (sign (s.dropWhile isspace)).2.head?.any Char.isDigit then
        .tag ⟨s.dropWhile isspace, (s.dropWhile isspace).length -
          ((sign (s.dropWhile isspace)).2.dropWhile Char.isDigit).length⟩
          ((sign (s.dropWhile isspace)).2.dropWhile Char.isDigit) fmt
      else .exit (sign (s.dropWhile isspace)).2 ('d' :: fmt) := rfl
  unfold uvfromsfX
  rw [uvfromsfX.loop, if_neg (by simp), if_neg (by decide), if_neg (by simp)]
  split
  · rename_i hnil
    rw [hflags] at hnil
    cases hnil
  · rename_i supp width c fp' hcons
    rw [hflags] at hcons
    cases hcons
    split
    · rename_i hexit
      rw [hdir] at hexit
      split at hexit
      · cases hexit
      · rename_i hd
        exact (atoi_of_no_digit hd).symm
    · rename_i tag sp fp htag
      rw [hdir] at htag
      split at htag
      · cases htag
        rw [if_neg (by decide), List.nil_append]
        obtain ⟨t, ht⟩ := uvfromsfX.loop_prefix (n + 1) fmt
          ((sign (s.dropWhile isspace)).2.dropWhile Char.isDigit) [_]
        rw [← ht]
        exact atoi_dropWhile s
      · cases htag

end delegate.utag
