-- The formats of MOUNT that go back (uvfmtreverse, rary/String.cpp): the tags
-- of `%S` in a source are put at the `%(k)` of a destination, and the reversed
-- formats read the destination and write the source again.
import Delegate.UvToSf

open ctext

namespace delegate.utag

/-! ## The pure model -/

/-- The format behind the flags of a directive. -/
def fmtflags (fp : Text) : Text :=
  (if fp.head? = some '-' then fp.tail else fp).dropWhile fun c => c.isDigit || c == '.'

/-- The length of the directive that a format begins with. -/
def fmtlen (fmt : Text) : Nat :=
  match fmt with
  | '%' :: rest =>
    let fp := fmtflags rest
    let before := fmt.length - fp.length
    let close (fx : Char) := before + (fp.takeWhile (· ≠ fx)).length + if fx ∈ fp then 1 else 0
    if fp.head? = some '[' then close ']'
    else if fp.head? = some '(' then close ')'
    else before + 1
  | _ => 0

theorem fmtflags_length (fp : Text) : (fmtflags fp).length ≤ fp.length := by
  have htail : (if fp.head? = some '-' then fp.tail else fp).length ≤ fp.length := by
    split
    · simp
    · exact Nat.le_refl _
  exact (List.dropWhile_suffix _).length_le.trans htail

theorem fmtlen_pos (fp : Text) : 0 < fmtlen ('%' :: fp) := by
  have hflags := fmtflags_length fp
  simp only [fmtlen, List.length_cons]
  split
  · omega
  · split <;> omega

/-- `sv` of `fmtvec`, with room for `mac` directives. -/
def fmtvec (mac : Nat) : Text → List Text → List Text
  | [], sv => sv
  | c :: fp, sv =>
    if c = '%' then
      if (c :: fp)[fmtlen (c :: fp) - 1]? = some '%' then
        match fp with
        | [] => sv
        | _ :: fp => fmtvec mac fp sv
      else if mac ≤ sv.length then sv
      else fmtvec mac fp (sv ++ [(c :: fp).take (fmtlen (c :: fp))])
    else fmtvec mac fp sv

/-- The number of a directive of a destination, and the number of `%S` so far. -/
def tagNumber (ip : Text) (ti : Nat) : Int × Nat :=
  match ip[fmtlen ip - 1]? with
  | some 'S' => (ti, ti + 1)
  | some ')' => (atoi (ip.drop 2), ti)
  | _ => (-1, ti)

/-- What a directive of the source becomes, with the destination from its directive on. A `%s` ends at
the next character. -/
def pattern (sv : Text) (ip : Text) : Text :=
  if sv.getLast? = some 's' then
    sv.dropLast ++ ['[', '^', (ip[fmtlen ip]?).getD ' ', ']']
  else sv

/-- The first loop of `uvfmtreverse`: `ov` and the text from `buf` to `op`. It gives `none` where it
writes behind `ov` or `buf`. -/
def reverseDst (sv : List Text) (ip : Text) (ti : Nat) (ov : List Nat) (op : Text) :
    Option (List Nat × Text) :=
  if 1023 ≤ op.length then if op.length ≤ 1024 then some (ov, op.take 1023) else none
  else
    match ip with
    | [] => some (ov, op)
    | ic :: ip =>
      if ic = '%' then
        let num := (tagNumber ('%' :: ip) ti).1
        let ti := (tagNumber ('%' :: ip) ti).2
        let rest := ('%' :: ip).drop (fmtlen ('%' :: ip))
        if num < sv.length then
          if 0 ≤ num then
            if 32 ≤ ov.length then none
            else reverseDst sv rest ti (ov ++ [num.toNat])
              (op ++ pattern (sv[num.toNat]?.getD []) ('%' :: ip))
          else reverseDst sv rest ti ov (op ++ ('%' :: ip).take (fmtlen ('%' :: ip)))
        else reverseDst sv rest ti ov op
      else reverseDst sv ip ti ov (op ++ [ic])
termination_by ip.length
decreasing_by
  all_goals
    have hpos := fmtlen_pos ip
    simp
    try omega

/-- The second loop: the text from `buf` to `op`. -/
def reverseSrc (ov : List Nat) (ip : Text) (ii : Nat) (op : Text) : Option Text :=
  if 1023 ≤ op.length then if op.length ≤ 1024 then some (op.take 1023) else none
  else
    match ip with
    | [] => some op
    | ic :: ip =>
      if ic = '%' then
        let flen := fmtlen ('%' :: ip)
        if ('%' :: ip)[flen - 1]? ≠ some '%' ∧ ii ∈ ov then
          let op := op ++ ['%', '('] ++ dec (ov.idxOf ii) ++ [')']
          if 1024 ≤ op.length then none
          else reverseSrc ov (('%' :: ip).drop flen) (ii + 1) op
        else reverseSrc ov (('%' :: ip).drop flen) ii (op ++ ('%' :: ip).take flen)
      else reverseSrc ov ip ii (op ++ [ic])
termination_by ip.length
decreasing_by
  all_goals
    have hpos := fmtlen_pos ip
    simp
    try omega

/-- `rsrc` and `rdst` -/
def uvfmtreverse (src dst : Text) : Option (Text × Text) :=
  let sv := fmtvec 32 src []
  (reverseDst sv dst 0 [] []).bind fun r => (reverseSrc r.1 src 0 []).map fun rsrc => (rsrc, r.2)

/-! ## The reversed formats -/

/-- Specifiers `%S`, each with the text behind it. -/
def sources (lits : List Text) : Text := lits.flatMap fun l => '%' :: 'S' :: l

/-- Specifiers `%(k)`, each with the text behind it. -/
def directives (parts : List (Nat × Text)) : Text :=
  parts.flatMap fun p => '%' :: '(' :: (dec p.1 ++ ')' :: p.2)

section
variable {k n mac ti ii : Nat} {lead l rest fmt op : Text} {sv lits : List Text} {ov : List Nat}
  {parts : List (Nat × Text)}

theorem dec_digit (h : k < 10) : dec k = [Nat.digitChar k] := by
  decide +revert

theorem digit_digitChar (h : k < 10) : digit (Nat.digitChar k) = k ∧
    (Nat.digitChar k).isDigit = true := by
  decide +revert

theorem digitChar_ne (h : k < 10) : Nat.digitChar k ≠ ')' := by
  decide +revert

theorem atoi_digit (h : k < 10) (rest : Text) : atoi (dec k ++ ')' :: rest) = k := by
  rw [atoi, strtol_dec_append k (')' :: rest) (by simp)]
  dsimp only
  rw [toInt32_of_small (by omega)]

@[simp] theorem fmtlen_S (rest : Text) : fmtlen ('%' :: 'S' :: rest) = 2 := by
  simp [fmtlen, fmtflags]

theorem fmtlen_tag (h : k < 10) (rest : Text) :
    fmtlen ('%' :: '(' :: (dec k ++ ')' :: rest)) = 4 := by
  have hne := digitChar_ne h
  simp [fmtlen, fmtflags, dec_digit h, hne]

theorem fmtvec_text (h : '%' ∉ l) : fmtvec mac (l ++ fmt) sv = fmtvec mac fmt sv := by
  induction l with
  | nil => rfl
  | cons c l ih =>
    rw [List.mem_cons, not_or] at h
    rw [← ih h.2, List.cons_append]
    cases l ++ fmt <;> simp [fmtvec, Ne.symm h.1]

theorem fmtvec_sources (h : ∀ l ∈ lits, '%' ∉ l) (hmac : sv.length + lits.length ≤ mac) :
    fmtvec mac (sources lits) sv = sv ++ List.replicate lits.length ['%', 'S'] := by
  induction lits generalizing sv with
  | nil => simp [sources, fmtvec]
  | cons l lits ih =>
    have hl : '%' ∉ 'S' :: l := by simp [h l (by simp)]
    have hrest : sources (l :: lits) = '%' :: 'S' :: (l ++ sources lits) := by simp [sources]
    rw [List.length_cons] at hmac
    rw [hrest, fmtvec, if_pos rfl, if_neg (by simp), if_neg (by omega), ← List.cons_append,
      fmtvec_text hl, ih (fun q hq => h q (by simp [hq])) (by simp; omega)]
    simp [List.replicate_succ]

theorem reverseDst_text (h : '%' ∉ l) (hlen : op.length + l.length < 1023) :
    reverseDst sv (l ++ fmt) ti ov op = reverseDst sv fmt ti ov (op ++ l) := by
  induction l generalizing op with
  | nil => simp
  | cons c l ih =>
    rw [List.mem_cons, not_or] at h
    rw [List.length_cons] at hlen
    rw [List.cons_append, reverseDst, if_neg (by omega)]
    dsimp only
    rw [if_neg (Ne.symm h.1), ih h.2 (by simp; omega)]
    simp

theorem reverseDst_directives (h : ∀ p ∈ parts, '%' ∉ p.2 ∧ p.1 < 10 ∧ p.1 < n)
    (hov : ov.length + parts.length ≤ 32)
    (hlen : op.length + (sources (parts.map Prod.snd)).length < 1023) :
    reverseDst (List.replicate n ['%', 'S']) (directives parts) ti ov op =
      some (ov ++ parts.map Prod.fst, op ++ sources (parts.map Prod.snd)) := by
  induction parts generalizing ov op with
  | nil =>
    rw [directives, List.flatMap_nil, reverseDst, if_neg (by omega)]
    simp [sources]
  | cons p parts ih =>
    obtain ⟨hp, hten, hn⟩ := h p (by simp)
    have hrest : directives (p :: parts) = '%' :: '(' :: (dec p.1 ++ ')' :: (p.2 ++ directives parts)) := by
      simp [directives]
    have hsources : sources ((p :: parts).map Prod.snd) =
        '%' :: 'S' :: p.2 ++ sources (parts.map Prod.snd) := by simp [sources]
    have hlast : ('%' :: '(' :: (dec p.1 ++ ')' :: (p.2 ++ directives parts)))[4 - 1]? = some ')' := by
      simp [dec_digit hten]
    have hnumber : tagNumber ('%' :: '(' :: (dec p.1 ++ ')' :: (p.2 ++ directives parts))) ti =
        ((p.1 : Int), ti) := by
      simp only [tagNumber, fmtlen_tag hten, hlast, List.drop_succ_cons, List.drop_zero,
        atoi_digit hten]
    have hbehind : ('%' :: '(' :: (dec p.1 ++ ')' :: (p.2 ++ directives parts))).drop 4 =
        p.2 ++ directives parts := by
      simp [dec_digit hten]
    have hpattern : pattern ((List.replicate n ['%', 'S'])[p.1]?.getD [])
        ('%' :: '(' :: (dec p.1 ++ ')' :: (p.2 ++ directives parts))) = ['%', 'S'] := by
      simp [pattern, hn]
    rw [hsources] at hlen ⊢
    simp at hlen hov
    rw [hrest, reverseDst, if_neg (by omega)]
    simp only [hnumber, fmtlen_tag hten, hbehind, Int.toNat_natCast, hpattern, List.length_replicate,
      if_true]
    rw [if_pos (by omega), if_pos (by omega), if_neg (by omega), reverseDst_text hp (by simp; omega),
      ih (fun q hq => h q (by simp [hq])) (by simp; omega) (by simp; omega)]
    simp

theorem reverseSrc_text (h : '%' ∉ l) (hlen : op.length + l.length < 1023) :
    reverseSrc ov (l ++ fmt) ii op = reverseSrc ov fmt ii (op ++ l) := by
  induction l generalizing op with
  | nil => simp
  | cons c l ih =>
    rw [List.mem_cons, not_or] at h
    rw [List.length_cons] at hlen
    rw [List.cons_append, reverseSrc, if_neg (by omega)]
    dsimp only
    rw [if_neg (Ne.symm h.1), ih h.2 (by simp; omega)]
    simp

/-- The tags of a source, with the numbers that they have in the destination. -/
def numbered (ov : List Nat) (lits : List Text) (ii : Nat) : List (Nat × Text) :=
  (lits.zipIdx ii).map fun p => (ov.idxOf p.2, p.1)

theorem reverseSrc_sources (h : ∀ l ∈ lits, '%' ∉ l)
    (hov : ∀ j, ii ≤ j → j < ii + lits.length → j ∈ ov)
    (hlen : op.length + (directives (numbered ov lits ii)).length < 1023) :
    reverseSrc ov (sources lits) ii op = some (op ++ directives (numbered ov lits ii)) := by
  induction lits generalizing ii op with
  | nil =>
    rw [sources, List.flatMap_nil, reverseSrc, if_neg (by omega)]
    simp [numbered, directives]
  | cons l lits ih =>
    have hmem : ii ∈ ov := hov ii (Nat.le_refl _) (by simp)
    have hnumbered : directives (numbered ov (l :: lits) ii) = ['%', '('] ++ dec (ov.idxOf ii) ++ [')'] ++ l ++
        directives (numbered ov lits (ii + 1)) := by
      simp [directives, numbered, List.zipIdx_cons]
    have hrest : sources (l :: lits) = '%' :: 'S' :: (l ++ sources lits) := by simp [sources]
    rw [hnumbered] at hlen ⊢
    simp at hlen
    rw [hrest, reverseSrc, if_neg (by omega)]
    simp only [if_true, fmtlen_S]
    rw [if_pos (by simp [hmem]), if_neg (by simp; omega), List.drop_succ_cons, List.drop_succ_cons,
      List.drop_zero, reverseSrc_text (h l (by simp)) (by simp; omega),
      ih (fun q hq => h q (by simp [hq])) (fun j hj hlt => hov j (by omega) (by simp; omega))
        (by simp; omega)]
    simp

/-- Both formats are reversed, if they fit the buffer. -/
theorem uvfmtreverse_plain {dlead : Text} (hlead : '%' ∉ lead) (hdlead : '%' ∉ dlead)
    (hlits : ∀ l ∈ lits, '%' ∉ l) (hparts : ∀ p ∈ parts, '%' ∉ p.2 ∧ p.1 < 10 ∧ p.1 < lits.length)
    (hsn : lits.length ≤ 32) (hon : parts.length ≤ 32)
    (hov : ∀ j, j < lits.length → j ∈ parts.map Prod.fst)
    (hdst : (dlead ++ sources (parts.map Prod.snd)).length < 1023)
    (hsrc : (lead ++ directives (numbered (parts.map Prod.fst) lits 0)).length < 1023) :
    uvfmtreverse (lead ++ sources lits) (dlead ++ directives parts) =
      some (lead ++ directives (numbered (parts.map Prod.fst) lits 0),
        dlead ++ sources (parts.map Prod.snd)) := by
  rw [List.length_append] at hdst hsrc
  have hdirectives := @reverseDst_directives lits.length 0 dlead [] parts hparts (by simpa using hon) hdst
  have hsources := @reverseSrc_sources 0 lead lits (parts.map Prod.fst) hlits
    (fun j _ hj => hov j (by omega)) hsrc
  unfold uvfmtreverse
  rw [fmtvec_text hlead, fmtvec_sources hlits (by simpa using hsn), List.nil_append]
  dsimp only
  rw [reverseDst_text hdlead (by simp; omega), List.nil_append, hdirectives]
  simp only [Option.bind_some, List.nil_append]
  rw [reverseSrc_text hlead (by simp; omega), List.nil_append, hsources]
  rfl

end

/-! ## A text is matched with specifiers -/

/-- Tags, each with the text behind it. -/
def woven (parts : List (Text × Text)) : Text := parts.flatMap fun p => p.1 ++ p.2

/-- A text before the specifiers. A blank in it would match any blanks. -/
def Lead (lead : Text) : Prop := ∀ c ∈ lead, c ≠ '%' ∧ blank c = false

/-- Texts behind specifiers, as long as `%S` looks for, of which only the last may be empty. -/
structure Separated (lits : List Text) : Prop where
  text : ∀ l ∈ lits, '%' ∉ l ∧ l.length ≤ 30
  ne : ∀ l ∈ lits.dropLast, l ≠ []

theorem Separated.tail {l : Text} {lits : List Text} (h : Separated (l :: lits)) : Separated lits := by
  refine ⟨fun q hq => h.text q (by simp [hq]), fun q hq => ?_⟩
  cases lits with
  | nil => simp at hq
  | cons l' lits =>
    apply h.ne q
    rw [List.dropLast_cons_of_ne_nil (by simp)]
    simp [hq]

theorem Separated.last {lits : List Text} (h : Separated ([] :: lits)) : lits = [] := by
  cases lits with
  | nil => rfl
  | cons l lits => exact absurd rfl (h.ne [] (by simp))

section
variable {n : Nat} {lead l fmt sp t b : Text} {lits : List Text} {tags : List UTag}

theorem match_char {c : Char} (hc : c ≠ '%' ∧ blank c = false) (hlt : tags.length < n) :
    uvfromsfX.loop n (c :: fmt) sp tags =
      if sp.head? = some c then uvfromsfX.loop n fmt sp.tail tags else ⟨tags, sp, c :: fmt⟩ := by
  rw [uvfromsfX.loop, if_neg (by omega), if_neg (by simp [hc.2]), if_pos hc.1]

theorem match_lead (h : Lead lead) (hlt : tags.length < n) :
    uvfromsfX.loop n (lead ++ fmt) (lead ++ sp) tags = uvfromsfX.loop n fmt sp tags := by
  induction lead with
  | nil => rfl
  | cons c lead ih =>
    rw [List.cons_append, match_char (h c (by simp)) hlt, if_pos (by simp), List.cons_append,
      List.tail_cons, ih fun d hd => h d (by simp [hd])]

/-- What is matched up to the end of the format begins with its lead. -/
theorem match_lead_inv (h : Lead lead) (hlt : tags.length < n)
    (hrfp : (uvfromsfX.loop n (lead ++ fmt) sp tags).rfp = []) :
    ∃ sp', sp = lead ++ sp' ∧
      uvfromsfX.loop n (lead ++ fmt) sp tags = uvfromsfX.loop n fmt sp' tags := by
  induction lead generalizing sp with
  | nil => exact ⟨sp, rfl, rfl⟩
  | cons c lead ih =>
    rw [List.cons_append, match_char (h c (by simp)) hlt] at hrfp ⊢
    by_cases hhead : sp.head? = some c
    · rw [if_pos hhead] at hrfp ⊢
      obtain ⟨sp', hsp', heq⟩ := ih (fun d hd => h d (by simp [hd])) hrfp
      cases sp with
      | nil => simp at hhead
      | cons d sp =>
        obtain rfl : d = c := by simpa using hhead
        exact ⟨sp', by simpa using hsp', heq⟩
    · rw [if_neg hhead] at hrfp
      cases hrfp

theorem estr_eq (hl : '%' ∉ l) (hlen : l.length ≤ 30) (hfmt : ∀ c ∈ fmt.head?, c = '%') :
    estr (l ++ fmt) = (l, fmt) := by
  have hmiss : ∀ c ∈ l, decide (c ≠ '%') = true := by
    intro c hc
    simp
    rintro rfl
    exact hl hc
  have htake := (@while_append _ l fmt hmiss (by simpa using hfmt)).1
  unfold estr
  dsimp only
  rw [htake, List.take_of_length_le (by omega), Nat.min_eq_right (by omega), List.drop_left]

theorem head_sources : ∀ c ∈ (sources lits).head?, c = '%' := by
  cases lits with
  | nil => simp [sources]
  | cons l lits => simp [sources]

theorem match_S (hlt : tags.length < n) : uvfromsfX.loop n ('%' :: 'S' :: fmt) sp tags =
    match directive 0 ('%' :: 'S' :: fmt) 'S' fmt sp with
    | .exit rsp rfp => ⟨tags, rsp, rfp⟩
    | .tag tag sp' fp => uvfromsfX.loop n fp sp' (tags ++ [tag]) := by
  have hflags : flags false 0 ('S' :: fmt) = (false, 0, 'S' :: fmt) := rfl
  rw [uvfromsfX.loop, if_neg (by omega), if_neg (by decide), if_neg (by simp)]
  split
  · rename_i hnil
    rw [hflags] at hnil
    cases hnil
  · rename_i supp width c fp hcons
    rw [hflags] at hcons
    cases hcons
    split
    · rename_i hexit
      rw [hexit]
    · rename_i htag
      rw [htag, if_neg (by decide)]

theorem match_found (hlt : tags.length < n) (hl : '%' ∉ l) (hlen : l.length ≤ 30) (hne : l ≠ [])
    (hfmt : ∀ c ∈ fmt.head?, c = '%') (hfound : strstr l sp = some (t, b)) :
    uvfromsfX.loop n ('%' :: 'S' :: (l ++ fmt)) sp tags =
      uvfromsfX.loop n fmt (b.drop l.length) (tags ++ [⟨sp, t.length⟩]) := by
  rw [match_S hlt]
  simp only [directive, estr_eq hl hlen hfmt, hne, if_false, hfound]

theorem match_missed (hlt : tags.length < n) (hl : '%' ∉ l) (hlen : l.length ≤ 30) (hne : l ≠ [])
    (hfmt : ∀ c ∈ fmt.head?, c = '%') (hmissed : strstr l sp = none) :
    (uvfromsfX.loop n ('%' :: 'S' :: (l ++ fmt)) sp tags).rfp ≠ [] := by
  rw [match_S hlt]
  simp [directive, estr_eq hl hlen hfmt, hne, hmissed]

theorem match_last (hlt : tags.length < n) : uvfromsfX.loop n ['%', 'S'] sp tags =
    ⟨tags ++ [⟨sp, sp.length - (sp.dropWhile fun c => !isspace c).length⟩],
      sp.dropWhile fun c => !isspace c, []⟩ := by
  rw [match_S hlt]
  simp [directive, estr, uvfromsfX.loop]

theorem loop_nil (n : Nat) (sp : Text) (tags : List UTag) :
    uvfromsfX.loop n [] sp tags = ⟨tags, sp, []⟩ := by
  rw [uvfromsfX.loop]

/-- The tags of a match up to the end, with the texts behind them, are the whole text. -/
theorem match_inv (hlits : Separated lits) (hn : tags.length + lits.length ≤ n)
    (hrsp : (uvfromsfX.loop n (sources lits) sp tags).rsp = [])
    (hrfp : (uvfromsfX.loop n (sources lits) sp tags).rfp = []) :
    ∃ ts, ts.length = lits.length ∧ (uvfromsfX.loop n (sources lits) sp tags).tags = tags ++ ts ∧
      sp = woven ((ts.map UTag.text).zip lits) := by
  induction lits generalizing sp tags with
  | nil =>
    rw [sources, List.flatMap_nil, loop_nil] at hrsp ⊢
    exact ⟨[], rfl, by simp, hrsp⟩
  | cons l lits ih =>
    have hsources : sources (l :: lits) = '%' :: 'S' :: (l ++ sources lits) := by simp [sources]
    obtain ⟨hl, hlen⟩ := hlits.text l (by simp)
    rw [List.length_cons] at hn
    rw [hsources] at hrsp hrfp ⊢
    by_cases hne : l = []
    · subst hne
      obtain rfl := hlits.last
      have hlast := @match_last n sp tags (by omega)
      rw [sources, List.flatMap_nil, List.append_nil, hlast] at hrsp ⊢
      dsimp only at hrsp
      refine ⟨[⟨sp, sp.length - (sp.dropWhile fun c => !isspace c).length⟩], rfl, rfl, ?_⟩
      have hzero : (sp.dropWhile fun c => !isspace c).length = 0 := by
        rw [hrsp]
        rfl
      simp [woven, UTag.text, hzero]
    · cases hfound : strstr l sp with
      | none => exact absurd hrfp (match_missed (by omega) hl hlen hne head_sources hfound)
      | some found =>
        obtain ⟨hsp, rest, hb⟩ := @strstr_some _ _ found.1 found.2 hfound
        have hturn := @match_found n l (sources lits) sp found.1 found.2 tags (by omega) hl hlen hne
          head_sources hfound
        rw [hturn, ← hb, List.drop_left] at hrsp hrfp ⊢
        obtain ⟨ts, hts, htags, hrest⟩ := ih hlits.tail (by simp; omega) hrsp hrfp
        refine ⟨⟨sp, found.1.length⟩ :: ts, by simp [hts], by rw [htags]; simp, ?_⟩
        have htext : UTag.text ⟨sp, found.1.length⟩ = found.1 := by
          simp [UTag.text, hsp]
        rw [List.map_cons, List.zip_cons_cons, htext, hsp, ← hb]
        simp only [woven, List.flatMap_cons] at hrest ⊢
        rw [← hrest, List.append_assoc]

/-- What is found in a text is found there with a text behind it. -/
theorem strstr_append_right {pat s a b : Text} (h : strstr pat s = some (a, b)) (r : Text) :
    strstr pat (s ++ r) = some (a, b ++ r) := by
  induction s generalizing a with
  | nil =>
    rw [strstr] at h
    split at h
    · rename_i hpat
      cases h
      cases r <;> simp [strstr, hpat]
    · cases h
  | cons c s ih =>
    rw [strstr] at h
    split at h
    · rename_i hpre
      cases h
      have hlong : pat <+: c :: (s ++ r) := hpre.trans (List.prefix_append (c :: s) r)
      rw [List.cons_append, strstr, if_pos hlong]
    · rename_i hpre
      obtain ⟨found, hfound, heq⟩ := Option.map_eq_some_iff.mp h
      cases heq
      obtain ⟨hs, hb⟩ := @strstr_some _ _ found.1 found.2 hfound
      have hlen : pat.length ≤ (c :: s).length := by
        have hle := hb.length_le
        rw [hs]
        simp
        omega
      have hmiss : ¬ pat <+: c :: (s ++ r) := fun hlong =>
        hpre (List.prefix_of_prefix_length_le hlong (List.prefix_append (c :: s) r) hlen)
      rw [List.cons_append, strstr, if_neg hmiss, ih hfound]
      rfl

/-- Where the text behind each tag is not met before, the tags are read back. -/
theorem match_woven {parts : List (Text × Text)} (hlits : Separated (parts.map Prod.snd))
    (hspace : ∀ p ∈ parts, ∀ c ∈ p.1, isspace c = false)
    (hfirst : ∀ p ∈ parts, p.2 ≠ [] → strstr p.2 (p.1 ++ p.2) = some (p.1, p.2))
    (hn : tags.length + parts.length ≤ n) :
    ∃ ts, ts.map UTag.text = parts.map Prod.fst ∧
      uvfromsfX.loop n (sources (parts.map Prod.snd)) (woven parts) tags = ⟨tags ++ ts, [], []⟩ := by
  induction parts generalizing tags with
  | nil => exact ⟨[], rfl, by simp [sources, woven, loop_nil]⟩
  | cons p parts ih =>
    have hsources : sources ((p :: parts).map Prod.snd) =
        '%' :: 'S' :: (p.2 ++ sources (parts.map Prod.snd)) := by simp [sources]
    have hwoven : woven (p :: parts) = p.1 ++ p.2 ++ woven parts := by simp [woven]
    obtain ⟨hl, hlen⟩ := hlits.text p.2 (by simp)
    rw [List.length_cons] at hn
    rw [hsources, hwoven]
    by_cases hne : p.2 = []
    · have hnone : parts = [] := by
        rw [List.map_cons, hne] at hlits
        exact List.map_eq_nil_iff.mp hlits.last
      have hdrop : p.1.dropWhile (fun c => !isspace c) = [] := by
        rw [List.dropWhile_eq_nil_iff]
        intro c hc
        simp [hspace p (by simp) c hc]
      rw [hne, hnone]
      refine ⟨[⟨p.1, p.1.length⟩], by simp [UTag.text], ?_⟩
      simp only [sources, woven, List.map_nil, List.flatMap_nil, List.append_nil]
      rw [match_last (by omega), hdrop]
      simp
    · have hfound := strstr_append_right (hfirst p (by simp) hne) (woven parts)
      obtain ⟨ts, htexts, hrest⟩ := @ih (tags ++ [⟨p.1 ++ p.2 ++ woven parts, p.1.length⟩]) hlits.tail
        (fun q hq => hspace q (by simp [hq])) (fun q hq => hfirst q (by simp [hq])) (by simp; omega)
      refine ⟨⟨p.1 ++ p.2 ++ woven parts, p.1.length⟩ :: ts, by simp [htexts, UTag.text], ?_⟩
      rw [match_found (by omega) hl hlen hne head_sources hfound, List.drop_left, hrest]
      simp

end

/-! ## A text is generated by directives -/

/-- The text of what is written. -/
def outText (out : List Piece) : Text := out.flatMap Piece.text

/-- `uvtosf` gives a text, with any number of turns that is large enough. -/
def Generates (tagv : UTagv) (siz : Nat) (fmt text : Text) : Prop :=
  ∃ enough, ∀ turns, enough ≤ turns →
    ∃ out, uvtosf turns tagv siz fmt = .ok out ∧ outText out = text

theorem Generates.unique {tagv : UTagv} {siz : Nat} {fmt text text' : Text}
    (h : Generates tagv siz fmt text) (h' : Generates tagv siz fmt text') : text = text' := by
  obtain ⟨enough, hall⟩ := h
  obtain ⟨enough', hall'⟩ := h'
  obtain ⟨out, hout, rfl⟩ := hall (max enough enough') (Nat.le_max_left _ _)
  obtain ⟨out', hout', rfl⟩ := hall' (max enough enough') (Nat.le_max_right _ _)
  rw [hout] at hout'
  cases hout'
  rfl

section
variable {tagv : UTagv} {siz ti k : Nat} {l fmt rest : Text} {out : List Piece}
  {parts : List (Nat × Text)}

theorem generates_of_sound (hpos : 0 < siz) (hsound : Sound tagv siz (items fmt) 0 []) :
    Generates tagv siz fmt (outText (emit tagv siz (items fmt) 0 [])) := by
  refine ⟨fmt.length + tagv.tx + 2, fun turns hturns => ⟨_, ?_, rfl⟩⟩
  exact (run_good turns hpos hsound (by omega)).1

theorem written_chars (l : Text) : written (l.map Piece.char) = l.length := by
  induction l with
  | nil => rfl
  | cons c l ih =>
    simp [ih]
    omega

/-- A text without specifiers is written as it is. -/
theorem generate_text (hl : '%' ∉ l) (hroom : written out + l.length < siz) :
    (Sound tagv siz (items fmt) ti (out ++ l.map Piece.char) →
      Sound tagv siz (items (l ++ fmt)) ti out) ∧
    emit tagv siz (items (l ++ fmt)) ti out =
      emit tagv siz (items fmt) ti (out ++ l.map Piece.char) := by
  induction l generalizing out with
  | nil => simp
  | cons c l ih =>
    rw [List.mem_cons, not_or] at hl
    rw [List.length_cons] at hroom
    have hnext : nextItem (c :: (l ++ fmt)) = some (.char c, l ++ fmt) := by
      simp [nextItem, Ne.symm hl.1]
    obtain ⟨hsound, hemit⟩ := @ih (out ++ [.char c]) hl.2 (by simp; omega)
    have hout : out ++ (c :: l).map Piece.char = out ++ [.char c] ++ l.map Piece.char := by simp
    rw [List.cons_append, items_some hnext, hout]
    refine ⟨fun h => .inr ⟨trivial, hsound h⟩, ?_⟩
    rw [emit, if_neg (by omega)]
    exact hemit

theorem generate_tag (hk : k < 10) (htx : k < tagv.tx) (hroom : written out + 1 < siz) :
    (Sound tagv siz (items rest) ti (out ++ [tagv.piece siz k out]) →
      Sound tagv siz (items ('%' :: '(' :: (dec k ++ ')' :: rest))) ti out) ∧
    emit tagv siz (items ('%' :: '(' :: (dec k ++ ')' :: rest))) ti out =
      emit tagv siz (items rest) ti (out ++ [tagv.piece siz k out]) := by
  have hnext : nextItem ('%' :: '(' :: (dec k ++ ')' :: rest)) = some (.range k (some k) [], rest) := by
    simp [nextItem, readRange, dec_digit hk, digit_digitChar hk, secondBound]
  have hpicks : picks tagv.tx k (some k) = [k] := by
    rw [picks, if_pos (Nat.le_refl _), (by omega : min (k + 1) tagv.tx - k = 1)]
    rfl
  have hitem : emitItem tagv siz (.range k (some k) []) ti out = (ti, out ++ [tagv.piece siz k out]) := by
    rw [emitItem, hpicks]
    simp [weave]
  rw [items_some hnext]
  constructor
  · intro h
    refine .inr ⟨⟨by simp, by simp, .inl rfl⟩, ?_⟩
    rwa [hitem]
  · rw [emit, if_neg (by omega), hitem]

/-- The tags of the directives are written, with the texts behind them. -/
theorem generate_parts (hparts : ∀ p ∈ parts, '%' ∉ p.2 ∧ p.1 < 10 ∧ p.1 < tagv.tx)
    (hroom : written out + (parts.flatMap fun p => tagv.text p.1 ++ p.2).length + 1 < siz) :
    Sound tagv siz (items (directives parts)) ti out ∧
      outText (emit tagv siz (items (directives parts)) ti out) =
        outText out ++ parts.flatMap fun p => tagv.text p.1 ++ p.2 := by
  induction parts generalizing out with
  | nil =>
    have hitems : items (directives []) = [] := items_none rfl
    rw [hitems]
    exact ⟨trivial, by simp [emit]⟩
  | cons p parts ih =>
    obtain ⟨hp, hten, htx⟩ := hparts p (by simp)
    have hrest : directives (p :: parts) = '%' :: '(' :: (dec p.1 ++ ')' :: (p.2 ++ directives parts)) := by
      simp [directives]
    simp only [List.flatMap_cons, List.length_append] at hroom
    have hpiece : tagv.piece siz p.1 out = .tag p.1 (tagv.text p.1) := by
      rw [UTagv.piece, List.take_of_length_le (by omega)]
    have hout : written (out ++ [tagv.piece siz p.1 out]) = written out + (tagv.text p.1).length := by
      simp [hpiece]
    have htag := @generate_tag tagv siz ti p.1 (p.2 ++ directives parts) out hten htx (by omega)
    have htext := @generate_text tagv siz ti p.2 (directives parts) (out ++ [tagv.piece siz p.1 out]) hp
      (by omega)
    have hwritten : written (out ++ [tagv.piece siz p.1 out] ++ p.2.map Piece.char) =
        written out + (tagv.text p.1).length + p.2.length := by
      rw [written_append, hout, written_chars]
    obtain ⟨hsound, hemit⟩ := @ih (out ++ [tagv.piece siz p.1 out] ++ p.2.map Piece.char)
      (fun q hq => hparts q (by simp [hq])) (by omega)
    rw [hrest]
    refine ⟨htag.1 (htext.1 hsound), ?_⟩
    rw [htag.2, htext.2, hemit, hpiece]
    simp [outText, List.flatMap_map]

theorem generates_parts {lead : Text} (hlead : '%' ∉ lead)
    (hparts : ∀ p ∈ parts, '%' ∉ p.2 ∧ p.1 < 10 ∧ p.1 < tagv.tx)
    (hroom : (lead ++ parts.flatMap fun p => tagv.text p.1 ++ p.2).length + 1 < siz) :
    Generates tagv siz (lead ++ directives parts)
      (lead ++ parts.flatMap fun p => tagv.text p.1 ++ p.2) := by
  rw [List.length_append] at hroom
  have htext := @generate_text tagv siz 0 lead (directives parts) [] hlead (by simp; omega)
  have hall := @generate_parts tagv siz 0 ([] ++ lead.map Piece.char) parts hparts
    (by rw [List.nil_append, written_chars]; omega)
  have hgen := generates_of_sound (by omega) (htext.1 hall.1)
  rw [htext.2, hall.2] at hgen
  simpa [outText, List.flatMap_map] using hgen

end

/-! ## The rewriting is taken back -/

/-- A source of `%S` and a destination that has each of its tags once. Each specifier has one digit,
`%S` looks for the text behind it, and both formats fit the buffer when they are reversed. -/
structure Rewriting where
  lead : Text
  lits : List Text
  dlead : Text
  parts : List (Nat × Text)
  lead_plain : Lead lead
  dlead_plain : Lead dlead
  lits_separated : Separated lits
  parts_separated : Separated (parts.map Prod.snd)
  ten : lits.length ≤ 10
  once : (parts.map Prod.fst).Perm (List.range lits.length)
  src_fits : (lead ++ sources lits).length + 2 * lits.length < 1023
  dst_fits : (dlead ++ directives parts).length < 1023

def Rewriting.src (m : Rewriting) : Text := m.lead ++ sources m.lits

def Rewriting.dst (m : Rewriting) : Text := m.dlead ++ directives m.parts

/-- What is generated from the tags of a text is matched by the reversed destination, and its tags
generate the text again. -/
def GivesBack (n siz siz' : Nat) (src dst s : Text) : Prop :=
  ∃ rsrc rdst gen, uvfmtreverse src dst = some (rsrc, rdst) ∧
    Generates ⟨(uvfromsfX n s src).tags, n - (uvfromsfX n s src).tags.length⟩ siz dst gen ∧
    Generates ⟨(uvfromsfX n gen rdst).tags, n - (uvfromsfX n gen rdst).tags.length⟩ siz' rsrc s

section
variable {m : Rewriting} {p : Nat × Text}

theorem Lead.not_mem {lead : Text} (h : Lead lead) : '%' ∉ lead := fun hmem => (h '%' hmem).1 rfl

theorem Rewriting.part (hp : p ∈ m.parts) :
    '%' ∉ p.2 ∧ p.1 < 10 ∧ p.1 < m.lits.length := by
  have hmem : p.1 ∈ List.range m.lits.length := m.once.mem_iff.mp (List.mem_map_of_mem hp)
  have hlt := List.mem_range.mp hmem
  have hten := m.ten
  exact ⟨(m.parts_separated.text p.2 (List.mem_map_of_mem hp)).1, by omega, hlt⟩

theorem Rewriting.parts_length (m : Rewriting) : m.parts.length = m.lits.length := by
  simpa using m.once.length_eq

theorem numbered_woven {ov : List Nat} {lits texts : List Text} {ii : Nat} (f : Nat → Text)
    (hlen : texts.length = lits.length)
    (hf : ∀ j (h : j < texts.length), f (ov.idxOf (ii + j)) = texts[j]) :
    ((numbered ov lits ii).flatMap fun p => f p.1 ++ p.2) = woven (texts.zip lits) := by
  induction lits generalizing texts ii with
  | nil =>
    simp [numbered, woven]
  | cons l lits ih =>
    cases texts with
    | nil => simp at hlen
    | cons t texts =>
      have hhead := hf 0 (by simp)
      have htail := @ih texts (ii + 1) (by simpa using hlen) fun j hj => by
        have h := hf (j + 1) (by simpa using hj)
        rw [List.getElem_cons_succ] at h
        rw [← h]
        congr 2
        omega
      simp only [numbered, List.zipIdx_cons, List.map_cons, List.flatMap_cons, List.zip_cons_cons,
        woven] at htail ⊢
      rw [htail]
      simpa using hhead

theorem sources_length_le {parts : List (Nat × Text)} (h : ∀ p ∈ parts, p.1 < 10) :
    (sources (parts.map Prod.snd)).length ≤ (directives parts).length := by
  induction parts with
  | nil => exact Nat.le_refl _
  | cons p parts ih =>
    have hrest := ih fun q hq => h q (by simp [hq])
    simp [sources, directives, dec_digit (h p (by simp))] at hrest ⊢
    omega

theorem numbered_length {ov : List Nat} {lits : List Text} {ii : Nat}
    (h : ∀ j, ii ≤ j → j < ii + lits.length → ov.idxOf j < 10) :
    (directives (numbered ov lits ii)).length = (sources lits).length + 2 * lits.length := by
  induction lits generalizing ii with
  | nil => rfl
  | cons l lits ih =>
    have hdigit := dec_digit (h ii (Nat.le_refl _) (by simp))
    have hrest := @ih (ii + 1) fun j hj hlt => h j (by omega) (by simp; omega)
    simp [sources, directives, numbered, List.zipIdx_cons, hdigit] at hrest ⊢
    omega

theorem Rewriting.index (m : Rewriting) {j : Nat} (hj : j < m.lits.length) :
    j ∈ m.parts.map Prod.fst ∧ (m.parts.map Prod.fst).idxOf j < m.parts.length := by
  have hmem : j ∈ m.parts.map Prod.fst := m.once.mem_iff.mpr (List.mem_range.mpr hj)
  have hlt := List.idxOf_lt_length_of_mem hmem
  rw [List.length_map] at hlt
  exact ⟨hmem, hlt⟩

theorem Rewriting.reversed (m : Rewriting) : uvfmtreverse m.src m.dst =
    some (m.lead ++ directives (numbered (m.parts.map Prod.fst) m.lits 0),
      m.dlead ++ sources (m.parts.map Prod.snd)) := by
  have hten := m.ten
  have hlen := m.parts_length
  have hdst := m.dst_fits
  have hsrc := m.src_fits
  have hsources := sources_length_le fun p hp => (m.part hp).2.1
  have hnumbered := @numbered_length (m.parts.map Prod.fst) m.lits 0 fun j _ hj => by
    have hindex := (m.index (by omega : j < m.lits.length)).2
    omega
  rw [List.length_append] at hdst hsrc
  apply uvfmtreverse_plain m.lead_plain.not_mem m.dlead_plain.not_mem
    (fun l hl => (m.lits_separated.text l hl).1) (fun p hp => m.part hp) (by omega) (by omega)
    (fun j hj => (m.index hj).1)
  · rw [List.length_append]
    omega
  · rw [List.length_append]
    omega

/-- The tags of a text that is matched completely, and the text as they are woven. -/
theorem Rewriting.matched (m : Rewriting) {n : Nat} {s : Text} {tags : List UTag}
    (hn : m.lits.length < n) (hmatch : uvfromsfX n s m.src = ⟨tags, [], []⟩) :
    tags.length = m.lits.length ∧ s = m.lead ++ woven ((tags.map UTag.text).zip m.lits) := by
  have hloop : uvfromsfX.loop n (m.lead ++ sources m.lits) s [] = ⟨tags, [], []⟩ := hmatch
  obtain ⟨sp, rfl, heq⟩ := @match_lead_inv n m.lead (sources m.lits) s [] m.lead_plain
    (by rw [List.length_nil]; omega) (by rw [hloop])
  rw [hloop] at heq
  obtain ⟨ts, hts, htags, hsp⟩ := @match_inv n sp m.lits [] m.lits_separated
    (by rw [List.length_nil]; omega) (by rw [← heq]) (by rw [← heq])
  rw [← heq, List.nil_append] at htags
  dsimp only at htags
  subst htags
  exact ⟨hts, by rw [← hsp]⟩

/-- What is generated is matched by the reversed destination. -/
theorem Rewriting.read_back (m : Rewriting) {n : Nat} {texts : Nat → Text} (hn : m.lits.length < n)
    (hspace : ∀ p ∈ m.parts, ∀ c ∈ texts p.1, isspace c = false)
    (hfirst : ∀ p ∈ m.parts, p.2 ≠ [] → strstr p.2 (texts p.1 ++ p.2) = some (texts p.1, p.2)) :
    ∃ ts, ts.map UTag.text = m.parts.map (fun p => texts p.1) ∧
      uvfromsfX n (m.dlead ++ m.parts.flatMap fun p => texts p.1 ++ p.2)
        (m.dlead ++ sources (m.parts.map Prod.snd)) = ⟨ts, [], []⟩ := by
  have hlen := m.parts_length
  have hsnd : (m.parts.map fun p => (texts p.1, p.2)).map Prod.snd = m.parts.map Prod.snd := by
    simp
  have hwoven : woven (m.parts.map fun p => (texts p.1, p.2)) =
      m.parts.flatMap fun p => texts p.1 ++ p.2 := by
    simp [woven, List.flatMap_map]
  obtain ⟨ts, hts, hmatch⟩ := @match_woven n [] (m.parts.map fun p => (texts p.1, p.2))
    (by rw [hsnd]; exact m.parts_separated)
    (fun q hq => by
      obtain ⟨p, hp, rfl⟩ := List.mem_map.mp hq
      exact hspace p hp)
    (fun q hq => by
      obtain ⟨p, hp, rfl⟩ := List.mem_map.mp hq
      exact hfirst p hp)
    (by simp; omega)
  rw [hsnd, hwoven, List.nil_append] at hmatch
  refine ⟨ts, by rw [hts, List.map_map]; rfl, ?_⟩
  rw [uvfromsfX, match_lead m.dlead_plain (by rw [List.length_nil]; omega), hmatch]

/-- The tags that are read back generate the source again. -/
theorem Rewriting.written_back (m : Rewriting) {k siz : Nat} {texts : Nat → Text}
    {all : List Text} {ts : List UTag} (hts : ts.map UTag.text = m.parts.map fun p => texts p.1)
    (hlen : all.length = m.lits.length) (hall : ∀ j (h : j < all.length), texts j = all[j])
    (hroom : (m.lead ++ woven (all.zip m.lits)).length + 1 < siz) :
    Generates ⟨ts, k⟩ siz (m.lead ++ directives (numbered (m.parts.map Prod.fst) m.lits 0))
      (m.lead ++ woven (all.zip m.lits)) := by
  have htx : ts.length = m.lits.length := by
    have h := congrArg List.length hts
    simpa [m.parts_length] using h
  have hwoven := @numbered_woven (m.parts.map Prod.fst) m.lits all 0 (UTagv.text ⟨ts, k⟩) hlen ?_
  · rw [← hwoven] at hroom ⊢
    apply generates_parts m.lead_plain.not_mem _ hroom
    intro p hp
    obtain ⟨q, hq, rfl⟩ := List.mem_map.mp hp
    have hget := List.mem_zipIdx_iff_getElem?.mp hq
    have hidx := (m.index (List.getElem?_eq_some_iff.mp hget).1).2
    have hplen := m.parts_length
    have hten := m.ten
    have hsep := m.lits_separated.text q.1 (List.mem_of_getElem? hget)
    refine ⟨hsep.1, ?_, ?_⟩
    · omega
    · dsimp only [UTagv.tx]
      omega
  · intro j hj
    obtain ⟨hmem, hidx⟩ := m.index (by omega : j < m.lits.length)
    have hfst : m.parts[(m.parts.map Prod.fst).idxOf j].1 = j := by
      have h := List.getElem_idxOf (List.idxOf_lt_length_of_mem hmem)
      rwa [List.getElem_map] at h
    have hget := congrArg (fun l => l[(m.parts.map Prod.fst).idxOf j]?) hts
    rw [List.getElem?_map, List.getElem?_map, List.getElem?_eq_getElem hidx, Option.map_some, hfst,
      hall j hj] at hget
    rw [Nat.zero_add, UTagv.text, hget]
    rfl

/-- The reversed formats give back a text that is matched completely, where no tag has a white space,
nor the text that is put behind it before its end. -/
theorem Rewriting.gives_back (m : Rewriting) {n siz siz' : Nat} {s : Text} {tags : List UTag}
    (hn : m.lits.length < n) (hmatch : uvfromsfX n s m.src = ⟨tags, [], []⟩)
    (hspace : ∀ tag ∈ tags, ∀ c ∈ tag.text, isspace c = false)
    (hfirst : ∀ p ∈ m.parts, p.2 ≠ [] → ∀ tag ∈ tags[p.1]?,
      strstr p.2 (tag.text ++ p.2) = some (tag.text, p.2))
    (hsiz : (m.dlead ++ m.parts.flatMap fun p =>
      ((tags[p.1]?.map UTag.text).getD []) ++ p.2).length + 1 < siz)
    (hsiz' : s.length + 1 < siz') : GivesBack n siz siz' m.src m.dst s := by
  obtain ⟨hlen, hs⟩ := m.matched hn hmatch
  let tagv : UTagv := ⟨tags, n - tags.length⟩
  have htext : ∀ j (h : j < tags.length), tagv.text j = tags[j].text := by
    intro j hj
    simp [tagv, UTagv.text, hj]
  have hlt : ∀ p ∈ m.parts, p.1 < tags.length := by
    intro p hp
    rw [hlen]
    exact (m.part hp).2.2
  have hgen := @generates_parts tagv siz m.parts m.dlead m.dlead_plain.not_mem
    (fun p hp => ⟨(m.part hp).1, (m.part hp).2.1, hlt p hp⟩) hsiz
  obtain ⟨ts, hts, hback⟩ := @Rewriting.read_back m n tagv.text hn
    (fun p hp => by
      rw [htext p.1 (hlt p hp)]
      exact hspace _ (List.getElem_mem _))
    (fun p hp hne => by
      rw [htext p.1 (hlt p hp)]
      exact hfirst p hp hne _ (List.getElem?_eq_getElem _))
  have hwritten := @Rewriting.written_back m (n - ts.length) siz' tagv.text (tags.map UTag.text) ts hts
    (by simpa using hlen) (fun j hj => by
      rw [htext j (by simpa using hj)]
      simp) (by rwa [← hs])
  rw [← hs] at hwritten
  refine ⟨_, _, m.dlead ++ m.parts.flatMap (fun p => tagv.text p.1 ++ p.2), m.reversed, ?_, ?_⟩
  · rw [hmatch]
    exact hgen
  · rw [hback]
    exact hwritten

end

/-- From `%S/%S` to `%(1)-%(0)`. -/
def swapped : Rewriting where
  lead := []
  lits := [['/'], []]
  dlead := []
  parts := [(1, ['-']), (0, [])]
  lead_plain := by simp [Lead]
  dlead_plain := by simp [Lead]
  lits_separated := ⟨by decide, by decide⟩
  parts_separated := ⟨by decide, by decide⟩
  ten := by decide
  once := by decide
  src_fits := by decide
  dst_fits := by decide

theorem match_two {n : Nat} {l sp t b : Text} (hn : 1 < n) (hl : '%' ∉ l) (hlen : l.length ≤ 30)
    (hne : l ≠ []) (hfound : strstr l sp = some (t, l ++ b))
    (hspace : ∀ c ∈ b, isspace c = false) :
    uvfromsfX n sp (sources [l, []]) = ⟨[⟨sp, t.length⟩, ⟨b, b.length⟩], [], []⟩ := by
  have hsources : sources [l, []] = '%' :: 'S' :: (l ++ ['%', 'S']) := by simp [sources]
  have hdrop : b.dropWhile (fun c => !isspace c) = [] := by
    rw [List.dropWhile_eq_nil_iff]
    intro c hc
    simp [hspace c hc]
  rw [uvfromsfX, hsources, match_found (by rw [List.length_nil]; omega) hl hlen hne (by simp) hfound,
    List.drop_left, match_last (by simpa using hn), hdrop]
  rfl

theorem gives_back_swapped : GivesBack 32 100 100 swapped.src swapped.dst ['a', '/', 'b'] := by
  have hmatch : uvfromsfX 32 ['a', '/', 'b'] swapped.src =
      ⟨[⟨['a', '/', 'b'], 1⟩, ⟨['b'], 1⟩], [], []⟩ :=
    @match_two 32 ['/'] ['a', '/', 'b'] ['a'] ['b'] (by decide) (by decide) (by decide) (by decide)
      (by decide) (by simp [isspace])
  exact swapped.gives_back (by decide) hmatch (by simp [UTag.text, isspace])
    (by simp [swapped, UTag.text, strstr]) (by decide) (by decide)

/-- From `%S/%S` to `%(0)aba%(1)`. -/
def overlapping : Rewriting where
  lead := []
  lits := [['/'], []]
  dlead := []
  parts := [(0, ['a', 'b', 'a']), (1, [])]
  lead_plain := by simp [Lead]
  dlead_plain := by simp [Lead]
  lits_separated := ⟨by decide, by decide⟩
  parts_separated := ⟨by decide, by decide⟩
  ten := by decide
  once := by decide
  src_fits := by decide
  dst_fits := by decide

/-- `xab/y` becomes `xababay`, in which `aba` is found behind the `x`. -/
theorem overlapping_lost :
    uvfromsfX 32 ['x', 'a', 'b', '/', 'y'] overlapping.src =
      ⟨[⟨['x', 'a', 'b', '/', 'y'], 3⟩, ⟨['y'], 1⟩], [], []⟩ ∧
    (∀ tag ∈ [UTag.mk ['x', 'a', 'b', '/', 'y'] 3, UTag.mk ['y'] 1],
      (∀ c ∈ tag.text, isspace c = false) ∧
      ∀ l ∈ overlapping.lits ++ overlapping.parts.map Prod.snd, l ≠ [] → ¬ l <:+: tag.text) ∧
    ¬ GivesBack 32 100 100 overlapping.src overlapping.dst ['x', 'a', 'b', '/', 'y'] := by
  have hmatch : uvfromsfX 32 ['x', 'a', 'b', '/', 'y'] overlapping.src =
      ⟨[⟨['x', 'a', 'b', '/', 'y'], 3⟩, ⟨['y'], 1⟩], [], []⟩ :=
    @match_two 32 ['/'] ['x', 'a', 'b', '/', 'y'] ['x', 'a', 'b'] ['y'] (by decide) (by decide)
      (by decide) (by decide) (by decide) (by simp [isspace])
  have hback : uvfromsfX 32 ['x', 'a', 'b', 'a', 'b', 'a', 'y'] (sources [['a', 'b', 'a'], []]) =
      ⟨[⟨['x', 'a', 'b', 'a', 'b', 'a', 'y'], 1⟩, ⟨['b', 'a', 'y'], 3⟩], [], []⟩ :=
    @match_two 32 ['a', 'b', 'a'] ['x', 'a', 'b', 'a', 'b', 'a', 'y'] ['x'] ['b', 'a', 'y'] (by decide)
      (by decide) (by decide) (by decide) (by decide) (by simp [isspace])
  have hinside : (∀ tag ∈ [UTag.mk ['x', 'a', 'b', '/', 'y'] 3, UTag.mk ['y'] 1],
      (∀ c ∈ tag.text, isspace c = false) ∧
      ∀ l ∈ overlapping.lits ++ overlapping.parts.map Prod.snd, l ≠ [] → ¬ l <:+: tag.text) := by
    simp [UTag.text, overlapping, isspace]
    decide
  refine ⟨hmatch, hinside, ?_⟩
  rintro ⟨rsrc, rdst, gen, hrev, hgen, hagain⟩
  rw [overlapping.reversed] at hrev
  cases hrev
  rw [hmatch] at hgen
  have hgenerated := @generates_parts ⟨[⟨['x', 'a', 'b', '/', 'y'], 3⟩, ⟨['y'], 1⟩], 30⟩ 100
    overlapping.parts [] (by decide) (by simp [overlapping, UTagv.tx]) (by decide)
  obtain rfl : gen = ['x', 'a', 'b', 'a', 'b', 'a', 'y'] := hgen.unique hgenerated
  have hrdst : overlapping.dlead ++ sources (overlapping.parts.map Prod.snd) =
      sources [['a', 'b', 'a'], []] := rfl
  rw [hrdst, hback] at hagain
  have hwritten := @generates_parts ⟨[⟨['x', 'a', 'b', 'a', 'b', 'a', 'y'], 1⟩, ⟨['b', 'a', 'y'], 3⟩], 30⟩
    100 (numbered (overlapping.parts.map Prod.fst) overlapping.lits 0) [] (by decide)
    (by simp [overlapping, UTagv.tx, numbered]) (by decide)
  have hsame : ['x', 'a', 'b', '/', 'y'] = ['x', '/', 'b', 'a', 'y'] := hagain.unique hwritten
  exact absurd hsame (by decide)

end delegate.utag
