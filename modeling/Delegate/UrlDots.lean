-- The law of `urlpath_normalize`. It resolves the dot segments up to the query,
-- or up to a character that ends a URL in a text, and it does not see a dot
-- segment right before a query.
import Delegate.UrlPath

open ctext segs

namespace delegate.url

/-! ## Dot segments -/

/-- A segment for the current or the upper directory. -/
def Dot (d : Text) : Prop := isDot ['.'] ['.', '.'] d

instance instDecidableDot (d : Text) : Decidable (Dot d) :=
  inferInstanceAs (Decidable (isDot ['.'] ['.', '.'] d))

/-- A segment on the stack of the segments before it. -/
abbrev pushSeg : List Text → Text → List Text := push ['.'] ['.', '.']

/-- The text of a stack. -/
def render (st : List Text) : Text := '/' :: flat '/' st

/-- A part of a URL that stops the loop, or its end. -/
def Stop (z : Text) : Prop := ∀ c ∈ z.head?, elemChar c = false

theorem curdir_append {d z : Text} (hd : ∀ c ∈ d, elemChar c = true) (hz : Stop z)
    (hdot : d ≠ ['.']) : curdir (d ++ z) = none := by
  match d with
  | [] =>
    cases z with
    | nil => rfl
    | cons c z =>
      have hc : c ≠ '.' := by
        rintro rfl
        have := hz '.' rfl
        revert this
        decide
      unfold curdir
      split <;> simp_all
  | [c] =>
    have hc : c ≠ '.' := fun h => hdot (h ▸ rfl)
    unfold curdir
    split <;> simp_all
  | c :: c' :: d =>
    by_cases hc : c = '.'
    · subst hc
      have hc' := hd c' (by simp)
      have hno : ¬(c' = '/' ∨ c' = '?' ∨ UREND c' = true) := by
        rw [← elemChar_eq_false, hc']
        decide
      rw [List.cons_append, List.cons_append, curdir_cons, if_neg fun h => hno (.inl h),
        if_neg fun h => hno (.inr (.inr h))]
    · unfold curdir
      split <;> simp_all

theorem updir_append {d z : Text} (hd : ∀ c ∈ d, elemChar c = true) (hz : Stop z)
    (hdot : d ≠ ['.', '.']) : updir (d ++ z) = none := by
  cases d with
  | nil =>
    cases z with
    | nil => rfl
    | cons c z =>
      have hc : c ≠ '.' := by
        rintro rfl
        have := hz '.' rfl
        revert this
        decide
      unfold updir
      split <;> simp_all
  | cons c d =>
    by_cases hc : c = '.'
    · subst hc
      apply curdir_append (fun e he => hd e (List.mem_cons_of_mem _ he)) hz
      rintro rfl
      exact hdot rfl
    · unfold updir
      split <;> simp_all

/-- A segment that is not seen as a dot segment is copied. -/
theorem normText_copy {d z : Text} (hd : ∀ c ∈ d, elemChar c = true) (hz : Stop z)
    (hcur : curdir (d ++ z) = none) (hup : updir (d ++ z) = none) (out : Text) :
    normText out (d ++ z) = normText (out ++ d) z := by
  obtain ⟨htake, hdrop⟩ := while_append hd hz
  rw [normText_elem hcur hup, htake, hdrop]

theorem normText_seg {d z : Text} (hd : ∀ c ∈ d, elemChar c = true) (hz : Stop z)
    (hdot : ¬Dot d) (out : Text) : normText out (d ++ z) = normText (out ++ d) z :=
  normText_copy hd hz (curdir_append hd hz fun h => hdot (.inl h))
    (updir_append hd hz fun h => hdot (.inr h)) out

/-- The loop back in the output takes the top of the stack away. -/
theorem popOut_render {st : List Text} (h : ∀ d ∈ st, '/' ∉ d) :
    popOut (render st) = render st.dropLast := by
  unfold popOut render
  rcases List.eq_nil_or_concat st with rfl | ⟨st', d, rfl⟩
  · rfl
  · have hd : '/' ∉ d := h d (by simp)
    obtain ⟨w, hw⟩ : ∃ w, '/' :: flat '/' st' = w ++ ['/'] := by
      rcases List.eq_nil_or_concat st' with rfl | ⟨st'', e, rfl⟩
      · exact ⟨[], rfl⟩
      · exact ⟨'/' :: (flat '/' st'' ++ e), by simp⟩
    have hlong : ¬('/' :: flat '/' (st' ++ [d])).length ≤ 1 := by simp
    have hcut : ('/' :: flat '/' (st' ++ [d])).dropLast = ('/' :: flat '/' st') ++ d := by
      have : '/' :: flat '/' (st' ++ [d]) = (('/' :: flat '/' st') ++ d) ++ ['/'] := by simp
      rw [this, List.dropLast_concat]
    have hback : ∀ e : Text, '/' ∉ e →
        ((w ++ ['/']) ++ e).rdropWhile (· != '/') = w ++ ['/'] := by
      intro e he
      induction e using List.reverseRecOn with
      | nil =>
        rw [List.append_nil, List.rdropWhile_concat_neg _ _ _ (by decide)]
      | append_singleton e c ih =>
        have hc : c ≠ '/' := by
          rintro rfl
          exact he (by simp)
        rw [← List.append_assoc, List.rdropWhile_concat_pos _ _ _ (by simp [hc])]
        exact ih fun h => he (List.mem_append_left _ h)
    rw [List.concat_eq_append, if_neg hlong, hcut, List.dropLast_concat, hw]
    exact hback d hd

/-! ## The loop on segments -/

/-- A segment with a `/` after it. -/
theorem normText_dir {st : List Text} (hst : ∀ d ∈ st, '/' ∉ d) {d : Text}
    (hd : ∀ c ∈ d, elemChar c = true) (z : Text) :
    normText (render st) (d ++ '/' :: z) = normText (render (pushSeg st d)) z := by
  have hz : Stop ('/' :: z) := by
    intro c hc
    cases hc
    rfl
  by_cases hcur : d = ['.']
  · subst hcur
    exact normText_curdir rfl _
  by_cases hup : d = ['.', '.']
  · subst hup
    have hpop : pushSeg st ['.', '.'] = st.dropLast := rfl
    rw [normText_updir rfl rfl, popOut_render hst, hpop]
  · have hdot : ¬Dot d := fun h => h.elim hcur hup
    have hpush : pushSeg st d = st ++ [d] := push_of_not_dot hdot st
    rw [normText_seg hd hz hdot, normText_slash, hpush]
    unfold render
    simp

theorem mem_pushSeg_slash {st : List Text} (hst : ∀ d ∈ st, '/' ∉ d) {d : Text} (hd : '/' ∉ d) :
    ∀ e ∈ pushSeg st d, '/' ∉ e := by
  intro e he
  rcases mem_push he with he | ⟨rfl, -⟩
  · exact hst e he
  · exact hd

theorem slash_not_mem {d : Text} (hd : ∀ c ∈ d, elemChar c = true) : '/' ∉ d := by
  intro h
  have := hd '/' h
  revert this
  decide

/-- The segments with a `/` after them go on the stack. -/
theorem normText_dirs {ds : List Text} (hds : ∀ d ∈ ds, ∀ c ∈ d, elemChar c = true)
    {st : List Text} (hst : ∀ d ∈ st, '/' ∉ d) (z : Text) :
    normText (render st) (flat '/' ds ++ z) = normText (render (ds.foldl pushSeg st)) z := by
  induction ds generalizing st with
  | nil => rfl
  | cons d ds ih =>
    have hd := hds d List.mem_cons_self
    rw [flat_cons, List.append_assoc, List.cons_append, normText_dir hst hd,
      ih (fun e he => hds e (List.mem_cons_of_mem _ he)) (mem_pushSeg_slash hst (slash_not_mem hd)),
      List.foldl_cons]

theorem normText_stop_text {z : Text} (hz : Stop z) (hslash : z.head? ≠ some '/') (out : Text) :
    normText out z = out ++ z := by
  cases z with
  | nil => rw [normText_nil, List.append_nil]
  | cons c z => exact normText_stop (fun h => hslash (h ▸ rfl)) (hz c rfl) out z

/-- The last segment. Right before a `?` it is copied as it is. -/
theorem normText_last {st : List Text} (hst : ∀ d ∈ st, '/' ∉ d) {d z : Text}
    (hd : ∀ c ∈ d, elemChar c = true) (hz : Stop z) (hslash : z.head? ≠ some '/') :
    normText (render st) (d ++ z) =
      if Dot d ∧ z.head? ≠ some '?' then render (pushSeg st d) ++ z else render st ++ d ++ z := by
  -- a dot segment is seen before the end of the text and before `UREND`
  have hdots : ∀ c ∈ z.head?, c ≠ '?' → UREND c = true := by
    intro c hc hq
    rcases elemChar_eq_false.mp (hz c hc) with h | h | h
    · exact absurd (h ▸ hc) hslash
    · exact absurd h hq
    · exact h
  by_cases hdot : Dot d
  · by_cases hq : z.head? = some '?'
    · obtain ⟨z', rfl⟩ : ∃ z', z = '?' :: z' := by
        cases z with
        | nil => cases hq
        | cons c z => exact ⟨z, by rw [Option.some.inj hq]⟩
      rw [if_neg fun h => h.2 hq]
      have hcur : curdir (d ++ '?' :: z') = none := by
        rcases hdot with rfl | rfl <;> rfl
      have hup : updir (d ++ '?' :: z') = none := by
        rcases hdot with rfl | rfl <;> rfl
      rw [normText_copy hd hz hcur hup, normText_stop_text hz hslash]
    · rw [if_pos ⟨hdot, hq⟩]
      have hsee : curdir ('.' :: z) = some z := by
        cases z with
        | nil => rfl
        | cons c z =>
          have hc : c ≠ '?' := fun h => hq (h ▸ rfl)
          have hs : c ≠ '/' := fun h => hslash (h ▸ rfl)
          rw [curdir_cons, if_neg hs, if_pos (hdots c rfl hc)]
      rcases hdot with rfl | rfl
      · rw [List.singleton_append, normText_curdir hsee, normText_stop_text hz hslash]
        rfl
      · have hpop : pushSeg st ['.', '.'] = st.dropLast := rfl
        have hup : updir (['.', '.'] ++ z) = some z := hsee
        have hcur : curdir (['.', '.'] ++ z) = none := rfl
        rw [normText_updir hcur hup, normText_stop_text hz hslash, popOut_render hst, hpop]
  · rw [if_neg fun h => hdot h.1, normText_seg hd hz hdot, normText_stop_text hz hslash]

/-! ## The parts of a URL -/

def pathPart (t : Text) : Text := t.takeWhile (· != '?')

def queryPart (t : Text) : Text := t.dropWhile (· != '?')

/-- The path that a stack makes of the segments of a path. -/
def stackPath (p : Text) : Text := '/' :: resolve ['.'] ['.', '.'] '/' [] p.tail

/-- The path after its first `/`, up to a character that ends a URL in a text. -/
def inReach (t : Text) : Text := (pathPart t).tail.takeWhile (!UREND ·)

/-- The path from such a character on. -/
def outOfReach (t : Text) : Text := (pathPart t).tail.dropWhile (!UREND ·)

/-- The text `r` is the normal form of the URL `t`. -/
structure Normalised (t r : Text) : Prop where
  noDots : ∀ d ∈ segments '/' (pathPart r).tail, ¬Dot d
  root : (pathPart r).head? = some '/'
  path : pathPart r = stackPath (pathPart t)
  query : queryPart r = queryPart t
  again : ∀ (mem : Mem) (url rurl fuel : Nat), Holds mem url r → Buffers url rurl r.length →
    r.length < fuel → ∃ mem' changed,
      urlpath_normalize fuel mem url rurl = some (mem', changed) ∧ Holds mem' rurl r

/-- Every dot segment of the path is seen: the last one in reach is not a dot segment, if
anything stands after it, and no segment out of reach is one. -/
def DotsSeen (t : Text) : Prop :=
  (outOfReach t ++ queryPart t = [] ∨ ¬Dot (split '/' (inReach t)).2) ∧
    ∀ d ∈ (segments '/' (outOfReach t)).tail, ¬Dot d

/-- A URL as its parts: the segments in reach, the rest of the path, and the query. -/
structure Parts (t : Text) (ds : List Text) (last rest query : Text) : Prop where
  text : t = '/' :: (flat '/' ds ++ (last ++ (rest ++ query)))
  dirs : ∀ d ∈ ds, ∀ c ∈ d, elemChar c = true
  name : ∀ c ∈ last, elemChar c = true
  restHead : ∀ c ∈ rest.head?, UREND c = true
  noQuery : '?' ∉ rest
  queryHead : ∀ c ∈ query.head?, c = '?'

theorem parts_of (b : Text) :
    Parts ('/' :: b) (split '/' (inReach ('/' :: b))).1 (split '/' (inReach ('/' :: b))).2
      (outOfReach ('/' :: b)) (queryPart ('/' :: b)) := by
  have hpath : (pathPart ('/' :: b)).tail = b.takeWhile (· != '?') := by simp [pathPart]
  have hquery : queryPart ('/' :: b) = b.dropWhile (· != '?') := by simp [queryPart]
  have hnoQuery : '?' ∉ (pathPart ('/' :: b)).tail := by
    rw [hpath]
    intro h
    simpa using List.mem_takeWhile_imp h
  obtain ⟨htext, hdirs, hlast⟩ := @split_spec _ _ '/' (inReach ('/' :: b))
  have hreach : ∀ c ∈ inReach ('/' :: b), c ≠ '/' → elemChar c = true := by
    intro c hc hslash
    unfold inReach at hc
    have hend := List.mem_takeWhile_imp hc
    have hq : c ≠ '?' := by
      rintro rfl
      exact hnoQuery ((List.takeWhile_prefix _).mem hc)
    rw [← Bool.not_eq_false, elemChar_eq_false]
    rintro (h | h | h)
    · exact hslash h
    · exact hq h
    · simp [h] at hend
  have hmem : ∀ {d : Text} {c : Char}, d ∈ (split '/' (inReach ('/' :: b))).1 → c ∈ d →
      c ∈ inReach ('/' :: b) := by
    intro d c hd hc
    rw [htext, List.mem_append]
    refine .inl (List.mem_flatten.mpr ⟨d ++ ['/'], List.mem_map.mpr ⟨d, hd, rfl⟩, ?_⟩)
    exact List.mem_append_left _ hc
  refine ⟨?_, ?_, ?_, ?_, ?_, ?_⟩
  · rw [← List.append_assoc, ← htext, ← List.append_assoc]
    unfold inReach outOfReach
    rw [List.takeWhile_append_dropWhile, hpath, hquery, List.takeWhile_append_dropWhile]
  · intro d hd c hc
    exact hreach c (hmem hd hc) fun h => hdirs d hd (h ▸ hc)
  · intro c hc
    refine hreach c ?_ fun h => hlast (h ▸ hc)
    rw [htext]
    exact List.mem_append_right _ hc
  · intro c hc
    simpa using head_dropWhile _ _ c hc
  · exact fun h => hnoQuery ((List.dropWhile_suffix _).mem h)
  · rw [hquery]
    intro c hc
    simpa using head_dropWhile _ _ c hc

section Parts
variable {t : Text} {ds : List Text} {last rest query : Text}

theorem ne_query {d : Text} (hd : ∀ c ∈ d, elemChar c = true) : ∀ c ∈ d, c ≠ '?' := by
  rintro c hc rfl
  have := hd '?' hc
  revert this
  decide

/-- The parts before the query have no `?`. -/
theorem Parts.pathPart_eq (h : Parts t ds last rest query) :
    pathPart t = '/' :: (flat '/' ds ++ (last ++ rest)) ∧ queryPart t = query := by
  have hdirs : ∀ c ∈ flat '/' ds, c ≠ '?' := by
    intro c hc
    obtain ⟨e, he, hc⟩ := List.mem_flatten.mp hc
    obtain ⟨d, hd, rfl⟩ := List.mem_map.mp he
    rcases List.mem_append.mp hc with hc | hc
    · exact ne_query (h.dirs d hd) c hc
    · rw [List.mem_singleton.mp hc]
      decide
  have hpath : ∀ c ∈ '/' :: (flat '/' ds ++ (last ++ rest)), (c != '?') = true := by
    intro c hc
    rw [bne_iff_ne]
    rcases List.mem_cons.mp hc with rfl | hc
    · decide
    rcases List.mem_append.mp hc with hc | hc
    · exact hdirs c hc
    rcases List.mem_append.mp hc with hc | hc
    · exact ne_query h.name c hc
    · rintro rfl
      exact h.noQuery hc
  have hquery : ∀ c ∈ query.head?, (c != '?') = false := by
    intro c hc
    rw [h.queryHead c hc]
    rfl
  have htext : t = ('/' :: (flat '/' ds ++ (last ++ rest))) ++ query := by
    rw [h.text]
    simp
  unfold pathPart queryPart
  rw [htext]
  exact while_append hpath hquery

theorem Parts.stop (h : Parts t ds last rest query) :
    Stop (rest ++ query) ∧ (rest ++ query).head? ≠ some '/' := by
  have hhead : ∀ c ∈ (rest ++ query).head?, c = '?' ∨ UREND c = true := by
    intro c hc
    cases rest with
    | nil => exact .inl (h.queryHead c hc)
    | cons u rest => exact .inr (h.restHead c hc)
  refine ⟨fun c hc => elemChar_eq_false.mpr (.inr (hhead c hc)), ?_⟩
  intro hslash
  have := hhead '/' hslash
  revert this
  decide

/-- The stack of the segments that a `/` ends. -/
theorem Parts.stack (h : Parts t ds last rest query) :
    ∀ d ∈ ds.foldl pushSeg [], ¬Dot d ∧ ∀ c ∈ d, elemChar c = true := by
  intro d hd
  rcases mem_foldl_push hd with hd | ⟨hd, hdot⟩
  · cases hd
  · exact ⟨hdot, h.dirs d hd⟩

/-- What `urlpath_normalize` makes of a URL, as its parts. -/
theorem Parts.normText (h : Parts t ds last rest query) :
    Parts (normText [] t)
      (if Dot last ∧ (rest ++ query).head? ≠ some '?' then pushSeg (ds.foldl pushSeg []) last
        else ds.foldl pushSeg [])
      (if Dot last ∧ (rest ++ query).head? ≠ some '?' then [] else last) rest query := by
  have hst := h.stack
  have hroot : delegate.url.normText [] t =
      delegate.url.normText (render (ds.foldl pushSeg [])) (last ++ (rest ++ query)) := by
    have hempty : ∀ d ∈ ([] : List Text), '/' ∉ d := by simp
    rw [h.text, normText_slash]
    exact normText_dirs h.dirs hempty _
  obtain ⟨hstop, hslash⟩ := h.stop
  rw [normText_last (fun d hd => slash_not_mem (hst d hd).2) h.name hstop hslash] at hroot
  by_cases hsee : Dot last ∧ (rest ++ query).head? ≠ some '?'
  · rw [if_pos hsee] at hroot ⊢
    rw [if_pos hsee]
    refine ⟨by simp [hroot, render], ?_, by simp, h.restHead, h.noQuery, h.queryHead⟩
    intro d hd
    rcases mem_push hd with hd | ⟨rfl, -⟩
    · exact (hst d hd).2
    · exact h.name
  · rw [if_neg hsee] at hroot ⊢
    rw [if_neg hsee]
    refine ⟨by simp [hroot, render], fun d hd => (hst d hd).2, h.name, h.restHead, h.noQuery,
      h.queryHead⟩

/-- A segment with the end of a URL in it is no dot segment. -/
theorem not_dot_of_mem {d : Text} {u : Char} (hu : UREND u = true) (hd : u ∈ d) : ¬Dot d := by
  intro hdot
  have hdots : u = '.' := by
    rcases hdot with rfl | rfl <;> simpa using hd
  rw [hdots] at hu
  revert hu
  decide

/-- The segments of a path: those in reach with a `/` after them, and the others. -/
theorem Parts.segments_eq (h : Parts t ds last rest query) :
    segments '/' (pathPart t).tail = ds ++ segments '/' (last ++ rest) := by
  rw [h.pathPart_eq.1, List.tail_cons, segments_flat fun d hd => slash_not_mem (h.dirs d hd)]

/-- The last segment in reach goes on until a `/` out of reach. -/
theorem Parts.segments_last (h : Parts t ds last rest query) :
    ∃ d, segments '/' (last ++ rest) = d :: (segments '/' rest).tail ∧
      (rest = [] → d = last) ∧ (rest ≠ [] → ¬Dot d) := by
  have hlast : '/' ∉ last := slash_not_mem h.name
  cases rest with
  | nil =>
    refine ⟨last, ?_, fun _ => rfl, fun hne => absurd rfl hne⟩
    rw [List.append_nil]
    unfold segments
    rw [split_of_not_mem hlast]
    rfl
  | cons u rest =>
    have hu : UREND u = true := h.restHead u rfl
    have hslash : '/' ∉ [u] := by
      intro hm
      rw [← List.mem_singleton.mp hm] at hu
      revert hu
      decide
    have hfirst : '/' ∉ last ++ [u] := fun hm => (List.mem_append.mp hm).elim hlast hslash
    obtain ⟨w, hw, -⟩ := segments_append hfirst rest
    obtain ⟨w', hw', -⟩ := segments_append hslash rest
    refine ⟨last ++ [u] ++ w, ?_, (nomatch ·), fun _ => not_dot_of_mem hu (by simp)⟩
    rw [List.append_assoc, List.singleton_append] at hw
    rw [List.singleton_append] at hw'
    rw [hw, hw', List.tail_cons]

/-- Without dot segments from the last one in reach on, the rest of the path stays. -/
theorem Parts.resolve_rest (h : Parts t ds last rest query) (hlast : rest = [] → ¬Dot last)
    (hrest : ∀ d ∈ (segments '/' rest).tail, ¬Dot d) :
    (∀ d ∈ segments '/' (last ++ rest), ¬Dot d) ∧
      stackPath (pathPart t) = '/' :: (flat '/' (ds.foldl pushSeg []) ++ (last ++ rest)) := by
  obtain ⟨d, hsegs, hnil, hcons⟩ := h.segments_last
  have hd : ¬Dot d := by
    by_cases hr : rest = []
    · rw [hnil hr]
      exact hlast hr
    · exact hcons hr
  have hdots : ∀ e ∈ segments '/' (last ++ rest), ¬Dot e := by
    rw [hsegs]
    intro e he
    rcases List.mem_cons.mp he with rfl | he
    · exact hd
    · exact hrest e he
  refine ⟨hdots, ?_⟩
  unfold stackPath
  rw [h.pathPart_eq.1, List.tail_cons, resolve_flat fun d hd => slash_not_mem (h.dirs d hd),
    resolve_of_not_dot hdots]

/-- A text without dot segments is its own normal form. -/
theorem Parts.fixed (h : Parts t ds last rest query) (hds : ∀ d ∈ ds, ¬Dot d) (hlast : ¬Dot last) :
    delegate.url.normText [] t = t := by
  have hr := h.normText.text
  rw [if_neg fun hc => hlast hc.1, if_neg fun hc => hlast hc.1, foldl_push_of_not_dot hds,
    List.nil_append] at hr
  rw [hr, h.text]

end Parts

/-- A text whose dot segments are all gone is normal. -/
theorem normalised_of_parts {t r : Text} {st : List Text} {last rest query : Text}
    (h : Parts r st last rest query) (hst : ∀ d ∈ st, ¬Dot d) (hlast : ¬Dot last)
    (hrest : ∀ d ∈ (segments '/' rest).tail, ¬Dot d) (hpath : pathPart r = stackPath (pathPart t))
    (hquery : query = queryPart t) : Normalised t r where
  noDots := by
    rw [h.segments_eq]
    intro e he
    rcases List.mem_append.mp he with he | he
    · exact hst e he
    · exact (h.resolve_rest (fun _ => hlast) hrest).1 e he
  root := by
    rw [h.pathPart_eq.1]
    rfl
  path := hpath
  query := by rw [h.pathPart_eq.2, hquery]
  again := by
    intro mem url rurl fuel hmem hb hf
    have hroot : r.head? = some '/' := by
      rw [h.text]
      rfl
    have hfix := urlpath_normalize_spec hb rfl hmem hroot hf
    rwa [h.fixed hst hlast] at hfix

section Parts
variable {t : Text} {ds : List Text} {last rest query : Text}

/-- Where every dot segment is seen, the text is normalised. -/
theorem Parts.normalised (h : Parts t ds last rest query) (hlast : rest ++ query = [] ∨ ¬Dot last)
    (hrest : ∀ d ∈ (segments '/' rest).tail, ¬Dot d) :
    Normalised t (delegate.url.normText [] t) := by
  have hr := h.normText
  have hquery : query = queryPart t := h.pathPart_eq.2.symm
  by_cases hdot : Dot last
  · -- the path ends with the dot segment, and the output ends with a `/`
    obtain ⟨rfl, rfl⟩ := List.append_eq_nil_iff.mp (hlast.resolve_right (not_not.mpr hdot))
    have hsee : Dot last ∧ (([] : Text) ++ []).head? ≠ some '?' := ⟨hdot, by simp⟩
    rw [if_pos hsee, if_pos hsee] at hr
    refine normalised_of_parts hr ?_ (by decide) hrest ?_ hquery
    · intro d hd
      rcases mem_push hd with hd | ⟨rfl, hd⟩
      · exact (h.stack d hd).1
      · exact hd
    · unfold stackPath
      rw [hr.pathPart_eq.1, h.pathPart_eq.1, List.tail_cons, List.append_nil, List.append_nil,
        List.append_nil, resolve_flat fun d hd => slash_not_mem (h.dirs d hd),
        resolve_of_dot (slash_not_mem h.name) hdot]
  · rw [if_neg fun hc => hdot hc.1, if_neg fun hc => hdot hc.1] at hr
    refine normalised_of_parts hr (fun d hd => (h.stack d hd).1) hdot hrest ?_ hquery
    rw [hr.pathPart_eq.1, (h.resolve_rest (fun _ => hdot) hrest).2]

/-- A dot segment before a query or out of reach is not resolved. -/
theorem Parts.seen (h : Parts t ds last rest query)
    (hn : Normalised t (delegate.url.normText [] t)) :
    (rest ++ query = [] ∨ ¬Dot last) ∧ ∀ d ∈ (segments '/' rest).tail, ¬Dot d := by
  have hr := h.normText
  have hdots := hn.noDots
  rw [hr.segments_eq] at hdots
  have hrest : ∀ d ∈ (segments '/' rest).tail, ¬Dot d := by
    obtain ⟨e, hsegs, -⟩ := hr.segments_last
    intro d hd
    apply hdots d
    rw [hsegs]
    exact List.mem_append_right _ (List.mem_cons_of_mem _ hd)
  refine ⟨?_, hrest⟩
  by_contra hcon
  rw [not_or, not_not] at hcon
  obtain ⟨hne, hdot⟩ := hcon
  by_cases hq : (rest ++ query).head? = some '?'
  · -- it is copied, and stands in the output
    have hnil : rest = [] := by
      cases rest with
      | nil => rfl
      | cons u rest =>
        have hu := h.restHead u rfl
        rw [Option.some.inj hq] at hu
        exact absurd hu (by decide)
    rw [if_neg fun hc => hc.2 hq, if_neg fun hc => hc.2 hq] at hr hdots
    obtain ⟨d, hsegs, hd, -⟩ := hr.segments_last
    refine hdots d ?_ (hd hnil ▸ hdot)
    rw [hsegs]
    exact List.mem_append_right _ List.mem_cons_self
  · -- it is taken away, although it is no segment of the path
    have hrest' : rest ≠ [] := by
      rintro rfl
      cases query with
      | nil => exact hne rfl
      | cons c query => exact hq (by rw [List.nil_append, List.head?_cons, h.queryHead c rfl])
    rw [if_pos ⟨hdot, hq⟩, if_pos ⟨hdot, hq⟩] at hr
    have hpath := hn.path
    rw [hr.pathPart_eq.1, (h.resolve_rest (fun hc => absurd hc hrest') hrest).2, List.cons.injEq,
      List.nil_append, ← List.append_assoc] at hpath
    have hsame := congrArg List.length (List.append_cancel_right hpath.2)
    have hshort : (flat '/' (pushSeg (ds.foldl pushSeg []) last)).length ≤
        (flat '/' (ds.foldl pushSeg [])).length := flat_push_length hdot _
    have hlen : 0 < last.length := by
      rcases hdot with rfl | rfl <;> decide
    rw [List.length_append] at hsame
    omega

end Parts

/-! ## The law -/

/-- `urlpath_normalize` ends, and normalises the URL if and only if it sees all dot segments. -/
theorem urlpath_normalize_iff {mem : Mem} {url rurl fuel : Nat} {t : Text}
    (hroot : t.head? = some '/') (hmem : Holds mem url t) (hb : Buffers url rurl t.length)
    (hf : t.length < fuel) :
    ∃ mem' changed r, urlpath_normalize fuel mem url rurl = some (mem', changed) ∧
      Holds mem' rurl r ∧ (Normalised t r ↔ DotsSeen t) := by
  obtain ⟨mem', changed, hrun, hout⟩ := urlpath_normalize_spec hb rfl hmem hroot hf
  refine ⟨mem', changed, _, hrun, hout, ?_⟩
  obtain ⟨b, rfl⟩ : ∃ b, t = '/' :: b := by
    cases t with
    | nil => cases hroot
    | cons c b => exact ⟨b, by rw [Option.some.inj hroot]⟩
  exact ⟨(parts_of b).seen, fun h => (parts_of b).normalised h.1 h.2⟩

/-- A memory with a text at 0. -/
def load (t : Text) : Mem := fun p => t.getD p NUL

theorem urlpath_normalize_iff_upper :
    ∃ mem' changed r, urlpath_normalize 8 (load "/a/../b".toList) 0 0 = some (mem', changed) ∧
      Holds mem' 0 r ∧ Normalised "/a/../b".toList r := by
  have hseen : DotsSeen "/a/../b".toList := by
    unfold DotsSeen
    decide
  obtain ⟨mem', changed, r, hrun, hout, hiff⟩ :=
    @urlpath_normalize_iff (load "/a/../b".toList) 0 0 8 "/a/../b".toList rfl (by decide)
      (.inl rfl) (by decide)
  exact ⟨mem', changed, r, hrun, hout, hiff.mpr hseen⟩

/-- The segment for the upper directory stays before a query. -/
theorem dots_before_query_stay :
    urlpath_normalize 8 (load "/a/..?q".toList) 0 0 = some (load "/a/..?q".toList, false) ∧
      Holds (load "/a/..?q".toList) 0 "/a/..?q".toList ∧
      ¬Normalised "/a/..?q".toList "/a/..?q".toList := by
  refine ⟨rfl, by decide, ?_⟩
  intro h
  exact h.noDots ['.', '.'] (by decide) (by decide)

end delegate.url
