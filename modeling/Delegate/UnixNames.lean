-- The host name of an AF_UNIX socket (path2hostlocal and hostlocal2path,
-- rary/vsaddr.cpp). The components of the path stand in the name from the last
-- on, with a dot for each slash and two dots for each dot.
import Delegate.Segments
import Delegate.StringScan

open ctext segs delegate.string

namespace delegate.vsaddr

/-! ## The pure model -/

def VSA_afunixdom : Text := ['.', 'a', 'f', '-', 'l', 'o', 'c', 'a', 'l']

/-- The loop of `linescanX`, with room for `n` more characters. -/
def linescanX.loop : Nat → Text → Text
  | n + 1, ch :: s =>
    if ch = '\n' ∨ (ch = '\r' ∧ (s.head? = some '\n' ∨ s = [])) then [] else ch :: loop n s
  | _, _ => []

/-- `lineScan` into a buffer of 1024 bytes. -/
def lineScan (s : Text) : Text :=
  linescanX.loop 1023 (s.dropWhile fun ch => ch == ' ' || ch == '\t')

theorem strrchr_length {c : Char} {s a b : Text} (h : strrchr c s = some (a, b)) :
    a.length < s.length := by
  rcases strrchr_cases c s with hnone | ⟨a', b', rfl, hb⟩
  · rw [strrchr_eq_none hnone] at h
    cases h
  · rw [strrchr_append hb] at h
    obtain ⟨rfl, rfl⟩ := Prod.mk.inj (Option.some.inj h)
    simp

/-- The loop of `reverseDomainX`: what it appends for the text in `dombuf`. -/
def reverseDomainX.loop (dlm : Char) (sep : Text) (dombuf : Text) : Text :=
  match _h : strrchr dlm dombuf with
  | some (before, last) => last ++ sep ++ loop dlm sep before
  | none => dombuf
termination_by dombuf.length
decreasing_by exact strrchr_length _h

def reverseDomainX (dom : Text) (dlm : Char) (sep : Text) : Text :=
  reverseDomainX.loop dlm sep (lineScan dom)

/-- The loop of `path2hostlocal`. At a colon it writes an escape but does not move on behind it, and
skips to the terminator of the text and over it, so that it goes on with what stands there; `more`
is what it writes for that. -/
def path2hostlocal.loop (more : Text) : Text → Text
  | [] => []
  | c :: sp =>
    if c = '/' then '.' :: loop more sp
    else if c = '.' then '.' :: '.' :: loop more sp
    else if c = ':' then more
    else c :: loop more sp

/-- What the loop writes for a text in the memory, where other texts follow behind its terminator. -/
def path2hostlocal.scan (buf : Text) : List Text → Text
  | [] => loop [] buf
  | next :: texts => loop (scan next texts) buf

/-- `wordscanX(VSA_afunixdom,..,room)`: a room of 0 is no limit. -/
def afunixdom (room : Int) : Text :=
  if room = 0 then VSA_afunixdom else VSA_afunixdom.take (room - 1).toNat

/-- The host name. `stack` are the texts that follow the local buffer in the memory. -/
def path2hostlocal (root : Option Text) (stack : List Text) (path : Text) (size : Nat) : Text :=
  let sp := match root with
    | some root => if root <+: path then path.drop root.length else path
    | none => path
  let sp := if sp.head? = some '/' then sp.tail else sp
  let host := path2hostlocal.scan (reverseDomainX sp '/' ['/']) stack
  host ++ afunixdom (size - host.length)

/-- `isB16` takes all letters. -/
def isB16 (ch : Char) : Bool := ch.isAlphanum

/-- The character of an escape: `?` if there is no number. -/
def escaped (a b : Char) : Char :=
  ((scanHex [a, b]).map fun ich => Char.ofNat (ich.toNat % 256)).getD '?'

/-- The loop of `hostlocal2path`, with room for `n` more characters. -/
def hostlocal2path.loop : Nat → Text → Text
  | 0, _ => []
  | _, [] => []
  | n + 1, ch :: sp =>
    if ch = '.' then
      if sp.head? = some '.' then '.' :: loop n sp.tail else '/' :: loop n sp
    else if (ch = '=' ∨ ch = '%') ∧ 2 ≤ sp.length ∧ (sp.take 2).all isB16 then
      escaped (sp.getD 0 ' ') (sp.getD 1 ' ') :: loop n (sp.drop 2)
    else ch :: loop n sp

/-- The path of a host name; `none` if it is none of a socket. The domain is cut off except for its
dot. -/
def hostlocal2path (root : Option Text) (host : Text) (size : Nat) : Option Text :=
  if strtailstr host VSA_afunixdom then
    let path := (wordscanX size host).1
    let cut := path.take (path.length - VSA_afunixdom.length + 1)
    let buf := (hostlocal2path.loop 255 cut).takeWhile (· ≠ '\x00')
    some (root.getD [] ++ reverseDomainX buf '/' ['/'])
  else none

/-- A path of a socket, by its components. -/
structure SockPath where
  comps : List Text
  ne : comps ≠ []
  full : ∀ d ∈ comps, d ≠ []
  plain : ∀ d ∈ comps, ∀ c ∈ d, 33 ≤ c.toNat ∧ c.toNat ≤ 126 ∧ c ≠ '=' ∧ c ≠ '%' ∧ c ≠ '/'
  short : (joined '/' comps).length < 100

/-- The path begins with a slash. -/
def SockPath.text (p : SockPath) : Text := '/' :: joined '/' p.comps

/-! ## The order of the components -/

theorem lineScan_of_plain {s : Text} (h : ∀ c ∈ s, 33 ≤ c.toNat) (hlen : s.length < 1024) :
    lineScan s = s := by
  have hloop : ∀ (n : Nat) (s : Text), (∀ c ∈ s, 33 ≤ c.toNat) → s.length ≤ n →
      linescanX.loop n s = s := by
    intro n
    induction n with
    | zero =>
      intro s _ hle
      rw [List.length_eq_zero_iff.mp (Nat.le_zero.mp hle)]
      rfl
    | succ n ih =>
      intro s hs hle
      cases s with
      | nil => rfl
      | cons c s =>
        have hc := hs c List.mem_cons_self
        have hline : ¬(c = '\n' ∨ (c = '\r' ∧ (s.head? = some '\n' ∨ s = []))) := by
          rintro (rfl | ⟨rfl, -⟩) <;> simp at hc
        rw [linescanX.loop, if_neg hline,
          ih s (fun d hd => hs d (List.mem_cons_of_mem _ hd)) (Nat.le_of_succ_le_succ hle)]
  have hdrop : s.dropWhile (fun ch => ch == ' ' || ch == '\t') = s := by
    cases s with
    | nil => rfl
    | cons c s =>
      have hc := h c List.mem_cons_self
      have hblank : ¬(c == ' ' || c == '\t') = true := by
        rw [Bool.or_eq_true, beq_iff_eq, beq_iff_eq]
        rintro (rfl | rfl) <;> simp at hc
      rw [List.dropWhile_cons, if_neg hblank]
  rw [lineScan, hdrop, hloop 1023 s h (by omega)]

theorem reverse_joined {ds : List Text} (h : ∀ d ∈ ds, '/' ∉ d) (hne : ds ≠ []) :
    reverseDomainX.loop '/' ['/'] (joined '/' ds) = joined '/' ds.reverse := by
  induction ds using List.reverseRecOn with
  | nil => exact absurd rfl hne
  | append_singleton ds d ih =>
    have hd : '/' ∉ d := h d (by simp)
    by_cases hds : ds = []
    · subst hds
      have hnone : strrchr '/' (joined '/' ([] ++ [d])) = none := strrchr_eq_none hd
      rw [reverseDomainX.loop]
      split
      · rename_i hsome
        rw [hnone] at hsome
        cases hsome
      · rfl
    · have hlast : joined '/' (ds ++ [d]) = joined '/' ds ++ '/' :: d := by
        obtain ⟨es, e, rfl⟩ := List.eq_nil_or_concat ds |>.resolve_left hds
        rw [List.concat_eq_append, joined_concat, joined_concat, flat_append, flat_cons, flat_nil]
        simp
      have hsome := strrchr_append (a := joined '/' ds) hd
      rw [← hlast] at hsome
      rw [reverseDomainX.loop]
      split
      · rename_i before last heq
        rw [hsome] at heq
        obtain ⟨rfl, rfl⟩ := Prod.mk.inj (Option.some.inj heq)
        rw [ih (fun e he => h e (by simp [he])) hds, List.reverse_append, List.reverse_singleton,
          List.singleton_append, joined_cons d (by simpa using hds), List.append_assoc]
        rfl
      · rename_i heq
        rw [hsome] at heq
        cases heq

/-- Turning a text around is undone by doing it again. -/
theorem reverse_eq_joined {s : Text} {ds : List Text} (hds : ∀ d ∈ ds, '/' ∉ d) (hne : ds ≠ [])
    (h : reverseDomainX.loop '/' ['/'] s = joined '/' ds) : s = joined '/' ds.reverse := by
  have hsegs : ∀ d ∈ segments '/' s, '/' ∉ d := fun d hd => not_mem_segments hd
  have hrev := reverse_joined hsegs (segments_ne_nil s)
  rw [joined_segments, h] at hrev
  have heq := congrArg (segments '/') hrev
  rw [segments_joined hne hds,
    segments_joined (by simpa using segments_ne_nil s) (by simpa using hsegs)] at heq
  rw [heq, List.reverse_reverse, joined_segments]

/-! ## The characters -/

/-- What is written for a character other than a colon. -/
def encoded (c : Char) : Text := if c = '/' then ['.'] else if c = '.' then ['.', '.'] else [c]

/-- The components with the dot after each of them. -/
def dotted (ds : List Text) : Text := ds.flatMap fun d => d.flatMap encoded ++ ['.']

theorem scan_of_no_colon {s : Text} (h : ':' ∉ s) (stack : List Text) :
    path2hostlocal.scan s stack = s.flatMap encoded := by
  have hloop : ∀ more, path2hostlocal.loop more s = s.flatMap encoded := by
    intro more
    induction s with
    | nil => rfl
    | cons c s ih =>
      rw [List.mem_cons, not_or] at h
      rw [path2hostlocal.loop, List.flatMap_cons, encoded, ih h.2]
      by_cases hslash : c = '/'
      · simp [hslash]
      by_cases hdot : c = '.'
      · simp [hdot]
      simp [hslash, hdot, Ne.symm h.1]
  cases stack with
  | nil => exact hloop []
  | cons next texts => exact hloop _

/-- A character that is written stood in the text, or is a dot. -/
theorem mem_loop_nil {s : Text} {c : Char} (h : c ∈ path2hostlocal.loop [] s) :
    c = '.' ∨ (c ∈ s ∧ c ≠ ':') := by
  induction s with
  | nil => cases h
  | cons d s ih =>
    have hmem := fun h => (ih h).imp_right fun hc => (⟨List.mem_cons_of_mem d hc.1, hc.2⟩ : _ ∧ _)
    rw [path2hostlocal.loop] at h
    by_cases hslash : d = '/'
    · rw [if_pos hslash, List.mem_cons] at h
      exact h.elim .inl hmem
    by_cases hdot : d = '.'
    · rw [if_neg hslash, if_pos hdot, List.mem_cons, List.mem_cons] at h
      exact h.elim .inl fun h => h.elim .inl hmem
    by_cases hcolon : d = ':'
    · rw [if_neg hslash, if_neg hdot, if_pos hcolon] at h
      cases h
    rw [if_neg hslash, if_neg hdot, if_neg hcolon, List.mem_cons] at h
    rcases h with rfl | h
    · exact .inr ⟨List.mem_cons_self, hcolon⟩
    · exact hmem h

theorem length_loop_nil (s : Text) : (path2hostlocal.loop [] s).length ≤ 2 * s.length := by
  induction s with
  | nil => exact Nat.le_refl 0
  | cons c s ih =>
    rw [path2hostlocal.loop]
    split_ifs <;> simp only [List.length_cons, List.length_nil] <;> omega

/-- The characters of a host name that `hostlocal2path` takes as they are, or as dots. -/
def Plain (s : Text) : Prop := ∀ c ∈ s, 33 ≤ c.toNat ∧ c ≠ '=' ∧ c ≠ '%'

theorem loop_cons_of_ne {c : Char} (hdot : c ≠ '.') (heq : c ≠ '=') (hpct : c ≠ '%') (n : Nat)
    (s : Text) : hostlocal2path.loop (n + 1) (c :: s) = c :: hostlocal2path.loop n s := by
  have hesc : ¬((c = '=' ∨ c = '%') ∧ 2 ≤ s.length ∧ (s.take 2).all isB16 = true) := by
    rintro ⟨h | h, -⟩
    · exact heq h
    · exact hpct h
  rw [hostlocal2path.loop, if_neg hdot, if_neg hesc]

/-- A component is read back from what is written for it. -/
theorem loop_encoded {d : Text} (h : ∀ c ∈ d, c ≠ '=' ∧ c ≠ '%' ∧ c ≠ '/') (m : Nat) (t : Text) :
    hostlocal2path.loop (d.length + m) (d.flatMap encoded ++ t) =
      d ++ hostlocal2path.loop m t := by
  induction d with
  | nil => simp
  | cons c d ih =>
    obtain ⟨heq, hpct, hslash⟩ := h c List.mem_cons_self
    have hrest := ih fun e he => h e (List.mem_cons_of_mem _ he)
    have hlen : (c :: d).length + m = d.length + m + 1 := by
      rw [List.length_cons]
      omega
    rw [hlen, List.flatMap_cons, List.append_assoc, List.cons_append, encoded, if_neg hslash]
    by_cases hdot : c = '.'
    · subst hdot
      rw [if_pos rfl, List.cons_append, List.cons_append, List.nil_append, hostlocal2path.loop,
        if_pos rfl, List.head?_cons, if_pos rfl, List.tail_cons, hrest]
    · rw [if_neg hdot, List.singleton_append, loop_cons_of_ne hdot heq hpct, hrest]

theorem dotted_head {ds : List Text} (h : ∀ d ∈ ds, d ≠ []) (hslash : ∀ d ∈ ds, '/' ∉ d) :
    (dotted ds).head? = some '.' ↔ ∃ d ∈ ds.head?, d.head? = some '.' := by
  cases ds with
  | nil => simp [dotted]
  | cons d ds =>
    cases d with
    | nil => exact absurd rfl (h [] List.mem_cons_self)
    | cons c d =>
      have hc : c ≠ '/' := fun hc => hslash _ List.mem_cons_self (hc ▸ List.mem_cons_self)
      by_cases hdot : c = '.' <;> simp [dotted, encoded, hc, hdot]

/-- The components are read back if none but the first of them begins with a dot. -/
theorem loop_dotted_iff {ds : List Text} (hfull : ∀ d ∈ ds, d ≠ [])
    (h : ∀ d ∈ ds, ∀ c ∈ d, c ≠ '=' ∧ c ≠ '%' ∧ c ≠ '/') (m : Nat) :
    hostlocal2path.loop ((flat '/' ds).length + m) (dotted ds) = flat '/' ds ↔
      ∀ d ∈ ds.tail, d.head? ≠ some '.' := by
  induction ds with
  | nil => cases m <;> simp [dotted, hostlocal2path.loop]
  | cons d ds ih =>
    have hfull' : ∀ e ∈ ds, e ≠ [] := fun e he => hfull e (List.mem_cons_of_mem _ he)
    have h' : ∀ e ∈ ds, ∀ c ∈ e, c ≠ '=' ∧ c ≠ '%' ∧ c ≠ '/' :=
      fun e he => h e (List.mem_cons_of_mem _ he)
    have hhead := dotted_head hfull' fun e he hc => (h' e he _ hc).2.2 rfl
    have hlen : (flat '/' (d :: ds)).length + m = d.length + ((flat '/' ds).length + m + 1) := by
      rw [flat_cons, List.length_append, List.length_cons]
      omega
    have hdots : dotted (d :: ds) = d.flatMap encoded ++ '.' :: dotted ds := by
      rw [dotted, List.flatMap_cons, List.append_assoc]
      rfl
    rw [hlen, hdots, loop_encoded (h d List.mem_cons_self), flat_cons, List.append_cancel_left_eq,
      hostlocal2path.loop, if_pos rfl, List.tail_cons]
    by_cases hdot : (dotted ds).head? = some '.'
    · rw [if_pos hdot]
      constructor
      · intro heq
        exact absurd (List.cons.inj heq).1 (by decide)
      · intro hno
        obtain ⟨e, he, hedot⟩ := hhead.mp hdot
        exact absurd hedot (hno e (List.mem_of_mem_head? he))
    · rw [if_neg hdot, List.cons_inj_right, ih hfull' h']
      cases ds with
      | nil => simp
      | cons e ds =>
        rw [List.forall_mem_cons, List.tail_cons]
        constructor
        · intro htail
          refine ⟨fun hedot => hdot (hhead.mpr ⟨e, rfl, hedot⟩), htail⟩
        · exact fun hall => hall.2

/-- What is read has the length, when it is written, of what it is read from. -/
theorem loop_weight {s : Text} (h : Plain s) {n : Nat} (hn : s.length ≤ n) :
    ((hostlocal2path.loop n s).flatMap encoded).length = s.length := by
  induction n using Nat.strongRecOn generalizing s with
  | ind n ih =>
    cases s with
    | nil => cases n <;> rfl
    | cons c s =>
      obtain ⟨n, rfl⟩ : ∃ m, n = m + 1 := ⟨n - 1, by rw [List.length_cons] at hn; omega⟩
      rw [List.length_cons] at hn
      have hs : Plain s := fun d hd => h d (List.mem_cons_of_mem _ hd)
      by_cases hdot : c = '.'
      · subst hdot
        rw [hostlocal2path.loop, if_pos rfl]
        split
        · rename_i hhead
          have htail : s.tail.length + 1 = s.length := by
            cases s with
            | nil => cases hhead
            | cons d s => rfl
          have hrest := ih n (Nat.lt_succ_self n)
            (s := s.tail) (fun d hd => hs d (List.mem_of_mem_tail hd)) (by omega)
          rw [List.flatMap_cons, List.length_append, hrest]
          simp only [encoded, List.length_cons]
          simp
          omega
        · rw [List.flatMap_cons, List.length_append, ih n (Nat.lt_succ_self n) hs (by omega)]
          simp [encoded]
          omega
      · obtain ⟨-, heq, hpct⟩ := h c List.mem_cons_self
        rw [loop_cons_of_ne hdot heq hpct, List.flatMap_cons, List.length_append,
          ih n (Nat.lt_succ_self n) hs (by omega)]
        by_cases hslash : c = '/' <;> simp [encoded, hslash, hdot] <;> omega

theorem mem_loop {s : Text} (h : Plain s) {n : Nat} {c : Char} (hc : c ∈ hostlocal2path.loop n s) :
    c = '/' ∨ c ∈ s := by
  induction n using Nat.strongRecOn generalizing s with
  | ind n ih =>
    cases n with
    | zero => cases s <;> cases hc
    | succ n =>
      cases s with
      | nil => cases hc
      | cons d s =>
        have hs : Plain s := fun e he => h e (List.mem_cons_of_mem _ he)
        by_cases hdot : d = '.'
        · subst hdot
          rw [hostlocal2path.loop, if_pos rfl] at hc
          split at hc
          · rcases List.mem_cons.mp hc with rfl | hc
            · exact .inr List.mem_cons_self
            · exact (ih n (Nat.lt_succ_self n) (fun e he => hs e (List.mem_of_mem_tail he)) hc).imp_right
                fun hmem => List.mem_cons_of_mem _ (List.mem_of_mem_tail hmem)
          · rcases List.mem_cons.mp hc with rfl | hc
            · exact .inl rfl
            · exact (ih n (Nat.lt_succ_self n) hs hc).imp_right (List.mem_cons_of_mem _)
        · obtain ⟨-, heq, hpct⟩ := h d List.mem_cons_self
          rw [loop_cons_of_ne hdot heq hpct] at hc
          rcases List.mem_cons.mp hc with rfl | hc
          · exact .inr List.mem_cons_self
          · exact (ih n (Nat.lt_succ_self n) hs hc).imp_right (List.mem_cons_of_mem _)

/-! ## The whole name -/

theorem afunixdom_eq_iff (room : Int) : afunixdom room = VSA_afunixdom ↔ room = 0 ∨ 9 < room := by
  unfold afunixdom
  by_cases hroom : room = 0
  · simp [hroom]
  · rw [if_neg hroom, List.take_eq_self_iff]
    show 9 ≤ (room - 1).toNat ↔ _
    omega

theorem afunixdom_length (room : Int) : (afunixdom room).length ≤ 9 := by
  unfold afunixdom
  split
  · exact Nat.le_refl 9
  · exact List.length_take_le' _ _

theorem length_lt_of_ne {room : Int} (h : afunixdom room ≠ VSA_afunixdom) :
    (afunixdom room).length < 9 := by
  unfold afunixdom at h ⊢
  split at h
  · exact absurd rfl h
  · rename_i hroom
    rw [if_neg hroom, List.length_take]
    rw [Ne, List.take_eq_self_iff] at h
    exact Nat.lt_of_le_of_lt (Nat.min_le_left _ _) (Nat.lt_of_not_le h)

theorem plain_afunixdom (room : Int) : Plain (afunixdom room) := by
  have hdom : Plain VSA_afunixdom := by simp [Plain, VSA_afunixdom]
  intro c hc
  apply hdom c
  unfold afunixdom at hc
  split at hc
  · exact hc
  · exact List.mem_of_mem_take hc

theorem plain_encoded {s : Text} (h : Plain s) : Plain (s.flatMap encoded) := by
  intro c hc
  obtain ⟨d, hd, hcd⟩ := List.mem_flatMap.mp hc
  unfold encoded at hcd
  split_ifs at hcd
  · rw [List.mem_singleton.mp hcd]
    decide
  · have hc : c = '.' := by simpa using hcd
    rw [hc]
    decide
  · rw [List.mem_singleton.mp hcd]
    exact h d hd

theorem flat_encoded (ds : List Text) : (flat '/' ds).flatMap encoded = dotted ds := by
  induction ds with
  | nil => rfl
  | cons d ds ih =>
    have hdots : dotted (d :: ds) = d.flatMap encoded ++ '.' :: dotted ds := by
      rw [dotted, List.flatMap_cons, List.append_assoc]
      rfl
    rw [flat_cons, List.flatMap_append, List.flatMap_cons, ih, hdots]
    rfl

theorem joined_slash {ds : List Text} (h : ds ≠ []) : joined '/' ds ++ ['/'] = flat '/' ds := by
  obtain ⟨es, e, rfl⟩ := List.eq_nil_or_concat ds |>.resolve_left h
  rw [List.concat_eq_append, joined_concat, flat_append, flat_cons, flat_nil, List.append_assoc]

theorem joined_encoded {ds : List Text} (h : ds ≠ []) :
    (joined '/' ds).flatMap encoded ++ ['.'] = dotted ds := by
  rw [← flat_encoded, ← joined_slash h, List.flatMap_append]
  rfl

/-- The length of the name, without the domain. -/
def SockPath.hostLength (p : SockPath) : Nat :=
  (joined '/' p.comps).length + (joined '/' p.comps).count '.'

theorem length_encoded (s : Text) : (s.flatMap encoded).length = s.length + s.count '.' := by
  induction s with
  | nil => rfl
  | cons c s ih =>
    rw [List.flatMap_cons, List.length_append, ih, List.length_cons, List.count_cons]
    by_cases hslash : c = '/'
    · simp [encoded, hslash]
      omega
    by_cases hdot : c = '.'
    · simp [encoded, hdot]
      omega
    · simp [encoded, hslash, hdot]
      omega

section
variable (p : SockPath)

theorem SockPath.reverse_ne : p.comps.reverse ≠ [] := by
  simpa using p.ne

theorem SockPath.perm : (joined '/' p.comps.reverse).Perm (joined '/' p.comps) := by
  have hflat : (flat '/' p.comps.reverse).Perm (flat '/' p.comps) :=
    ((List.reverse_perm p.comps).map _).flatten
  rw [← joined_slash p.reverse_ne, ← joined_slash p.ne] at hflat
  exact (List.perm_append_right_iff _).mp hflat

theorem SockPath.length_name :
    ((joined '/' p.comps.reverse).flatMap encoded).length = p.hostLength := by
  rw [length_encoded, p.perm.length_eq, p.perm.count_eq]
  rfl

theorem SockPath.mem_joined {c : Char} (h : c ∈ joined '/' p.comps) :
    c = '/' ∨ ∃ d ∈ p.comps, c ∈ d := by
  have hmem : c ∈ flat '/' p.comps := by
    rw [← joined_slash p.ne]
    exact List.mem_append_left _ h
  unfold flat at hmem
  obtain ⟨l, hl, hc⟩ := List.mem_flatten.mp hmem
  obtain ⟨d, hd, rfl⟩ := List.mem_map.mp hl
  rcases List.mem_append.mp hc with hc | hc
  · exact .inr ⟨d, hd, hc⟩
  · exact .inl (List.mem_singleton.mp hc)

theorem SockPath.plain_joined : Plain (joined '/' p.comps) := by
  intro c hc
  rcases p.mem_joined hc with rfl | ⟨d, hd, hc⟩
  · decide
  · obtain ⟨hlow, -, heq, hpct, -⟩ := p.plain d hd c hc
    exact ⟨hlow, heq, hpct⟩

theorem SockPath.reversed : reverseDomainX (joined '/' p.comps) '/' ['/'] =
    joined '/' p.comps.reverse := by
  have hshort := p.short
  rw [reverseDomainX, lineScan_of_plain (fun c hc => (p.plain_joined c hc).1) (by omega)]
  exact reverse_joined (fun d hd hmem => (p.plain d hd _ hmem).2.2.2.2 rfl) p.ne

/-- The name, by what is written for the components from the last on. -/
theorem SockPath.name (stack : List Text) (size : Nat) :
    path2hostlocal none stack p.text size =
      path2hostlocal.scan (joined '/' p.comps.reverse) stack ++
        afunixdom (size - (path2hostlocal.scan (joined '/' p.comps.reverse) stack).length) := by
  unfold path2hostlocal SockPath.text
  simp only [List.head?_cons, if_true, List.tail_cons, p.reversed]

/-- When a name gives back the path. -/
theorem SockPath.back_iff {host : Text} (hplain : Plain host) (hlen : host.length < 256)
    {psize : Nat} (hsize : 256 ≤ psize) :
    hostlocal2path none host psize = some p.text ↔ ∃ x, host = x ++ VSA_afunixdom ∧
      hostlocal2path.loop 255 (x ++ ['.']) = flat '/' p.comps.reverse := by
  have hback : ∀ x, host = x ++ VSA_afunixdom → hostlocal2path none host psize =
      some (reverseDomainX.loop '/' ['/'] (hostlocal2path.loop 255 (x ++ ['.']))) := by
    rintro x rfl
    have htail : strtailstr (x ++ VSA_afunixdom) VSA_afunixdom = true :=
      List.isSuffixOf_iff_suffix.mpr (List.suffix_append _ _)
    have hblank : ∀ c ∈ x ++ VSA_afunixdom, wordBlank c = false := by
      intro c hc
      have hlow := (hplain c hc).1
      have hne : ∀ d : Char, d.toNat < 33 → (c == d) = false := by
        intro d hd
        apply beq_eq_false_iff_ne.mpr
        rintro rfl
        omega
      unfold wordBlank
      rw [hne _ (by decide), hne _ (by decide), hne _ (by decide), hne _ (by decide),
        hne _ (by decide)]
      rfl
    have hword : (wordscanX psize (x ++ VSA_afunixdom)).1 = x ++ VSA_afunixdom := by
      unfold wordscanX
      dsimp only
      rw [List.dropWhile_eq_self_iff.mpr (fun h0 => by simp [hblank _ (List.getElem_mem h0)]),
        List.takeWhile_eq_self_iff.mpr (fun c hc => by simp [hblank c hc]),
        List.take_of_length_le (by omega)]
    have hcut : (x ++ VSA_afunixdom).take ((x ++ VSA_afunixdom).length - VSA_afunixdom.length + 1) =
        x ++ ['.'] := by
      rw [List.length_append, Nat.add_sub_cancel, List.take_length_add_append]
      rfl
    have hx : Plain (x ++ ['.']) := by
      intro c hc
      rcases List.mem_append.mp hc with hc | hc
      · exact hplain c (List.mem_append_left _ hc)
      · rw [List.mem_singleton.mp hc]
        decide
    have hread : ∀ c ∈ hostlocal2path.loop 255 (x ++ ['.']), 33 ≤ c.toNat := by
      intro c hc
      rcases mem_loop hx hc with rfl | hc
      · decide
      · exact (hx c hc).1
    have hnul : (hostlocal2path.loop 255 (x ++ ['.'])).takeWhile (· ≠ '\x00') =
        hostlocal2path.loop 255 (x ++ ['.']) := by
      apply List.takeWhile_eq_self_iff.mpr
      intro c hc
      apply decide_eq_true
      rintro rfl
      exact absurd (hread _ hc) (by decide)
    have hshort : (hostlocal2path.loop 255 (x ++ ['.'])).length < 1024 := by
      have hweight := loop_weight hx (n := 255) (by
        rw [List.length_append] at hlen ⊢
        rw [List.length_singleton]
        simp only [VSA_afunixdom, List.length_cons, List.length_nil] at hlen
        omega)
      rw [length_encoded, List.length_append, List.length_singleton] at hweight
      rw [List.length_append] at hlen
      omega
    unfold hostlocal2path
    rw [if_pos htail, hword]
    dsimp only
    rw [hcut, hnul, reverseDomainX, lineScan_of_plain hread hshort]
    rfl
  have htext : p.text = joined '/' ([] :: p.comps) := by
    rw [joined_cons [] p.ne]
    rfl
  have hslash : ∀ d ∈ [] :: p.comps, '/' ∉ d := by
    intro d hd hmem
    rcases List.mem_cons.mp hd with rfl | hd
    · cases hmem
    · exact (p.plain d hd _ hmem).2.2.2.2 rfl
  have hflat : joined '/' ([] :: p.comps).reverse = flat '/' p.comps.reverse := by
    rw [List.reverse_cons, joined_concat, List.append_nil]
  constructor
  · intro h
    by_cases htail : strtailstr host VSA_afunixdom = true
    · obtain ⟨x, hx⟩ := List.isSuffixOf_iff_suffix.mp htail
      refine ⟨x, hx.symm, ?_⟩
      rw [hback x hx.symm, htext] at h
      rw [← hflat]
      exact reverse_eq_joined hslash (List.cons_ne_nil _ _) (Option.some.inj h)
    · rw [hostlocal2path, if_neg htail] at h
      cases h
  · rintro ⟨x, hx, hread⟩
    have hrev := @reverse_joined ([] :: p.comps).reverse
      (fun d hd => hslash d (List.mem_reverse.mp hd)) (by simp)
    rw [hflat, List.reverse_reverse, ← htext] at hrev
    rw [hback x hx, hread, hrev]

/-- When a path is kept: it has no colon, no component but the last begins with a dot, and the
domain fits in what is left of the size, or nothing is left. -/
structure SockPath.Kept (size : Nat) : Prop where
  colon : ':' ∉ joined '/' p.comps
  dots : ∀ d ∈ p.comps.dropLast, d.head? ≠ some '.'
  room : p.hostLength = size ∨ p.hostLength + 9 < size

theorem SockPath.hostLength_lt : p.hostLength < 200 := by
  have hshort := p.short
  have hcount : (joined '/' p.comps).count '.' ≤ (joined '/' p.comps).length := List.count_le_length
  rw [SockPath.hostLength]
  omega

theorem SockPath.plain_reversed : Plain (joined '/' p.comps.reverse) :=
  fun c hc => p.plain_joined c (p.perm.mem_iff.mp hc)

/-- A colon in the path is not in its name, when nothing stands behind the local buffer. -/
theorem SockPath.not_colon {size psize : Nat} (hsize : 256 ≤ psize)
    (h : hostlocal2path none (path2hostlocal none [] p.text size) psize = some p.text) :
    ':' ∉ joined '/' p.comps := by
  intro hcolon
  have hshort := p.short
  have hloop := length_loop_nil (joined '/' p.comps.reverse)
  have hname := p.name [] size
  have hdom := afunixdom_length (size - (path2hostlocal.loop [] (joined '/' p.comps.reverse)).length)
  rw [path2hostlocal.scan] at hname
  have hplain : Plain (path2hostlocal none [] p.text size) := by
    intro c hc
    rw [hname] at hc
    rcases List.mem_append.mp hc with hc | hc
    · rcases mem_loop_nil hc with rfl | ⟨hc, -⟩
      · decide
      · exact p.plain_reversed c hc
    · exact plain_afunixdom _ c hc
  have hlen : (path2hostlocal none [] p.text size).length < 256 := by
    rw [hname, List.length_append]
    rw [p.perm.length_eq] at hloop
    omega
  obtain ⟨x, hx, hread⟩ := (p.back_iff hplain hlen hsize).mp h
  have hmem : ':' ∈ hostlocal2path.loop 255 (x ++ ['.']) := by
    rw [hread, ← joined_slash p.reverse_ne]
    exact List.mem_append_left _ (p.perm.mem_iff.mpr hcolon)
  have hxplain : Plain (x ++ ['.']) := by
    intro c hc
    rcases List.mem_append.mp hc with hc | hc
    · exact hplain c (hx ▸ List.mem_append_left _ hc)
    · rw [List.mem_singleton.mp hc]
      decide
  rcases mem_loop hxplain hmem with hslash | hmem
  · exact absurd hslash (by decide)
  rcases List.mem_append.mp hmem with hmem | hmem
  · have hhost : ':' ∈ path2hostlocal none [] p.text size := hx ▸ List.mem_append_left _ hmem
    rw [hname] at hhost
    rcases List.mem_append.mp hhost with hhost | hhost
    · rcases mem_loop_nil hhost with hdot | ⟨-, hne⟩
      · exact absurd hdot (by decide)
      · exact hne rfl
    · have hin : ':' ∈ VSA_afunixdom := by
        unfold afunixdom at hhost
        split at hhost
        · exact hhost
        · exact List.mem_of_mem_take hhost
      exact absurd hin (by simp [VSA_afunixdom])
  · exact absurd (List.mem_singleton.mp hmem) (by decide)

/-- Without a colon, the path is given back if its components and the room allow it. -/
theorem SockPath.back_of_no_colon {size psize : Nat} (hsize : 256 ≤ psize)
    (hcolon : ':' ∉ joined '/' p.comps) (stack : List Text) :
    hostlocal2path none (path2hostlocal none stack p.text size) psize = some p.text ↔
      (∀ d ∈ p.comps.dropLast, d.head? ≠ some '.') ∧
        (p.hostLength = size ∨ p.hostLength + 9 < size) := by
  have hlt := p.hostLength_lt
  have hname := p.name stack size
  rw [scan_of_no_colon (fun hmem => hcolon (p.perm.mem_iff.mp hmem)), p.length_name] at hname
  have hlength := p.length_name
  generalize hE : (joined '/' p.comps.reverse).flatMap encoded = E at hname hlength
  have hdom := afunixdom_length (size - p.hostLength)
  have hplain : Plain (path2hostlocal none stack p.text size) := by
    intro c hc
    rw [hname] at hc
    rcases List.mem_append.mp hc with hc | hc
    · exact plain_encoded p.plain_reversed c (hE ▸ hc)
    · exact plain_afunixdom _ c hc
  have hlen : (path2hostlocal none stack p.text size).length < 256 := by
    rw [hname, List.length_append]
    omega
  have hdots : E ++ ['.'] = dotted p.comps.reverse := by
    rw [← hE]
    exact joined_encoded p.reverse_ne
  have hflat : (flat '/' p.comps.reverse).length ≤ 100 := by
    have hshort := p.short
    rw [← joined_slash p.reverse_ne, List.length_append, p.perm.length_eq, List.length_singleton]
    omega
  have hroom : afunixdom (size - p.hostLength) = VSA_afunixdom ↔
      p.hostLength = size ∨ p.hostLength + 9 < size := by
    rw [afunixdom_eq_iff]
    omega
  have hiff : hostlocal2path.loop 255 (E ++ ['.']) = flat '/' p.comps.reverse ↔
      ∀ d ∈ p.comps.dropLast, d.head? ≠ some '.' := by
    obtain ⟨m, hm⟩ : ∃ m, 255 = (flat '/' p.comps.reverse).length + m := 
      ⟨255 - (flat '/' p.comps.reverse).length, by omega⟩
    have hloop := @loop_dotted_iff p.comps.reverse
      (fun d hd => p.full d (List.mem_reverse.mp hd))
      (fun d hd c hc => (p.plain d (List.mem_reverse.mp hd) c hc).2.2) m
    rw [hdots, hm, hloop, List.tail_reverse]
    simp only [List.mem_reverse]
  rw [p.back_iff hplain hlen hsize, ← hroom, ← hiff]
  constructor
  · rintro ⟨x, hx, hread⟩
    rw [hname] at hx
    by_cases heq : afunixdom (size - p.hostLength) = VSA_afunixdom
    · rw [heq] at hx
      rw [List.append_cancel_right hx]
      exact ⟨hread, heq⟩
    · have hless := length_lt_of_ne heq
      have hxplain : Plain (x ++ ['.']) := by
        intro c hc
        rcases List.mem_append.mp hc with hc | hc
        · apply hplain c
          rw [hname, hx]
          exact List.mem_append_left _ hc
        · rw [List.mem_singleton.mp hc]
          decide
      have hxlen := congrArg List.length hx
      have hnine : VSA_afunixdom.length = 9 := rfl
      rw [List.length_append, List.length_append, hnine] at hxlen
      have hweight := loop_weight hxplain (n := 255) (by
        rw [List.length_append, List.length_singleton]
        omega)
      rw [hread, flat_encoded, ← hdots, List.length_append, List.length_append,
        List.length_singleton] at hweight
      omega
  · rintro ⟨hread, heq⟩
    exact ⟨E, by rw [hname, heq], hread⟩

/-- A path is given back, whatever stands behind the local buffer, if and only if it is kept; and two
kept paths have different names. -/
theorem hostlocal_faithful_iff {psize : Nat} (hsize : 256 ≤ psize) (size : Nat) :
    ((∀ stack, hostlocal2path none (path2hostlocal none stack p.text size) psize = some p.text) ↔
      p.Kept size) ∧
    ∀ q : SockPath, p.Kept size → q.Kept size → ∀ stack stack',
      path2hostlocal none stack p.text size = path2hostlocal none stack' q.text size →
        p.text = q.text := by
  have hback : ∀ q : SockPath, q.Kept size → ∀ stack,
      hostlocal2path none (path2hostlocal none stack q.text size) psize = some q.text :=
    fun q hq stack => (q.back_of_no_colon hsize hq.colon stack).mpr ⟨hq.dots, hq.room⟩
  refine ⟨⟨?_, hback p⟩, ?_⟩
  · intro h
    have hcolon := p.not_colon hsize (h [])
    obtain ⟨hdots, hroom⟩ := (p.back_of_no_colon hsize hcolon []).mp (h [])
    exact ⟨hcolon, hdots, hroom⟩
  · intro q hp hq stack stack' hname
    have hpback := hback p hp stack
    rw [hname, hback q hq stack'] at hpback
    exact (Option.some.inj hpback).symm

end

/-- `/tmp/.X11` -/
def x11 : SockPath where
  comps := [['t', 'm', 'p'], ['.', 'X', '1', '1']]
  ne := by simp
  full := by simp
  plain := by simp
  short := by simp [joined]

/-- There and back through a buffer of 128 bytes. -/
theorem x11_back :
    hostlocal2path none (path2hostlocal none [] x11.text 128) 256 = some x11.text := by
  have hkept : x11.Kept 128 := by
    refine ⟨by simp [x11, joined], by simp [x11], .inr ?_⟩
    simp [SockPath.hostLength, x11, joined]
  exact ((hostlocal_faithful_iff x11 (Nat.le_refl 256) 128).1.mpr hkept) []

/-- `/.X/b` -/
def dotDir : SockPath where
  comps := [['.', 'X'], ['b']]
  ne := by simp
  full := by simp
  plain := by simp
  short := by simp [joined]

/-- `/a:b` -/
def withColon : SockPath where
  comps := [['a', ':', 'b']]
  ne := by simp
  full := by simp
  plain := by simp
  short := by simp [joined]

/-- A component that begins with a dot, and a colon, are lost; and in a name of 12 bytes the domain
is cut. -/
theorem dot_and_colon_lost :
    hostlocal2path none (path2hostlocal none [] dotDir.text 512) 512 ≠ some dotDir.text ∧
      hostlocal2path none (path2hostlocal none [] withColon.text 512) 512 ≠ some withColon.text ∧
      hostlocal2path none (path2hostlocal none [] x11.text 12) 512 ≠ some x11.text := by
  refine ⟨?_, ?_, ?_⟩
  · intro h
    have hcolon : ':' ∉ joined '/' dotDir.comps := by simp [dotDir, joined]
    obtain ⟨hdots, -⟩ := (dotDir.back_of_no_colon (by omega) hcolon []).mp h
    exact hdots ['.', 'X'] (by simp [dotDir]) rfl
  · intro h
    exact withColon.not_colon (by omega) h (by simp [withColon, joined])
  · intro h
    have hcolon : ':' ∉ joined '/' x11.comps := by simp [x11, joined]
    obtain ⟨-, hroom⟩ := (x11.back_of_no_colon (by omega) hcolon []).mp h
    simp [SockPath.hostLength, x11, joined] at hroom

end delegate.vsaddr
