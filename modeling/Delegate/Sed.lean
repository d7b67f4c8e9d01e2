-- The commands of sed (rary/sed.cpp): a substitution looks for the next match
-- from the end of the last one on, so it goes on only behind a match that is not
-- empty.
import Delegate.Tlex

open ctext

namespace delegate.sed

open tlex

/-! ## The pure model -/

/-- `SedCom`, with the flags of `c_com`. -/
structure SedCom where
  subst : Bool := false
  delete : Bool := false
  print : Bool := false
  glob : Bool := false
  c_matchtotail : Bool := false
  c_matchrex : Option FA := none
  c_srcrex : Option FA := none
  c_outpat : Text := []
deriving DecidableEq, Repr

/-- `scan_pat`: the pattern, and the text from the delimiter on, or after it with `skip`. -/
def scan_pat (str : Text) (delch : Char) (rexp skip : Bool) : Text × Text :=
  let sp := if rexp && str.head? == some '^' then str.tail else str
  let wild := if rexp && str.head? != some '^' then ['*'] else []
  let com := sp.dropWhile (· ≠ delch)
  (wild ++ sp.takeWhile (· ≠ delch), if skip then com.tail else com)

/-- `scan_attail`: the pattern without a `$` at its end, and whether there was one. -/
def scan_attail (str : Text) : Text × Bool :=
  if str.getLast? = some '$' then (str.dropLast, true) else (str, false)

/-- The address of a command. -/
def sed_compile.address (com : Text) : Option (SedCom × Text) :=
  if com.head? = some '/' then
    let p := scan_pat com.tail '/' true true
    let tail := scan_attail p.1
    (frex_create tail.1).map fun rex => ({ c_matchtotail := tail.2, c_matchrex := some rex }, p.2)
  else some ({}, com)

/-- The flags of a command. -/
def sed_compile.flag (sc : SedCom) (ch : Char) : SedCom :=
  if ch = 'd' then { sc with delete := true }
  else if ch = 'g' then { sc with glob := true }
  else if ch = 'p' then { sc with print := true }
  else sc

/-- `sed_compile`: the command, where its expressions are compiled. After the `s` there is a delimiter;
at the end of the command the code goes on behind it. -/
def sed_compile (command : Text) : Option SedCom := do
  let (sc, com) ← sed_compile.address command
  match com with
  | 's' :: delch :: com =>
    let src := scan_pat com delch true false
    let srcrex ← frex_create src.1
    let out := if src.2.head? = some delch then scan_pat src.2.tail delch false false else ([], src.2)
    let sc := { sc with subst := true, c_srcrex := some srcrex, c_outpat := out.1 }
    some (out.2.foldl sed_compile.flag sc)
  | ['s'] => none
  | _ => some (com.foldl sed_compile.flag sc)

/-- `sed_fmt`: the replacement for a match. -/
def sed_fmt (sc : SedCom) (spat : Text) : Text :=
  sc.c_outpat.flatMap fun fc => if fc = '&' then spat else [fc]

/-- The lines and `match`. -/
structure Lines where
  iline : Text
  oline : Text
  matched : Bool := false
  deleted : Bool := false
  substituted : Bool := false
deriving DecidableEq, Repr

/-- The loop of a substitution, with the output before `op`. It is `none` where the rounds do not
suffice, and `some none` where a match has no start, which the code computes a length from. -/
def substLoop (sc : SedCom) (srcrex : FA) : Nat → Text → Text → Option (Option Text)
  | 0, _, _ => none
  | n + 1, ip, op =>
    match frex_matchX srcrex ip with
    | none => some (some (op ++ ip))
    | some (none, _) => some none
    | some (some start, next) =>
      let op := op ++ ip.take start ++ sed_fmt sc ((ip.take next).drop start)
      if sc.glob then substLoop sc srcrex n (ip.drop next) op else some (some (op ++ ip.drop next))

/-- The address of the command matches. -/
def addressed (sc : SedCom) (iline : Text) : Bool :=
  match sc.c_matchrex with
  | none => true
  | some rex =>
    match frex_matchX rex iline with
    | none => false
    | some (_, next) => !(sc.c_matchtotail && next != iline.length)

/-- One command in the loop of `apply_commands`. -/
def apply_command (n : Nat) (s_noecho : Bool) (sc : SedCom) (ls : Lines) : Option (Option Lines) :=
  if s_noecho && !sc.print then some (some ls)
  else if addressed sc ls.iline = false then some (some ls)
  else
    let ls := if sc.c_matchrex.isSome then { ls with matched := true } else ls
    if sc.delete then some (some { ls with iline := [], oline := [], deleted := true })
    else
      match sc.c_srcrex with
      | none => some (some ls)
      | some srcrex =>
        (substLoop sc srcrex n ls.iline []).map fun r => r.map fun oline =>
          { ls with
            iline := oline
            oline
            substituted := ls.substituted || (frex_matchX srcrex ls.iline).isSome }

/-- `apply_commands` -/
def apply_commands (n : Nat) (s_noecho : Bool) : List SedCom → Lines → Option (Option Lines)
  | [], ls => some (some ls)
  | sc :: se, ls =>
    match apply_command n s_noecho sc ls with
    | some (some ls) => apply_commands n s_noecho se ls
    | r => r

/-- `sed_execute1` -/
def sed_execute1 (n : Nat) (s_noecho : Bool) (se : List SedCom) (inp out : Text) :
    Option (Option Text) :=
  (apply_commands n s_noecho se { iline := inp, oline := out }).map fun r => r.map Lines.oline

/-! ## Rounds of a substitution -/

/-- The places where a round of the substitution begins. There is a next one with the flag `g` only. -/
inductive Rounds (glob : Bool) (fa : FA) : Text → Text → Prop
  | here (ip : Text) : Rounds glob fa ip ip
  | later {ip ip' : Text} {start next : Nat} : glob = true →
      frex_matchX fa ip = some (some start, next) → Rounds glob fa (ip.drop next) ip' →
      Rounds glob fa ip ip'

/-- A match at the place has a start, and with the flag `g` the automaton does not accept before the
first character. -/
structure Sound (glob : Bool) (fa : FA) (ip : Text) : Prop where
  start : ∀ r, frex_matchX fa ip = some r → r.1 ≠ none
  nonempty : glob = true → ¬accepts fa ip

/-- The rest after a match is shorter. -/
theorem Sound.shorter {glob : Bool} {fa : FA} {ip : Text} {start : Option Nat} {next : Nat}
    (h : Sound glob fa ip) (hglob : glob = true) (hm : frex_matchX fa ip = some (start, next)) :
    (ip.drop next).length < ip.length := by
  have hnext : next ≠ 0 := by
    rintro rfl
    exact h.nonempty hglob (accepts_of_empty hm)
  have hip : ip ≠ [] := by
    rintro rfl
    refine hnext ?_
    rw [frex_matchX_eq] at hm
    dsimp only at hm
    split at hm
    · rw [Option.some.injEq, Prod.mk.injEq] at hm
      rw [← hm.2, ended_nil]
    · cases hm
  have hpos := List.length_pos_iff.mpr hip
  rw [List.length_drop]
  omega

theorem substLoop_of_sound {sc : SedCom} {fa : FA} {n : Nat} {ip : Text} (op : Text)
    (hn : ip.length < n) (h : ∀ ip', Rounds sc.glob fa ip ip' → Sound sc.glob fa ip') :
    ∃ out, substLoop sc fa n ip op = some (some out) := by
  induction n generalizing ip op with
  | zero => exact absurd hn (Nat.not_lt_zero _)
  | succ n ih =>
    have hip := h ip (.here ip)
    unfold substLoop
    split
    · exact ⟨_, rfl⟩
    · rename_i hm
      exact absurd rfl (hip.start _ hm)
    · rename_i start next hm
      dsimp only
      split
      · rename_i hglob
        have hlt := hip.shorter hglob hm
        exact ih _ (by omega) fun ip' hr => h ip' (.later hglob hm hr)
      · exact ⟨_, rfl⟩

theorem sound_of_substLoop {sc : SedCom} {fa : FA} {n : Nat} {ip op out : Text}
    (h : substLoop sc fa n ip op = some (some out)) :
    ∀ ip', Rounds sc.glob fa ip ip' → Sound sc.glob fa ip' := by
  induction n generalizing ip op with
  | zero => cases h
  | succ n ih =>
    unfold substLoop at h
    split at h
    · rename_i hm
      have hno : ¬accepts fa ip := by
        rintro (hx | ⟨rfl, he⟩)
        · exact frex_matchX_ne_none hx ip hm
        · rw [frex_matchX_nil (.inr ⟨rfl, he⟩)] at hm
          cases hm
      intro ip' hr
      cases hr with
      | here =>
        refine ⟨fun r hr => ?_, fun _ => hno⟩
        rw [hm] at hr
        cases hr
      | later _ hm' _ =>
        rw [hm] at hm'
        cases hm'
    · cases h
    · rename_i start next hm
      dsimp only at h
      have hstart : ∀ r, frex_matchX fa ip = some r → r.1 ≠ none := by
        intro r hr
        rw [hm] at hr
        rw [← Option.some.inj hr]
        simp
      by_cases hglob : sc.glob = true
      · rw [if_pos hglob] at h
        have hrest := ih h
        intro ip' hr
        cases hr with
        | here =>
          refine ⟨hstart, fun _ hacc => ?_⟩
          -- The automaton accepts after the match as well.
          refine (hrest _ (.here _)).nonempty hglob ?_
          rcases hacc with hx | ⟨rfl, he⟩
          · exact .inl hx
          · exact .inr ⟨List.drop_nil, he⟩
        | later _ hm' hr' =>
          rw [hm, Option.some.injEq, Prod.mk.injEq] at hm'
          exact hrest ip' (hm'.2 ▸ hr')
      · intro ip' hr
        cases hr with
        | here => exact ⟨hstart, fun hg => absurd hg hglob⟩
        | later hg => exact absurd hg hglob

/-- With more rounds the result is the same. -/
theorem substLoop_mono {sc : SedCom} {fa : FA} {n m : Nat} {ip op : Text} {r : Option Text}
    (h : substLoop sc fa n ip op = some r) (hnm : n ≤ m) : substLoop sc fa m ip op = some r := by
  induction n generalizing m ip op with
  | zero => cases h
  | succ n ih =>
    obtain ⟨m, rfl⟩ : ∃ k, m = k + 1 := ⟨m - 1, by omega⟩
    unfold substLoop at h ⊢
    cases hm : frex_matchX fa ip with
    | none =>
      rw [hm] at h
      exact h
    | some found =>
      rw [hm] at h
      obtain ⟨_ | start, next⟩ := found
      · exact h
      · dsimp only at h ⊢
        by_cases hglob : sc.glob = true
        · rw [if_pos hglob] at h ⊢
          exact ih h (by omega)
        · rw [if_neg hglob] at h ⊢
          exact h

/-- A substitution ends exactly if its rounds are sound. -/
theorem substLoop_ends {sc : SedCom} {fa : FA} {ip op : Text} :
    (∃ n out, substLoop sc fa n ip op = some (some out)) ↔
      ∀ ip', Rounds sc.glob fa ip ip' → Sound sc.glob fa ip' := by
  constructor
  · rintro ⟨n, out, h⟩
    exact sound_of_substLoop h
  · intro h
    obtain ⟨out, hout⟩ := substLoop_of_sound op (Nat.lt_succ_self ip.length) h
    exact ⟨_, out, hout⟩

/-! ## Runs of commands -/

/-- The command is executed on the line, and substitutes. -/
def Substitutes (s_noecho : Bool) (sc : SedCom) (iline : Text) (fa : FA) : Prop :=
  (s_noecho && !sc.print) = false ∧ addressed sc iline = true ∧ sc.delete = false ∧
    sc.c_srcrex = some fa

/-- The rounds of the command on the line are sound. -/
def SoundCommand (s_noecho : Bool) (sc : SedCom) (iline : Text) : Prop :=
  ∀ fa, Substitutes s_noecho sc iline fa → ∀ ip, Rounds sc.glob fa iline ip → Sound sc.glob fa ip

/-- The commands that are reached, each with its line. -/
inductive Reached (s_noecho : Bool) : List SedCom → Lines → SedCom → Text → Prop
  | here (sc : SedCom) (se : List SedCom) (ls : Lines) :
      Reached s_noecho (sc :: se) ls sc ls.iline
  | later {sc sc' : SedCom} {se : List SedCom} {ls ls' : Lines} {n : Nat} {iline : Text} :
      apply_command n s_noecho sc ls = some (some ls') → Reached s_noecho se ls' sc' iline →
      Reached s_noecho (sc :: se) ls sc' iline

/-- A command that does not substitute ends at once, and one that does ends with its substitution. -/
theorem apply_command_cases (s_noecho : Bool) (sc : SedCom) (ls : Lines) :
    ((¬∃ fa, Substitutes s_noecho sc ls.iline fa) ∧
        ∃ ls', ∀ n, apply_command n s_noecho sc ls = some (some ls')) ∨
      ∃ fa, Substitutes s_noecho sc ls.iline fa ∧ ∃ after : Text → Lines,
        ∀ n, apply_command n s_noecho sc ls =
          (substLoop sc fa n ls.iline []).map fun r => r.map after := by
  unfold apply_command Substitutes
  by_cases hecho : (s_noecho && !sc.print) = true
  · refine .inl ⟨?_, ls, fun n => if_pos hecho⟩
    rintro ⟨fa, h, -⟩
    rw [hecho] at h
    cases h
  · simp only [if_neg hecho]
    by_cases haddr : addressed sc ls.iline = false
    · refine .inl ⟨?_, ls, fun n => if_pos haddr⟩
      rintro ⟨fa, -, h, -⟩
      rw [haddr] at h
      cases h
    · simp only [if_neg haddr]
      by_cases hdel : sc.delete = true
      · refine .inl ⟨?_, _, fun n => if_pos hdel⟩
        rintro ⟨fa, -, -, h, -⟩
        rw [hdel] at h
        cases h
      · simp only [if_neg hdel]
        cases hsrc : sc.c_srcrex with
        | none => exact .inl ⟨by simp, _, fun n => rfl⟩
        | some fa =>
          refine .inr ⟨fa, ⟨by simpa using hecho, by simpa using haddr, by simpa using hdel, rfl⟩,
            fun oline =>
              { ls with
                iline := oline
                oline
                matched := if sc.c_matchrex.isSome then true else ls.matched
                substituted := ls.substituted || (frex_matchX fa ls.iline).isSome }, fun n => ?_⟩
          dsimp only
          split <;> rfl

theorem apply_command_mono {s_noecho : Bool} {sc : SedCom} {ls : Lines} {n m : Nat}
    {r : Option Lines} (h : apply_command n s_noecho sc ls = some r) (hnm : n ≤ m) :
    apply_command m s_noecho sc ls = some r := by
  rcases apply_command_cases s_noecho sc ls with ⟨-, ls', hall⟩ | ⟨fa, -, after, hall⟩
  · rw [hall] at h ⊢
    exact h
  · rw [hall] at h ⊢
    obtain ⟨r', hr', hr⟩ := Option.map_eq_some_iff.mp h
    rw [substLoop_mono hr' hnm]
    exact congrArg some hr

/-- A command ends exactly if its rounds are sound. -/
theorem apply_command_ends {s_noecho : Bool} {sc : SedCom} {ls : Lines} :
    (∃ n ls', apply_command n s_noecho sc ls = some (some ls')) ↔
      SoundCommand s_noecho sc ls.iline := by
  unfold SoundCommand
  rcases apply_command_cases s_noecho sc ls with ⟨hno, ls', hall⟩ | ⟨fa, hsub, after, hall⟩
  · exact ⟨fun _ fa hfa => absurd ⟨fa, hfa⟩ hno, fun _ => ⟨0, ls', hall 0⟩⟩
  · have hsame : ∀ fa', Substitutes s_noecho sc ls.iline fa' → fa' = fa := by
      intro fa' h
      have heq := h.2.2.2
      rw [hsub.2.2.2] at heq
      exact (Option.some.inj heq).symm
    constructor
    · rintro ⟨n, ls', h⟩ fa' hfa'
      rw [hall] at h
      obtain ⟨r, hr, hmap⟩ := Option.map_eq_some_iff.mp h
      obtain ⟨out, rfl, -⟩ := Option.map_eq_some_iff.mp hmap
      rw [hsame fa' hfa']
      exact sound_of_substLoop hr
    · intro h
      obtain ⟨n, out, hout⟩ := (@substLoop_ends sc fa ls.iline []).mpr (h fa hsub)
      exact ⟨n, after out, by rw [hall, hout]; rfl⟩

theorem apply_commands_mono {s_noecho : Bool} {se : List SedCom} {ls : Lines} {n m : Nat}
    {r : Option Lines} (h : apply_commands n s_noecho se ls = some r) (hnm : n ≤ m) :
    apply_commands m s_noecho se ls = some r := by
  induction se generalizing ls with
  | nil => exact h
  | cons sc se ih =>
    unfold apply_commands at h ⊢
    cases hcmd : apply_command n s_noecho sc ls with
    | none =>
      rw [hcmd] at h
      cases h
    | some r' =>
      rw [apply_command_mono hcmd hnm]
      rw [hcmd] at h
      cases r' with
      | none => exact h
      | some ls₁ => exact ih h

/-- The commands end exactly if the rounds of each command that is reached are sound. -/
theorem apply_commands_sound {s_noecho : Bool} {se : List SedCom} {ls : Lines} :
    (∃ n ls', apply_commands n s_noecho se ls = some (some ls')) ↔
      ∀ sc iline, Reached s_noecho se ls sc iline → SoundCommand s_noecho sc iline := by
  induction se generalizing ls with
  | nil =>
    constructor
    · intro _ sc iline h
      cases h
    · exact fun _ => ⟨0, ls, rfl⟩
  | cons sc se ih =>
    constructor
    · rintro ⟨n, ls', h⟩
      unfold apply_commands at h
      cases hcmd : apply_command n s_noecho sc ls with
      | none =>
        rw [hcmd] at h
        cases h
      | some r =>
        rw [hcmd] at h
        cases r with
        | none => cases h
        | some ls₁ =>
          intro sc' iline hr
          cases hr with
          | here => exact apply_command_ends.mp ⟨n, ls₁, hcmd⟩
          | @later _ _ _ _ ls₂ m _ hcmd₂ hr =>
            -- Both numbers of rounds give the same lines.
            have h₁ := apply_command_mono hcmd (Nat.le_max_left n m)
            have h₂ := apply_command_mono hcmd₂ (Nat.le_max_right n m)
            rw [h₁, Option.some.injEq, Option.some.injEq] at h₂
            exact ih.mp ⟨n, ls', h⟩ sc' iline (h₂ ▸ hr)
    · intro h
      obtain ⟨n, ls₁, hcmd⟩ := apply_command_ends.mpr (h sc ls.iline (.here sc se ls))
      obtain ⟨m, ls', hrest⟩ := ih.mpr fun sc' iline hr => h sc' iline (.later hcmd hr)
      refine ⟨max n m, ls', ?_⟩
      unfold apply_commands
      rw [apply_command_mono hcmd (Nat.le_max_left n m)]
      exact apply_commands_mono hrest (Nat.le_max_right n m)

/-- The commands end, and each further round of a substitution begins at a later place. -/
structure Ends (s_noecho : Bool) (se : List SedCom) (ls : Lines) : Prop where
  ends : ∃ n ls', apply_commands n s_noecho se ls = some (some ls')
  later : ∀ sc iline fa ip start next, Reached s_noecho se ls sc iline →
    Substitutes s_noecho sc iline fa → sc.glob = true → Rounds sc.glob fa iline ip →
    frex_matchX fa ip = some (start, next) → (ip.drop next).length < ip.length

/-- The commands end, each round behind the last one, exactly if no round that is reached begins where
the automaton accepts already, and no match has lost its start. -/
theorem apply_commands_ends_iff (s_noecho : Bool) (se : List SedCom) (ls : Lines) :
    Ends s_noecho se ls ↔
      ∀ sc iline, Reached s_noecho se ls sc iline → SoundCommand s_noecho sc iline := by
  constructor
  · exact fun h => apply_commands_sound.mp h.ends
  · intro h
    refine ⟨apply_commands_sound.mpr h, fun sc iline fa ip start next hr hsub hglob hround hm => ?_⟩
    exact (h sc iline hr fa hsub ip hround).shorter hglob hm

/-- `s/^//g` -/
def emptyPattern : Text := ['s', '/', '^', '/', '/', 'g']

/-- The pattern is empty, and the substitution never ends. -/
theorem empty_pattern_loops :
    ∃ sc, sed_compile emptyPattern = some sc ∧ ∀ iline oline, ¬Ends false [sc] { iline, oline } := by
  have hrex : frex_create [] = some [{ xclass := true }] := by
    unfold frex_create rexpb
    rw [List.flatMap_nil, fa_rexp.loop]
    rfl
  have hcompile : sed_compile emptyPattern =
      (frex_create []).bind fun rex => some { subst := true, glob := true, c_srcrex := some rex } := rfl
  refine ⟨{ subst := true, glob := true, c_srcrex := some [{ xclass := true }] }, ?_, ?_⟩
  · rw [hcompile, hrex]
    rfl
  · intro iline oline h
    have hsound := apply_commands_sound.mp h.ends _ _ (.here _ _ _) [{ xclass := true }]
      ⟨rfl, rfl, rfl, rfl⟩ iline (.here _)
    exact hsound.nonempty rfl (.inl rfl)

end delegate.sed
