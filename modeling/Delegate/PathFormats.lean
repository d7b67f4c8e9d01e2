-- A path format with any number of `$[server:...]` parts (evalPATHexp,
-- src/cache.cpp). The loop looks for the next part in the text that it has
-- already written, so text of a request can be taken for a part.
import Delegate.CachePath

open ctext

namespace delegate.cache

/-! ## Formats as they are meant -/

/-- The escapes `%%`, `%P`, `%H`, `%T`, `%L`, `%p` and `%u`. -/
inductive Spec
  | percent | P | H | T | L | p | u
  deriving DecidableEq, Repr

def Spec.letter : Spec → Char
  | .percent => '%'
  | .P => 'P'
  | .H => 'H'
  | .T => 'T'
  | .L => 'L'
  | .p => 'p'
  | .u => 'u'

/-- A character of a part, or an escape. -/
inductive Piece
  | chr (c : Char) (plain : c ≠ ']' ∧ c ≠ '%')
  | spec (s : Spec)

abbrev Body := List Piece

def Piece.text : Piece → Text
  | .chr c _ => [c]
  | .spec s => ['%', s.letter]

def Body.text (F : Body) : Text := F.flatMap Piece.text

def Piece.isSpec : Piece → Bool
  | .chr _ _ => false
  | .spec _ => true

/-- What an escape stands for. -/
def Spec.value (env : Env) (a : Args) : Spec → Text
  | .percent => ['%']
  | .P => a.proto
  | .H => a.server
  | .T => decInt a.port
  | .L => serverPort env a
  | .p => a.path
  | .u => a.proto ++ [':', '/', '/'] ++ a.server ++ [':'] ++ decInt a.port ++ ['/'] ++ a.path

def Piece.value (env : Env) (a : Args) : Piece → Text
  | .chr c _ => [c]
  | .spec s => s.value env a

def Body.value (env : Env) (a : Args) (F : Body) : Text := F.flatMap (Piece.value env a)

/-- A part, and the literal text behind it. -/
abbrev Part := Body × Text

def formatText (parts : List Part) : Text :=
  parts.flatMap fun p => beginServer ++ (p.1.text ++ ']' :: p.2)

def valueText (env : Env) (a : Args) (parts : List Part) : Text :=
  parts.flatMap fun p => p.1.value env a ++ p.2

/-- Where the parts stand when they are evaluated: the text before each, and what is in it. -/
def places (env : Env) (a : Args) : Text → List Part → List (Text × Text × Func)
  | _, [] => []
  | done, p :: parts =>
    (done, p.1.text, .server) :: places env a (done ++ p.1.value env a ++ p.2) parts

/-- Literal text, and parts with literal text behind them. -/
structure PathFormat where
  head : Text
  parts : List Part

def PathFormat.text (F : PathFormat) : Text := F.head ++ formatText F.parts

def PathFormat.value (env : Env) (a : Args) (F : PathFormat) : Text :=
  F.head ++ valueText env a F.parts

/-! ## What the loop evaluates -/

def Found.at (f : Found) : Text × Text × Func := (f.before, f.body, f.func)

/-- The formats that `pathLoop` evaluates in its turns. -/
def pathTurns (env : Env) (a : Args) : Nat → Text → List Found
  | 0, _ => []
  | fuel + 1, fmts =>
    match findFormat fmts with
    | none => []
    | some f =>
      let r := f.func.eval env (fmtCap - f.before.length) a f.body
      if r.1 ≤ 0 then []
      else f :: pathTurns env a fuel ((f.before ++ r.2 ++ f.after).take fmtCap)

/-- The path as `evalPATHexp` takes it. -/
def Args.cut (a : Args) : Args :=
  { a with path := if _PATH_MAX ≤ a.path.length then XStrncpy a.path _PATH_MAX else a.path }

/-- The loop ends with the value of the format, and evaluates its parts and nothing else. -/
def PathIsData (env : Env) (F : PathFormat) (a : Args) : Prop :=
  ∃ fuel, evalPATHexp env fuel F.text a = some (F.value env a) ∧
    (pathTurns env a.cut fuel (F.text.take fmtCap)).map Found.at = places env a F.head F.parts

/-- What is asked of the texts: each fits into the buffer, every part has an escape, no `$[server:`
begins before the part that is next, and in the last text nothing is found that has a value. -/
def NoneFound (env : Env) (a : Args) : Text → List Part → Prop
  | done, [] => ∀ f, findFormat done = some f →
      (f.func.eval env (fmtCap - f.before.length) a f.body).1 ≤ 0
  | done, p :: parts => (done ++ formatText (p :: parts)).length ≤ fmtCap ∧
      p.1.any Piece.isSpec = true ∧ ¬beginServer <:+: done ++ beginServer.dropLast ∧
      NoneFound env a (done ++ p.1.value env a ++ p.2) parts

/-! ## A part -/

theorem escape_spec (env : Env) (a : Args) (s : Spec) (fp : Text) :
    escape env a (s.letter :: fp) = some (s.value env a) := by
  cases s <;> rfl

theorem Body.text_cons (x : Piece) (F : Body) : Body.text (x :: F) = x.text ++ F.text := rfl

theorem Body.value_cons (env : Env) (a : Args) (x : Piece) (F : Body) :
    Body.value env a (x :: F) = x.value env a ++ F.value env a := rfl

/-- The value of a part for which there is room. -/
theorem evalLoop_body (env : Env) (a : Args) (cap : Nat) (F : Body) (fuel : Nat) (text : Text)
    (neval : Int) (hfuel : F.text.length < fuel) (hroom : text.length + (F.value env a).length ≤ cap) :
    evalLoop env fuel cap a F.text ⟨text, false⟩ neval =
      (neval + F.countP Piece.isSpec, text ++ F.value env a) := by
  induction F generalizing fuel text neval with
  | nil =>
    obtain ⟨fuel, rfl⟩ := Nat.exists_eq_succ_of_ne_zero (Nat.ne_of_gt (Nat.zero_lt_of_lt hfuel))
    simp [Body.text, Body.value, evalLoop]
  | cons x F ih =>
    obtain ⟨fuel, rfl⟩ := Nat.exists_eq_succ_of_ne_zero (Nat.ne_of_gt (Nat.zero_lt_of_lt hfuel))
    rw [Body.text_cons, List.length_append] at hfuel
    rw [Body.value_cons, List.length_append] at hroom
    rw [Body.text_cons, Body.value_cons, ← List.append_assoc]
    cases x with
    | chr c plain =>
      have hone : (Piece.value env a (.chr c plain)).length = 1 := rfl
      have htext : (Piece.text (.chr c plain)).length = 1 := rfl
      have hstep := evalLoop_literal env fuel cap a (Body.text F) text neval plain.2 (by omega)
      have hrest := ih fuel (text ++ [c]) neval (by omega)
        (by rw [List.length_append]; exact (by rw [hone] at hroom; simpa [Nat.add_assoc] using hroom))
      exact hstep.trans hrest
    | spec s =>
      have htext : (Piece.text (.spec s)).length = 2 := rfl
      have hletter : s.letter ∉ ['-', 'm', '(', 'Q'] := by cases s <;> decide
      have hfit : Out.fit ⟨text, false⟩ cap (s.value env a) = s.value env a := by
        apply fit_of_le
        exact Nat.le_trans (Nat.add_le_add_left (Nat.le_add_right _ _) _) hroom
      have hstep := evalLoop_letter env fuel cap a (Body.text F) ⟨text, false⟩ neval hletter
        (escape_spec env a s (Body.text F))
      rw [hfit] at hstep
      have hrest := ih fuel (text ++ s.value env a) (neval + 1) (by omega)
        (by rw [List.length_append, Nat.add_assoc]; exact hroom)
      have hcount : (Piece.spec s :: F).countP Piece.isSpec = F.countP Piece.isSpec + 1 :=
        List.countP_cons_of_pos rfl
      rw [hcount]
      have hsum : neval + 1 + (F.countP Piece.isSpec : Int) =
          neval + ((F.countP Piece.isSpec + 1 : Nat) : Int) := by
        push_cast
        ring
      rw [hsum] at hrest
      exact hstep.trans hrest

theorem evalServer_body (env : Env) (a : Args) (cap : Nat) (F : Body)
    (hroom : (F.value env a).length ≤ cap) :
    evalServer env cap a F.text = ((F.countP Piece.isSpec : Int), F.value env a) := by
  have hall := evalLoop_body env a cap F (F.text.length + 1) [] 0
    (Nat.lt_succ_self _) (by simpa using hroom)
  simpa [evalServer] using hall

theorem bracket_notMem (F : Body) : ']' ∉ F.text := by
  intro hmem
  obtain ⟨x, -, hx⟩ := List.mem_flatMap.mp hmem
  cases x with
  | chr c plain => exact plain.1 (List.mem_singleton.mp hx).symm
  | spec s => cases s <;> simp [Piece.text, Spec.letter] at hx

/-- A value of less than 512 characters is that of the path as it is cut. -/
theorem value_cut (env : Env) (a : Args) (F : Body) (h : (F.value env a).length < _PATH_MAX) :
    F.value env a.cut = F.value env a := by
  by_cases hlong : _PATH_MAX ≤ a.path.length
  · induction F with
    | nil => rfl
    | cons x F ih =>
      rw [Body.value_cons, List.length_append] at h
      rw [Body.value_cons, Body.value_cons, ih (by omega)]
      congr 1
      cases x with
      | chr c plain => rfl
      | spec s =>
        cases s with
        | p => exact absurd h (by simp only [Piece.value, Spec.value]; omega)
        | u =>
          refine absurd h ?_
          simp only [Piece.value, Spec.value, List.length_append]
          omega
        | _ => rfl
  · have hsame : a.cut = a := by
      unfold Args.cut
      rw [if_neg hlong]
    rw [hsame]

/-! ## Where a part is found -/

section
variable {pat done : Text}

/-- The first `pat` is found at its place if and only if none begins before it. -/
theorem strstr_place_iff (tail : Text) (hne : pat ≠ []) :
    strstr pat (done ++ (pat ++ tail)) = some (done, pat ++ tail) ↔
      ¬pat <:+: done ++ pat.dropLast := by
  have hpos := List.length_pos_iff.mpr hne
  constructor
  · rintro hfind ⟨x, y, hxy⟩
    have hpat : pat ++ tail = pat.dropLast ++ (pat.getLast hne :: tail) :=
      (congrArg (· ++ tail) (List.dropLast_append_getLast hne).symm).trans (by simp)
    have hs : done ++ (pat ++ tail) = x ++ pat ++ (y ++ (pat.getLast hne :: tail)) := by
      rw [hpat, ← List.append_assoc, ← hxy, List.append_assoc]
    have hle := strstr_first hfind hs
    have hlen := congrArg List.length hxy
    simp only [List.length_append, List.length_dropLast] at hlen
    omega
  · intro hnone
    have hsome : (strstr pat (done ++ (pat ++ tail))).isSome = true :=
      strstr_isSome_iff.mpr ⟨done, tail, List.append_assoc _ _ _⟩
    obtain ⟨⟨a, b⟩, hfind⟩ := Option.isSome_iff_exists.mp hsome
    have hle := strstr_first hfind (List.append_assoc done pat tail).symm
    obtain ⟨hab, t, rfl⟩ := strstr_some hfind
    have ha : a = done := by
      by_contra hdiff
      have hlt : a.length < done.length := by
        refine Nat.lt_of_le_of_ne hle fun heq => hdiff ?_
        exact (List.append_inj hab heq.symm).1.symm
      -- What is found before ends before the last character of `pat`.
      apply hnone
      have hpre : a ++ pat <+: done ++ pat.dropLast := by
        refine List.prefix_of_prefix_length_le (?_ : _ <+: done ++ (pat ++ tail)) ?_ ?_
        · rw [hab, ← List.append_assoc]
          exact List.prefix_append _ _
        · rw [← List.append_assoc]
          exact ((List.prefix_append_right_inj done).mpr pat.dropLast_prefix).trans
            (List.prefix_append _ _)
        · simp only [List.length_append, List.length_dropLast]
          omega
      exact (List.suffix_append a pat).isInfix.trans hpre.isInfix
    rw [ha] at hab
    rw [hfind, ha, ← List.append_cancel_left hab]

end

theorem findFormat_part (F : Body) {done : Text} (after : Text)
    (hnone : ¬beginServer <:+: done ++ beginServer.dropLast) :
    findFormat (done ++ (beginServer ++ (F.text ++ ']' :: after))) =
      some ⟨done, F.text, after, .server⟩ := by
  have hfind := (strstr_place_iff (F.text ++ ']' :: after) (by decide)).mpr hnone
  have hbody : ']' ∉ beginServer ++ F.text := by
    rw [List.mem_append, not_or]
    exact ⟨by decide, bracket_notMem F⟩
  have hend : strstr [']'] (beginServer ++ (F.text ++ ']' :: after)) =
      some (beginServer ++ F.text, ']' :: after) := by
    have hone : strstr [']'] (beginServer ++ F.text ++ ([']'] ++ after)) = _ := strstr_append hbody
    rw [List.append_assoc] at hone
    exact hone
  have hone : findOne (done ++ (beginServer ++ (F.text ++ ']' :: after))) (beginServer, .server) =
      some ⟨done, F.text, after, .server⟩ := by
    unfold findOne
    dsimp only
    rw [hfind]
    dsimp only
    rw [hend]
    simp
  unfold findFormat formats
  rw [List.findSome?_cons, hone]

/-- What is known of a part that is found. -/
theorem findFormat_server {fmts : Text} {f : Found} (h : findFormat fmts = some f)
    (hfunc : f.func = .server) :
    fmts = f.before ++ (beginServer ++ (f.body ++ ']' :: f.after)) ∧
      strstr beginServer fmts = some (f.before, beginServer ++ (f.body ++ ']' :: f.after)) := by
  obtain ⟨g, hg, hone⟩ := List.exists_of_findSome?_eq_some h
  have hserver : g = (beginServer, .server) := by
    have hgfunc := findOne_func hone
    rw [hfunc] at hgfunc
    simp only [formats, List.mem_cons, List.not_mem_nil, or_false] at hg
    rcases hg with rfl | rfl | rfl | rfl
    · rfl
    all_goals cases hgfunc
  subst hserver
  unfold findOne at hone
  split at hone
  · cases hone
  · rename_i before dp hfind
    split at hone
    · cases hone
    · rename_i upto tp hend
      cases hone
      dsimp only at hfind ⊢
      obtain ⟨hfmts, r, hdp⟩ := strstr_some hfind
      obtain ⟨hupto, u, htp⟩ := strstr_some hend
      have hlen : beginServer.length ≤ upto.length := by
        by_contra hlt
        have hmem : ']' ∈ beginServer := by
          have hget := congrArg (fun s : Text => s[upto.length]?) (hdp.trans hupto)
          rw [List.getElem?_append_left (by omega), ← htp, List.getElem?_append_right (by omega),
            Nat.sub_self] at hget
          exact List.mem_of_getElem? hget
        exact absurd hmem (by decide)
      have hbody : upto = beginServer ++ upto.drop beginServer.length := by
        have htake : upto.take beginServer.length = beginServer := by
          have hboth := congrArg (List.take beginServer.length) (hdp.trans hupto)
          rw [List.take_left, List.take_append_of_le_length hlen] at hboth
          exact hboth.symm
        conv_lhs => rw [← List.take_append_drop beginServer.length upto, htake]
      have htail : tp = ']' :: tp.tail := by
        rw [← htp]
        rfl
      have hdp' : dp = beginServer ++ (upto.drop beginServer.length ++ ']' :: tp.tail) := by
        rw [← htail, ← List.append_assoc, ← hbody, hupto]
      exact ⟨by rw [← hdp', hfmts], by rw [hfind, ← hdp']⟩

/-! ## The loop -/

section
variable {env : Env} {a : Args} {F : Body} {done fmts lit : Text} {parts : List Part} {fuel : Nat}

theorem formatText_cons (p : Part) (parts : List Part) : formatText (p :: parts) =
    beginServer ++ (p.1.text ++ ']' :: (p.2 ++ formatText parts)) := by
  simp [formatText]

theorem valueText_cons (p : Part) (parts : List Part) : valueText env a (p :: parts) =
    p.1.value env a ++ (p.2 ++ valueText env a parts) := by
  simp [valueText]

/-- A turn that evaluates a part. -/
theorem turn_part (env : Env) (a : Args) (F : Body) (fuel : Nat) (after : Text)
    (hnone : ¬beginServer <:+: done ++ beginServer.dropLast)
    (hroom : (done ++ F.value env a).length ≤ fmtCap) (hspec : F.any Piece.isSpec = true) :
    pathLoop env a (fuel + 1) (done ++ (beginServer ++ (F.text ++ ']' :: after))) =
        pathLoop env a fuel ((done ++ F.value env a ++ after).take fmtCap) ∧
      pathTurns env a (fuel + 1) (done ++ (beginServer ++ (F.text ++ ']' :: after))) =
        ⟨done, F.text, after, .server⟩ ::
          pathTurns env a fuel ((done ++ F.value env a ++ after).take fmtCap) := by
  rw [List.length_append] at hroom
  have heval := evalServer_body env a (fmtCap - done.length) F (by omega)
  have hcount : 0 < F.countP Piece.isSpec :=
    List.countP_pos_iff.mpr (List.any_eq_true.mp hspec)
  have hpos : ¬((F.countP Piece.isSpec : Nat) : Int) ≤ 0 := by omega
  rw [pathLoop, pathTurns, findFormat_part F after hnone]
  dsimp only [Func.eval]
  rw [heval]
  dsimp only
  rw [if_neg hpos, if_neg hpos]
  exact ⟨rfl, rfl⟩

/-- Where no text is taken for a part, the loop evaluates the parts. -/
theorem data_of_noneFound (hfit : (done ++ valueText env a parts).length ≤ fmtCap)
    (h : NoneFound env a done parts) :
    ∃ fuel, pathLoop env a fuel (done ++ formatText parts) = some (done ++ valueText env a parts) ∧
      (pathTurns env a fuel (done ++ formatText parts)).map Found.at = places env a done parts := by
  induction parts generalizing done with
  | nil =>
    have hend : pathLoop env a 1 done = some done ∧ pathTurns env a 1 done = [] := by
      rw [pathLoop, pathTurns]
      cases hfind : findFormat done with
      | none => exact ⟨rfl, rfl⟩
      | some f => exact ⟨if_pos (h f hfind), if_pos (h f hfind)⟩
    have htext : formatText [] = [] ∧ valueText env a [] = [] := ⟨rfl, rfl⟩
    rw [htext.1, htext.2, List.append_nil]
    exact ⟨1, hend.1, by rw [hend.2]; rfl⟩
  | cons p parts ih =>
    obtain ⟨hlen, hspec, hnone, hrest⟩ := h
    have hvalue : done ++ valueText env a (p :: parts) =
        done ++ p.1.value env a ++ p.2 ++ valueText env a parts := by
      rw [valueText_cons]
      simp only [List.append_assoc]
    rw [hvalue] at hfit ⊢
    obtain ⟨fuel, hloop, hturns⟩ := ih hfit hrest
    rw [List.length_append, List.length_append] at hfit
    obtain ⟨hloop', hturns'⟩ := turn_part env a p.1 fuel
      (p.2 ++ formatText parts) hnone (by omega) hspec
    have hnext : (done ++ p.1.value env a ++ (p.2 ++ formatText parts)).take fmtCap =
        done ++ p.1.value env a ++ p.2 ++ formatText parts := by
      rw [← List.append_assoc]
      apply List.take_of_length_le
      cases parts with
      | nil =>
        have hnil : formatText [] = [] := rfl
        rw [hnil, List.append_nil, List.length_append]
        omega
      | cons q parts => exact hrest.1
    rw [hnext] at hloop' hturns'
    refine ⟨fuel + 1, ?_, ?_⟩
    · rw [formatText_cons, hloop', hloop]
    · rw [formatText_cons, hturns', List.map_cons, hturns]
      rfl

/-- Where the loop evaluates the parts and nothing else, no text was taken for a part, and no text
was cut. -/
theorem noneFound_of_data (hfit : (done ++ valueText env a parts).length ≤ fmtCap)
    (hpre : fmts <+: done ++ formatText parts) (hlen : fmts.length ≤ fmtCap)
    (hloop : pathLoop env a fuel fmts = some (done ++ valueText env a parts))
    (hturns : (pathTurns env a fuel fmts).map Found.at = places env a done parts) :
    fmts = done ++ formatText parts ∧ NoneFound env a done parts := by
  induction parts generalizing done fmts fuel with
  | nil =>
    cases fuel with
    | zero => cases hloop
    | succ fuel =>
      have htext : formatText [] = [] ∧ valueText env a [] = [] := ⟨rfl, rfl⟩
      rw [htext.2, List.append_nil] at hloop
      rw [htext.1, List.append_nil]
      rw [pathLoop] at hloop
      rw [pathTurns] at hturns
      cases hfind : findFormat fmts with
      | none =>
        rw [hfind] at hloop
        cases hloop
        refine ⟨rfl, ?_⟩
        intro f hf
        rw [hfind] at hf
        cases hf
      | some f =>
        rw [hfind] at hloop hturns
        dsimp only at hloop hturns
        split_ifs at hloop hturns with hzero
        · cases hloop
          refine ⟨rfl, ?_⟩
          intro g hg
          rw [hfind] at hg
          cases hg
          exact hzero
        · cases hturns
  | cons p parts ih =>
    cases fuel with
    | zero => cases hloop
    | succ fuel =>
      cases hfind : findFormat fmts with
      | none =>
        rw [pathTurns, hfind] at hturns
        cases hturns
      | some f =>
        have hturns₀ := hturns
        rw [pathTurns, hfind] at hturns
        dsimp only at hturns
        split_ifs at hturns with hzero
        · cases hturns
        rw [List.map_cons, places] at hturns
        have hat := (List.cons.inj hturns).1
        have hbefore : f.before = done := congrArg Prod.fst hat
        have hbody : f.body = p.1.text := congrArg (fun t => t.2.1) hat
        have hfunc : f.func = .server := congrArg (fun t => t.2.2) hat
        obtain ⟨hfmts, hplace⟩ := findFormat_server hfind hfunc
        rw [hbefore, hbody] at hfmts hplace
        rw [hfmts] at hplace
        have hnone := (strstr_place_iff _ (by decide)).mp hplace
        -- The text behind the part is what is left of the format.
        have hafter : f.after <+: p.2 ++ formatText parts := by
          rw [hfmts, formatText_cons, List.prefix_append_right_inj, List.prefix_append_right_inj,
            List.prefix_append_right_inj, List.prefix_cons_inj] at hpre
          exact hpre
        have hvalue : done ++ valueText env a (p :: parts) =
            done ++ p.1.value env a ++ p.2 ++ valueText env a parts := by
          rw [valueText_cons]
          simp only [List.append_assoc]
        rw [hvalue] at hfit hloop
        have hroom : (done ++ p.1.value env a).length ≤ fmtCap := by
          rw [List.length_append, List.length_append] at hfit
          omega
        have hspec : p.1.any Piece.isSpec = true := by
          rw [hfunc, hbefore, hbody] at hzero
          dsimp only [Func.eval] at hzero
          rw [List.length_append] at hroom
          rw [evalServer_body env a _ p.1 (by omega)] at hzero
          exact List.any_eq_true.mpr (List.countP_pos_iff.mp (by dsimp only at hzero; omega))
        obtain ⟨hloop', hturns'⟩ := turn_part env a p.1 fuel f.after hnone
          hroom hspec
        rw [hfmts, hloop'] at hloop
        rw [hfmts, hturns', List.map_cons, places] at hturns₀
        have hnext : (done ++ p.1.value env a ++ f.after).take fmtCap <+:
            done ++ p.1.value env a ++ p.2 ++ formatText parts := by
          rw [List.append_assoc _ p.2]
          exact (List.take_prefix _ _).trans ((List.prefix_append_right_inj _).mpr hafter)
        obtain ⟨hfull, hrest⟩ := ih hfit hnext (List.length_take_le _ _) hloop
          (List.cons.inj hturns₀).2
        have hall : f.after = p.2 ++ formatText parts := by
          apply hafter.eq_of_length_le
          have hcount := congrArg List.length hfull
          simp only [List.length_take, List.length_append] at hcount ⊢
          omega
        have hwhole : fmts = done ++ formatText (p :: parts) := by
          rw [hfmts, hall, formatText_cons]
        refine ⟨hwhole, ?_, hspec, hnone, hrest⟩
        rw [← hwhole]
        exact hlen

end

/-! ## The path as data -/

theorem valueText_cut (env : Env) (a : Args) {parts : List Part}
    (h : (valueText env a parts).length < _PATH_MAX) :
    valueText env a.cut parts = valueText env a parts ∧
      ∀ done, places env a.cut done parts = places env a done parts := by
  induction parts with
  | nil => exact ⟨rfl, fun _ => rfl⟩
  | cons p parts ih =>
    rw [valueText_cons, List.length_append, List.length_append] at h
    obtain ⟨hvalue, hplaces⟩ := ih (by omega)
    have hone := value_cut env a p.1 (by omega)
    refine ⟨?_, ?_⟩
    · rw [valueText_cons, valueText_cons, hone, hvalue]
    · intro done
      rw [places, places, hone, hplaces]

/-- For every format whose value has less than 512 characters, `evalPATHexp` ends with its value and
takes nothing else for a part, if and only if no text before a part is found in its place, and
nothing in the last text. -/
theorem pathIsData_iff (env : Env) (F : PathFormat) (a : Args)
    (hshort : (F.value env a).length < _PATH_MAX) :
    PathIsData env F a ↔ NoneFound env a.cut F.head F.parts := by
  have hparts : (valueText env a F.parts).length < _PATH_MAX := by
    rw [PathFormat.value, List.length_append] at hshort
    omega
  obtain ⟨hvalue, hplaces⟩ := valueText_cut env a hparts
  have hcap : _PATH_MAX ≤ fmtCap := by decide
  have hfit : (F.head ++ valueText env a.cut F.parts).length ≤ fmtCap := by
    rw [hvalue]
    exact Nat.le_of_lt (Nat.lt_of_lt_of_le hshort hcap)
  unfold PathIsData PathFormat.value
  rw [← hvalue, ← hplaces]
  constructor
  · rintro ⟨fuel, hloop, hturns⟩
    exact (noneFound_of_data hfit (List.take_prefix _ _) (List.length_take_le _ _) hloop hturns).2
  · intro h
    obtain ⟨fuel, hloop, hturns⟩ := data_of_noneFound hfit h
    have htext : F.text.take fmtCap = F.head ++ formatText F.parts := by
      apply List.take_of_length_le
      unfold PathFormat.text
      cases hparts : F.parts with
      | nil =>
        rw [PathFormat.value, hparts] at hshort
        exact Nat.le_of_lt (Nat.lt_of_lt_of_le hshort hcap)
      | cons p parts =>
        rw [hparts] at h
        exact h.1
    refine ⟨fuel, ?_, ?_⟩
    · have hall : evalPATHexp env fuel F.text a = pathLoop env a.cut fuel (F.text.take fmtCap) := rfl
      rw [hall, htext, hloop]
    · rw [htext, hturns]

/-- `/attrs/$[server:%P/%p]` -/
def attrsFormat : PathFormat :=
  ⟨['/', 'a', 't', 't', 'r', 's', '/'],
    [([.spec .P, .chr '/' (by decide), .spec .p], [])]⟩

def newsPath : Args := ⟨['n', 'n', 't', 'p'], ['h'], 119, ['n', 'e', 'w', 's']⟩

theorem attrs_path_is_data : PathIsData plainEnv attrsFormat newsPath := by
  refine (pathIsData_iff plainEnv attrsFormat newsPath (by decide)).mpr ⟨by decide, rfl, by decide, ?_⟩
  intro f hf
  have hnone : findFormat (attrsFormat.head ++
      Body.value plainEnv newsPath.cut [.spec .P, .chr '/' (by decide), .spec .p] ++ []) = none := by
    decide
  rw [hnone] at hf
  cases hf

/-- `$[server:%p]` -/
def pathFormat : PathFormat := ⟨[], [([.spec .p], [])]⟩

/-- A path that is the text of its format is evaluated without end. -/
theorem evalPATHexp_no_end : (pathFormat.value plainEnv ⟨[], [], 0, pathFormat.text⟩).length < 512 ∧
    ¬∃ fuel xpath, evalPATHexp plainEnv fuel pathFormat.text ⟨[], [], 0, pathFormat.text⟩ =
      some xpath := by
  refine ⟨by decide, ?_⟩
  have hloop : ∀ fuel, pathLoop plainEnv ⟨[], [], 0, pathFormat.text⟩ fuel pathFormat.text = none := by
    intro fuel
    induction fuel with
    | zero => rfl
    | succ fuel ih =>
      have hturn : pathLoop plainEnv ⟨[], [], 0, pathFormat.text⟩ (fuel + 1)
          ([] ++ (beginServer ++ (Body.text [.spec .p] ++ ']' :: []))) = _ :=
        (turn_part plainEnv _ [.spec .p] fuel [] (by decide) (by decide) rfl).1
      exact hturn.trans ih
  rintro ⟨fuel, xpath, h⟩
  have hnone : evalPATHexp plainEnv fuel pathFormat.text ⟨[], [], 0, pathFormat.text⟩ = none :=
    hloop fuel
  rw [hnone] at h
  cases h

end delegate.cache
