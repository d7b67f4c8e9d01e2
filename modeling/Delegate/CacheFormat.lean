-- The formats of cache.cpp that name the cache file of a URL: what evalServer
-- makes of the escapes of a format, and the loop of evalPATHexp, which scans
-- its own output again.
import Delegate.UrlEscape

open ctext

namespace delegate.cache

/-! ## The pure model -/

/-- What the formats ask of other modules. -/
structure Env where
  serviceport : Text → Int
  strisaddr : Text → Bool
  gethostbyAddr : Text → Text
  getFQDN : Text → Text
  toMD5 : Text → Text
  FQDN_hash : Text → Nat
  chdir_cwd : Text → Text

/-- The arguments that escapes stand for. -/
structure Args where
  proto : Text
  server : Text
  port : Int
  path : Text

/-- A number as `printf("%d")` writes it. -/
def decInt (z : Int) : Text := if z < 0 then '-' :: dec z.natAbs else dec z.natAbs

/-- From the last character back to the dot number `lev` or to the first character: the text from
there on. The characters before it are in reverse order. -/
def backDots (lev : Int) : Nat → Text → Text → Text
  | _, [], after => after
  | lx, c :: before, after =>
    if lev ≤ lx ∨ before = [] then c :: after
    else if c = '.' ∧ (lx + 1 : Nat) = lev then c :: after
    else backDots lev (if c = '.' then lx + 1 else lx) before (c :: after)

/-- The same in an address, forward from the first character. -/
def forwardDots (lev : Int) : Nat → Text → Text
  | _, [] => []
  | lx, c :: s =>
    if lev ≤ lx then c :: s
    else if c = '.' ∧ (lx + 1 : Nat) = lev then c :: s
    else forwardDots lev (if c = '.' then lx + 1 else lx) s

/-- One label of a name, counted from the end, or of an address, counted from the start. -/
def getdomN1 (env : Env) (src : Text) (lev : Int) : Text :=
  let sp := if env.strisaddr src then forwardDots lev 1 src else backDots lev 0 src.reverse []
  let sp := if sp.head? = some '.' then sp.tail else sp
  beforeChr '.' sp

/-- The labels of a name from the last one on, each with a dot after it, and with `addhost` also the
first one. The name is in reverse order. -/
def layers (addhost : Bool) : Text → Text → Text → Text
  | [], _, dst => dst
  | c :: before, label, dst =>
    let dst := if c = '.' then dst ++ label ++ ['.'] else dst
    let label := if c = '.' then [] else c :: label
    if before = [] then (if addhost then dst ++ label else dst) else layers addhost before label dst

def layered_name (env : Env) (src : Text) (addhost : Bool) : Text :=
  (if env.strisaddr src then src else layers addhost src.reverse [] []).map
    fun c => if c = '.' then '/' else c

/-- The width after `%-`, and the format after it. -/
def scanWidth : Text → Nat × Text
  | '-' :: fp =>
    (Nat.ofDigitChars 10 (fp.takeWhile Char.isDigit) 0, fp.dropWhile Char.isDigit)
  | fp => (0, fp)

/-- The `m` before an escape. -/
def scanMD5 : Text → Bool × Text
  | 'm' :: c :: fp => (true, c :: fp)
  | fp => (false, fp)

/-- `%255[...]` of `sscanf`: at least one character. -/
def scanSet (p : Char → Bool) (s : Text) : Option (Text × Text) :=
  let t := (s.takeWhile p).take 255
  if t = [] then none else some (t, s.drop t.length)

def isOp (c : Char) : Bool := c == '!' || c == '=' || c == '<' || c == '>'

/-- The parts of a condition `%(a1 op a2?f1:f2)`. -/
structure Cond where
  a1 : Text := []
  op : Text := []
  a2 : Text := []
  f1 : Text := []
  f2 : Text := []

/-- `sscanf` with `%[^!=<>]%[!=<>]%[^?]?%[^:)]:%[^)]`. -/
def scanCond (s : Text) : Cond :=
  match scanSet (!isOp ·) s with
  | none => {}
  | some (a1, s) =>
    match scanSet isOp s with
    | none => { a1 }
    | some (op, s) =>
      match scanSet (· != '?') s with
      | some (a2, '?' :: s) =>
        match scanSet (fun c => c != ':' && c != ')') s with
        | some (f1, ':' :: s) =>
          { a1, op, a2, f1, f2 := ((scanSet (· != ')') s).map Prod.fst).getD [] }
        | some (f1, _) => { a1, op, a2, f1 }
        | none => { a1, op, a2 }
      | some (a2, _) => { a1, op, a2 }
      | none => { a1, op }

/-- The comparison of a condition. -/
def compared (op v1 v2 : Text) : Bool :=
  (op == ['=', '='] && v1 == v2) || (op == ['!', '='] && v1 != v2) ||
    (op == ['>', '='] && (strstr v2 v1).isSome) || (op == ['<', '='] && (strstr v1 v2).isSome)

/-- The text of an escape of one character, with the format from it on. None is for an unknown one. -/
def escape (env : Env) (a : Args) : Text → Option Text
  | '%' :: _ => some ['%']
  | 'P' :: _ => some a.proto
  | 'H' :: _ => some a.server
  | 'd' :: _ => some (layered_name env a.server false)
  | 'h' :: _ => some (layered_name env a.server true)
  | 'T' :: _ => some (decInt a.port)
  | 'L' :: _ =>
    some (if a.port ≠ env.serviceport a.proto then a.server ++ ':' :: decInt a.port else a.server)
  | 'p' :: _ => some a.path
  | 'u' :: _ =>
    some (a.proto ++ [':', '/', '/'] ++ a.server ++ [':'] ++ decInt a.port ++ ['/'] ++ a.path)
  | c :: fp =>
    if '1' ≤ c ∧ c ≤ '5' then some (getdomN1 env a.server (atoi (c :: fp))) else none
  | [] => none

/-- The text written in a buffer. After the last byte of it nothing is written any more. -/
structure Out where
  text : Text
  past : Bool

/-- What a copy leaves at the end of the text, in a buffer for `cap` characters. -/
def Out.fit (o : Out) (cap : Nat) (piece : Text) : Text :=
  if o.past then [] else piece.take (cap - o.text.length)

/-- A character of the format. -/
def Out.literal (o : Out) (cap : Nat) (c : Char) : Out :=
  if o.text.length < cap then ⟨o.text ++ [c], false⟩ else ⟨o.text, true⟩

/-- The piece of an escape as it is left in the buffer, after `m` and the width. -/
def finish (env : Env) (cap : Nat) (o : Out) (width : Nat) (tomd5 : Bool) (piece : Text) : Out :=
  let piece := o.fit cap piece
  let piece := if tomd5 then o.fit cap (env.toMD5 piece) else piece
  ⟨o.text ++ (if 0 < width ∧ width < piece.length then piece.take width else piece), o.past⟩

/-- The loop of `evalServer` over a format: the value and the text. Each turn takes at least one
character of the format, so `fuel` is its length. -/
def evalLoop (env : Env) : Nat → Nat → Args → Text → Out → Int → Int × Text
  | 0, _, _, _, o, neval => (neval, o.text)
  | _ + 1, _, _, [], o, neval => (neval, o.text)
  | fuel + 1, cap, a, '%' :: c :: fp, o, neval =>
    let w := scanWidth (c :: fp)
    let m := scanMD5 w.2
    let next := fun a fp piece =>
      evalLoop env fuel cap a fp (finish env cap o w.1 m.1 piece) (neval + 1)
    match m.2 with
    | '(' :: cond =>
      match afterChr ')' cond with
      | none => (-1, o.text)
      | some fp =>
        let r := scanCond cond
        let v1 := (evalLoop env fuel 255 a r.a1 ⟨[], false⟩ 0).2
        let v2 := (evalLoop env fuel 255 a r.a2 ⟨[], false⟩ 0).2
        let fo := if compared r.op v1 v2 then r.f1 else r.f2
        next a fp (evalLoop env fuel (cap - o.text.length) a fo ⟨[], false⟩ 0).2
    | 'Q' :: fp => next { a with server := env.getFQDN a.server } fp []
    | fp =>
      match escape env a fp with
      | none => (-1, o.text)
      | some piece => next a fp.tail piece
  | fuel + 1, cap, a, c :: fp, o, neval =>
    if o.past then (neval, o.text) else evalLoop env fuel cap a fp (o.literal cap c) neval

def evalServer (env : Env) (cap : Nat) (a : Args) (fmt : Text) : Int × Text :=
  evalLoop env (fmt.length + 1) cap a fmt ⟨[], false⟩ 0

def FQDN_HSIZE : Nat := 32

def evalHash (env : Env) (cap : Nat) (a : Args) (fmt : Text) : Int × Text :=
  (1, (urlesc.hex2 (env.FQDN_hash (evalServer env 255 a fmt).2 % FQDN_HSIZE)).take cap)

/-- `evalServer`, `evalHash`, and `evalQuery` and `evalClient`, which do nothing. -/
inductive Func
  | server
  | hash
  | query
  | client
  deriving DecidableEq

def Func.eval (env : Env) (cap : Nat) (a : Args) (fmt : Text) : Func → Int × Text
  | .server => evalServer env cap a fmt
  | .hash => evalHash env cap a fmt
  | .query => (0, [])
  | .client => (0, [])

def beginServer : Text := ['$', '[', 's', 'e', 'r', 'v', 'e', 'r', ':']

def beginHash : Text := ['$', '[', 'h', 'a', 's', 'h', ':']

def beginQuery : Text := ['$', '[', 'q', 'u', 'e', 'r', 'y', ':']

def beginClient : Text := ['$', '[', 'c', 'l', 'e', 'i', 'n', 't', ':']

/-- `tab_formats`. -/
def formats : List (Text × Func) :=
  [(beginServer, .server), (beginHash, .hash), (beginQuery, .query), (beginClient, .client)]

/-- A format in a text: what stands before it, in it and after it, and its function. -/
structure Found where
  before : Text
  body : Text
  after : Text
  func : Func

/-- The first `bsym` with a `]` after it. -/
def findOne (fmts : Text) (f : Text × Func) : Option Found :=
  match strstr f.1 fmts with
  | none => none
  | some (before, dp) =>
    match strstr [']'] dp with
    | none => none
    | some (upto, tp) => some ⟨before, upto.drop f.1.length, tp.tail, f.2⟩

def findFormat (fmts : Text) : Option Found := formats.findSome? (findOne fmts)

/-- The size of the two buffers for formats, without the last zero. -/
def fmtCap : Nat := 1023

/-- The loop of `evalPATHexp`. -/
def pathLoop (env : Env) (a : Args) : Nat → Text → Option Text
  | 0, _ => none
  | fuel + 1, fmts =>
    match findFormat fmts with
    | none => some fmts
    | some f =>
      let r := f.func.eval env (fmtCap - f.before.length) a f.body
      if r.1 ≤ 0 then some fmts
      else pathLoop env a fuel ((f.before ++ r.2 ++ f.after).take fmtCap)

def _PATH_MAX : Nat := 512

/-- `evalPATHexp`, with `fuel` as a bound on the turns of its loop. -/
def evalPATHexp (env : Env) (fuel : Nat) (pathfmt : Text) (a : Args) : Option Text :=
  let path := if _PATH_MAX ≤ a.path.length then XStrncpy a.path _PATH_MAX else a.path
  pathLoop env { a with path } fuel (pathfmt.take fmtCap)

/-! ## The turns of a format -/

theorem length_scanWidth (s : Text) : (scanWidth s).2.length ≤ s.length := by
  unfold scanWidth
  split
  · exact Nat.le_succ_of_le (List.dropWhile_sublist _).length_le
  · exact Nat.le_refl _

theorem length_scanMD5 (s : Text) : (scanMD5 s).2.length ≤ s.length := by
  unfold scanMD5
  split
  · exact Nat.le_succ _
  · exact Nat.le_refl _

theorem length_afterChr {c : Char} {s t : Text} (h : afterChr c s = some t) :
    t.length < s.length := by
  induction s with
  | nil => cases h
  | cons d s ih =>
    rw [afterChr] at h
    split at h
    · cases h
      exact Nat.lt_succ_self _
    · exact Nat.lt_succ_of_lt (ih h)

theorem length_scanSet {p : Char → Bool} {s t u : Text} (h : scanSet p s = some (t, u)) :
    t.length ≤ s.length ∧ u.length ≤ s.length := by
  unfold scanSet at h
  dsimp only at h
  split at h
  · cases h
  · cases h
    refine ⟨?_, ?_⟩
    · exact (List.length_take_le' _ _).trans (List.takeWhile_sublist _).length_le
    · rw [List.length_drop]
      exact Nat.sub_le _ _

/-- The parts of a condition are no longer than it. -/
theorem length_scanCond (s : Text) :
    (scanCond s).a1.length ≤ s.length ∧ (scanCond s).a2.length ≤ s.length ∧
      (scanCond s).f1.length ≤ s.length ∧ (scanCond s).f2.length ≤ s.length := by
  have hnil : ([] : Text).length = 0 := rfl
  unfold scanCond
  cases h1 : scanSet (!isOp ·) s with
  | none => dsimp only; omega
  | some p =>
    obtain ⟨a1, s1⟩ := p
    have hl1 := length_scanSet h1
    dsimp only
    cases h2 : scanSet isOp s1 with
    | none => dsimp only; omega
    | some p =>
      obtain ⟨op, s2⟩ := p
      have hl2 := length_scanSet h2
      dsimp only
      split
      · rename_i a2 s3 h3
        have hl3 := length_scanSet h3
        rw [List.length_cons] at hl3
        split
        · rename_i f1 s4 h4
          have hl4 := length_scanSet h4
          rw [List.length_cons] at hl4
          have hf2 : (((scanSet (· != ')') s4).map Prod.fst).getD []).length ≤ s4.length := by
            cases h5 : scanSet (· != ')') s4 with
            | none => exact Nat.zero_le _
            | some p => exact (length_scanSet h5).1
          dsimp only
          omega
        · rename_i f1 s4 _ h4
          have hl4 := length_scanSet h4
          dsimp only
          omega
        · dsimp only
          omega
      · rename_i a2 s3 _ h3
        have hl3 := length_scanSet h3
        dsimp only
        omega
      · dsimp only
        omega

/-- A character that begins no escape. -/
theorem evalLoop_char (env : Env) (fuel cap : Nat) (a : Args) {c : Char} {fp : Text} (o : Out)
    (neval : Int) (h : c = '%' → fp = []) :
    evalLoop env (fuel + 1) cap a (c :: fp) o neval =
      if o.past then (neval, o.text) else evalLoop env fuel cap a fp (o.literal cap c) neval := by
  rw [evalLoop]
  intro d fp' hc hfp
  rw [h hc] at hfp
  cases hfp

/-- More turns than the format has characters change nothing. -/
theorem evalLoop_fuel (env : Env) (m : Nat) : ∀ (n cap : Nat) (a : Args) (fmt : Text) (o : Out)
    (neval : Int), fmt.length < m → fmt.length < n →
      evalLoop env m cap a fmt o neval = evalLoop env n cap a fmt o neval := by
  induction m with
  | zero =>
    intro n cap a fmt o neval hm
    exact absurd hm (Nat.not_lt_zero _)
  | succ m ih =>
    intro n cap a fmt o neval hm hn
    obtain ⟨n, rfl⟩ := Nat.exists_eq_succ_of_ne_zero (Nat.ne_of_gt (Nat.zero_lt_of_lt hn))
    rcases fmt with _ | ⟨c, fp⟩
    · rfl
    rw [List.length_cons] at hm hn
    by_cases hc : c = '%' → fp = []
    · rw [Nat.succ_eq_add_one, evalLoop_char env m cap a o neval hc,
        evalLoop_char env n cap a o neval hc, ih n _ _ _ _ _ (by omega) (by omega)]
    · obtain ⟨rfl, hne⟩ := Classical.not_imp.mp hc
      obtain ⟨c, fp, rfl⟩ := List.exists_cons_of_ne_nil hne
      have hw := length_scanWidth (c :: fp)
      have hm5 := length_scanMD5 (scanWidth (c :: fp)).2
      rw [Nat.succ_eq_add_one, evalLoop, evalLoop]
      dsimp only
      -- What follows the width and the `m` is not longer, so every call below has turns enough.
      generalize (scanMD5 (scanWidth (c :: fp)).2).2 = rest at hm5
      split
      · rename_i cond
        rw [List.length_cons] at hm5
        cases hafter : afterChr ')' cond with
        | none => rfl
        | some fp' =>
          have hl := length_afterChr hafter
          obtain ⟨h1, h2, h3, h4⟩ := length_scanCond cond
          dsimp only
          rw [ih n 255 a (scanCond cond).a1 _ _ (by omega) (by omega),
            ih n 255 a (scanCond cond).a2 _ _ (by omega) (by omega)]
          rw [ih n (cap - o.text.length) a _ ⟨[], false⟩ 0 (by split <;> omega)
            (by split <;> omega)]
          exact ih n _ _ _ _ _ (by omega) (by omega)
      · rename_i fp'
        rw [List.length_cons] at hm5
        exact ih n _ _ _ _ _ (by omega) (by omega)
      · cases hesc : escape env a rest with
        | none => rfl
        | some piece =>
          have htail : rest.tail.length = rest.length - 1 := List.length_tail
          exact ih n _ _ _ _ _ (by omega) (by omega)

end delegate.cache
