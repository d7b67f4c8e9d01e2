-- The cache file of a URL. CTX_cache_pathX cuts the path, unifies its escapes,
-- normalises it and puts it in a format; two URLs that are not the same have
-- different files as long as nothing is cut on the way, the text of the file
-- has no format in it, and the names have no separators in them.
import Delegate.CacheFormat

open ctext

namespace delegate.cache

/-! ## The pure model -/

/-- The characters that `url_escunify` keeps besides letters and digits. -/
def keptSet : Text :=
  ['!', '#', '$', '&', '(', ')', '*', '+', ',', '-', '.', '/', ':', ';', '=', '?', '@', '[', ']',
    '^', '_', '`', '\x7b', '|', '\x7d', '~']

/-- `%02X` of a byte. -/
def hexUpper (n : Nat) : Text := (urlesc.hex2 n).map Char.toUpper

/-- One character, outside of an escape. -/
def unifyChar (c : Char) : Text :=
  if c.isAlphanum || keptSet.contains c then [c] else '%' :: hexUpper (c.toNat % 256)

def url_escunify : Text → Text
  | [] => []
  | [c] => unifyChar c
  | [c, d] => unifyChar c ++ unifyChar d
  | c :: a :: b :: s =>
    if c = '%' ∧ isxdigit a ∧ isxdigit b then '%' :: a.toUpper :: b.toUpper :: url_escunify s
    else unifyChar c ++ url_escunify (a :: b :: s)

/-- `strtolower` into a buffer of 256 bytes. -/
def strtolower (s : Text) : Text := (s.map Char.toLower).take 255

/-- `strtailchr(s) == '/'` -/
def endsSlash (s : Text) : Bool := s.getLast? == some '/'

/-- A request for a URL. The path is short enough for the buffers of paths, with all of its
characters escaped. -/
structure Request where
  proto : Text
  server : Text
  port : Int
  path : Text
  short : path.length * 3 < 4096

/-- The path up to the first blank or line end. -/
def cutBlank (s : Text) : Text :=
  s.takeWhile fun c => c != '\r' && c != '\n' && c != '\t' && c != ' '

/-- The path with its escapes unified. -/
def Request.unified (r : Request) : Text := url_escunify (cutBlank r.path)

/-- The path in the format: normalised, and with the slash at its end kept. -/
def Request.xpath (env : Env) (r : Request) : Text :=
  let path1 := r.unified
  let xpath := env.chdir_cwd path1
  if endsSlash path1 && !endsSlash xpath then xpath ++ ['/'] else xpath

/-- The server and the port, with the name of a virtual host in their place. -/
def nvServer (env : Env) (nvserv : Option Text) (r : Request) : Text × Int :=
  match nvserv with
  | none => (r.server, r.port)
  | some nvserv =>
    let host := beforeChr ':' nvserv
    let port := ((afterChr ':' nvserv).map atoi).getD 0
    let port := if port = 0 then env.serviceport r.proto else port
    if !strcaseeq r.server host || r.port != port then (host, port) else (r.server, r.port)

/-- The arguments of the format. -/
def Request.args (env : Env) (nvserv : Option Text) (r : Request) : Args :=
  let s := nvServer env nvserv r
  let server := if env.strisaddr s.1 then env.gethostbyAddr s.1 else s.1
  ⟨strtolower r.proto, strtolower server, s.2, r.xpath env⟩

/-- The escapes of the format. -/
def bodyPLp : Text := ['%', 'P', '/', '%', 'L', '/', '%', 'p']

/-- `$[server:%P/%L/%p]` -/
def DELEGATE_CACHEFILE : Text := beginServer ++ bodyPLp ++ [']']

/-- `sprintf` into a buffer of 1024 bytes. -/
def cachefmt (base : Text) : Text := (base ++ '/' :: DELEGATE_CACHEFILE).take fmtCap

/-- The cache path, left in a buffer of `size` bytes. -/
def CTX_cache_pathX (env : Env) (nvserv : Option Text) (base : Text) (size fuel : Nat)
    (r : Request) : Option Text :=
  (evalPATHexp env fuel (cachefmt base) (r.args env nvserv)).map (XStrncpy · size)

/-! ## The text of the file -/

/-- The server, with the port if it is not that of the protocol. -/
def serverPort (env : Env) (a : Args) : Text :=
  if a.port ≠ env.serviceport a.proto then a.server ++ ':' :: decInt a.port else a.server

/-- What the format stands for. -/
def fileText (env : Env) (base : Text) (a : Args) : Text :=
  base ++ '/' :: (a.proto ++ '/' :: (serverPort env a ++ '/' :: a.path))

/-- A format of `tab_formats` in a text. -/
def HasFormat (bsym s : Text) : Prop := ∃ a b c, s = a ++ bsym ++ b ++ ']' :: c

theorem findOne_none {bsym s : Text} (f : Func) (hb : ']' ∉ bsym) (h : ¬HasFormat bsym s) :
    findOne s (bsym, f) = none := by
  unfold findOne
  cases hfind : strstr bsym s with
  | none => rfl
  | some p =>
    obtain ⟨before, dp⟩ := p
    obtain ⟨rfl, b, rfl⟩ := strstr_some hfind
    by_cases hend : ']' ∈ b
    · obtain ⟨u, v, rfl⟩ := List.append_of_mem hend
      exact absurd ⟨before, u, v, by simp⟩ h
    · have hnone : strstr [']'] (bsym ++ b) = none := by
        apply strstr_eq_none
        apply not_infix_of_not_mem (List.mem_singleton_self ']')
        rw [List.mem_append, not_or]
        exact ⟨hb, hend⟩
      dsimp only
      rw [hnone]

theorem findOne_func {s : Text} {g : Text × Func} {f : Found} (h : findOne s g = some f) :
    f.func = g.2 := by
  unfold findOne at h
  split at h
  · cases h
  · split at h
    · cases h
    · cases h
      rfl

/-- A text in which neither `$[server:` nor `$[hash:` is found is left as it is. -/
theorem pathLoop_stop (env : Env) (a : Args) (fuel : Nat) {s : Text}
    (hserver : ¬HasFormat beginServer s) (hhash : ¬HasFormat beginHash s) :
    pathLoop env a (fuel + 1) s = some s := by
  have h1 := findOne_none .server (by decide) hserver
  have h2 := findOne_none .hash (by decide) hhash
  rw [pathLoop]
  cases hfind : findFormat s with
  | none => rfl
  | some f =>
    obtain ⟨g, hg, hone⟩ := List.exists_of_findSome?_eq_some hfind
    have hfunc : f.func = .query ∨ f.func = .client := by
      simp only [formats, List.mem_cons, List.not_mem_nil, or_false] at hg
      rcases hg with rfl | rfl | rfl | rfl
      · rw [h1] at hone
        cases hone
      · rw [h2] at hone
        cases hone
      · exact .inl (findOne_func hone)
      · exact .inr (findOne_func hone)
    have heval : (f.func.eval env (fmtCap - f.before.length) a f.body).1 ≤ 0 := by
      rcases hfunc with h | h <;> rw [h] <;> exact Int.le_refl 0
    dsimp only
    rw [if_pos heval]

/-- The format is found at its place. -/
theorem findFormat_cachefmt {base : Text} (h : '$' ∉ base) :
    findFormat (base ++ '/' :: DELEGATE_CACHEFILE) =
      some ⟨base ++ ['/'], bodyPLp, [], .server⟩ := by
  have hslash : '$' ∉ base ++ ['/'] := by
    rw [List.mem_append, not_or]
    exact ⟨h, by decide⟩
  have hfind : strstr beginServer ((base ++ ['/']) ++ (beginServer ++ (bodyPLp ++ [']']))) =
      some (base ++ ['/'], beginServer ++ (bodyPLp ++ [']'])) := strstr_append hslash
  have hend : strstr [']'] (beginServer ++ (bodyPLp ++ [']'])) =
      some (beginServer ++ bodyPLp, [']']) := by decide
  have hfmt : base ++ '/' :: DELEGATE_CACHEFILE =
      (base ++ ['/']) ++ (beginServer ++ (bodyPLp ++ [']'])) := by
    simp [DELEGATE_CACHEFILE]
  have hone : findOne (base ++ '/' :: DELEGATE_CACHEFILE) (beginServer, .server) =
      some ⟨base ++ ['/'], bodyPLp, [], .server⟩ := by
    unfold findOne
    rw [hfmt, hfind]
    dsimp only
    rw [hend]
    rfl
  unfold findFormat formats
  rw [List.findSome?_cons, hone]

/-! ## The escapes of the format -/

theorem scanWidth_of_ne {c : Char} (h : c ≠ '-') (fp : Text) :
    scanWidth (c :: fp) = (0, c :: fp) := by
  unfold scanWidth
  split
  · rename_i heq
    exact absurd (List.cons.inj heq).1 h
  · rfl

theorem scanMD5_of_ne {c : Char} (h : c ≠ 'm') (fp : Text) :
    scanMD5 (c :: fp) = (false, c :: fp) := by
  unfold scanMD5
  split
  · rename_i heq
    exact absurd (List.cons.inj heq).1 h
  · rfl

/-- An escape of one letter, without a width. -/
theorem evalLoop_letter (env : Env) (fuel cap : Nat) (a : Args) {c : Char} (fp : Text) (o : Out)
    (neval : Int) {piece : Text} (hc : c ∉ ['-', 'm', '(', 'Q'])
    (hpiece : escape env a (c :: fp) = some piece) :
    evalLoop env (fuel + 1) cap a ('%' :: c :: fp) o neval =
      evalLoop env fuel cap a fp ⟨o.text ++ o.fit cap piece, o.past⟩ (neval + 1) := by
  simp only [List.mem_cons, List.not_mem_nil, or_false, not_or] at hc
  obtain ⟨hminus, hm, hparen, hQ⟩ := hc
  rw [evalLoop, scanWidth_of_ne hminus, scanMD5_of_ne hm]
  dsimp only
  split
  · rename_i heq
    exact absurd (List.cons.inj heq).1 hparen
  · rename_i heq
    exact absurd (List.cons.inj heq).1 hQ
  · rw [hpiece]
    rfl

/-- A character for which there is room. -/
theorem evalLoop_literal (env : Env) (fuel cap : Nat) (a : Args) {c : Char} (fp text : Text)
    (neval : Int) (hc : c ≠ '%') (h : text.length < cap) :
    evalLoop env (fuel + 1) cap a (c :: fp) ⟨text, false⟩ neval =
      evalLoop env fuel cap a fp ⟨text ++ [c], false⟩ neval := by
  have hlit : Out.literal ⟨text, false⟩ cap c = ⟨text ++ [c], false⟩ := if_pos h
  rw [evalLoop_char env fuel cap a ⟨text, false⟩ neval (absurd · hc), if_neg Bool.false_ne_true,
    hlit]

/-- A piece for which there is room. -/
theorem fit_of_le {text piece : Text} {cap : Nat} (h : text.length + piece.length ≤ cap) :
    Out.fit ⟨text, false⟩ cap piece = piece := by
  rw [Out.fit, if_neg Bool.false_ne_true]
  exact List.take_of_length_le (by dsimp only; omega)

theorem evalServer_PLp (env : Env) (cap : Nat) (a : Args)
    (h : (a.proto ++ '/' :: (serverPort env a ++ '/' :: a.path)).length ≤ cap) :
    evalServer env cap a bodyPLp =
      (3, a.proto ++ '/' :: (serverPort env a ++ '/' :: a.path)) := by
  simp only [List.length_append, List.length_cons] at h
  have hP : escape env a ('P' :: ['/', '%', 'L', '/', '%', 'p']) = some a.proto := rfl
  have hL : escape env a ('L' :: ['/', '%', 'p']) = some (serverPort env a) := rfl
  have hp : escape env a ['p'] = some a.path := rfl
  unfold evalServer
  rw [evalLoop_fuel env _ 9 cap a bodyPLp _ _ (Nat.lt_succ_self _) (by decide)]
  unfold bodyPLp
  rw [evalLoop_letter env 8 cap a _ _ _ (by decide) hP,
    fit_of_le (by rw [List.length_nil]; omega), List.nil_append,
    evalLoop_literal env 7 cap a _ _ _ (by decide) (by omega),
    evalLoop_letter env 6 cap a _ _ _ (by decide) hL,
    fit_of_le (by rw [List.length_append, List.length_singleton]; omega),
    evalLoop_literal env 5 cap a _ _ _ (by decide)
      (by simp only [List.length_append, List.length_singleton]; omega),
    evalLoop_letter env 4 cap a _ _ _ (by decide) hp,
    fit_of_le (by simp only [List.length_append, List.length_singleton]; omega), evalLoop]
  simp only [List.append_assoc, List.singleton_append]
  rfl

/-! ## What is asked of a request -/

/-- Nothing of the request is cut on its way to the file, its text has no format in it, and its
names have no separators in them. -/
structure Clean (env : Env) (base : Text) (size : Nat) (r : Request) : Prop where
  proto : r.proto.length ≤ 255 ∧ '/' ∉ r.proto
  server : r.server.length ≤ 255 ∧ '/' ∉ r.server ∧ ':' ∉ r.server
  path : (r.xpath env).length < 512
  fits : (fileText env base (r.args env none)).length ≤ fmtCap ∧
    (fileText env base (r.args env none)).length < size
  noServer : ¬HasFormat beginServer (fileText env base (r.args env none))
  noHash : ¬HasFormat beginHash (fileText env base (r.args env none))

/-- The first turn of the loop. -/
theorem pathLoop_cachefmt (env : Env) {base : Text} (hbase : '$' ∉ base) (a : Args) (fuel : Nat)
    (hfit : (fileText env base a).length ≤ fmtCap) :
    pathLoop env a (fuel + 1) (base ++ '/' :: DELEGATE_CACHEFILE) =
      pathLoop env a fuel (fileText env base a) := by
  have hlen : (fileText env base a).length = base.length +
      (a.proto ++ '/' :: (serverPort env a ++ '/' :: a.path)).length + 1 := by
    rw [fileText, List.length_append, List.length_cons]
    omega
  have hbefore : (base ++ ['/']).length = base.length + 1 := List.length_append
  have heval := evalServer_PLp env (fmtCap - (base ++ ['/']).length) a (by omega)
  have htext : base ++ ['/'] ++ (a.proto ++ '/' :: (serverPort env a ++ '/' :: a.path)) ++ [] =
      fileText env base a := by
    rw [List.append_nil, List.append_assoc]
    rfl
  have hpos : ¬(3 : Int) ≤ 0 := by decide
  rw [pathLoop, findFormat_cachefmt hbase]
  dsimp only [Func.eval]
  rw [heval]
  dsimp only
  rw [if_neg hpos, htext, List.take_of_length_le hfit]

/-- The path of a request is its text, if there is one. -/
theorem cache_path_loop {env : Env} {base : Text} {size : Nat} (hbase : '$' ∉ base)
    (hlen : base.length + 19 ≤ fmtCap) {r : Request} (h : Clean env base size r) (fuel : Nat) :
    CTX_cache_pathX env none base size (fuel + 1) r =
      (pathLoop env (r.args env none) fuel (fileText env base (r.args env none))).map
        (XStrncpy · size) := by
  have hfmt : (base ++ '/' :: DELEGATE_CACHEFILE).length ≤ fmtCap := by
    have hfile : DELEGATE_CACHEFILE.length = 18 := rfl
    rw [List.length_append, List.length_cons]
    omega
  have hpath : ¬_PATH_MAX ≤ (r.args env none).path.length := Nat.not_le.mpr h.path
  unfold CTX_cache_pathX evalPATHexp cachefmt
  dsimp only
  rw [if_neg hpath, List.take_of_length_le hfmt, List.take_of_length_le hfmt]
  exact congrArg (Option.map (XStrncpy · size))
    (pathLoop_cachefmt env hbase (r.args env none) fuel h.fits.1)

/-- The path of a clean request is its text, after two turns of the loop. -/
theorem cache_path_clean {env : Env} {base : Text} {size : Nat} (hbase : '$' ∉ base)
    (hlen : base.length + 19 ≤ fmtCap) {r : Request} (h : Clean env base size r) (fuel : Nat) :
    CTX_cache_pathX env none base size (fuel + 2) r =
      some (fileText env base (r.args env none)) := by
  have hfit : XStrncpy (fileText env base (r.args env none)) size =
      fileText env base (r.args env none) := by
    have hsize := h.fits.2
    exact List.take_of_length_le (by omega)
  rw [cache_path_loop hbase hlen h (fuel + 1), pathLoop_stop env _ fuel h.noServer h.noHash,
    Option.map_some, hfit]

theorem cache_path_eq {env : Env} {base : Text} {size : Nat} (hbase : '$' ∉ base)
    (hlen : base.length + 19 ≤ fmtCap) {r : Request} (h : Clean env base size r) {fuel : Nat}
    {p : Text} (hp : CTX_cache_pathX env none base size fuel r = some p) :
    p = fileText env base (r.args env none) := by
  match fuel with
  | 0 => cases hp
  | 1 =>
    rw [cache_path_loop hbase hlen h 0] at hp
    cases hp
  | fuel + 2 =>
    rw [cache_path_clean hbase hlen h fuel] at hp
    exact (Option.some.inj hp).symm

/-! ## Different files -/

theorem decInt_inj {y z : Int} (h : decInt y = decInt z) : y = z := by
  have hminus : ∀ n, '-' ∉ dec n := fun n => not_mem_dec (by decide)
  unfold decInt at h
  by_cases hy : y < 0
  · by_cases hz : z < 0
    · rw [if_pos hy, if_pos hz] at h
      have := dec_inj (List.cons.inj h).2
      omega
    · rw [if_pos hy, if_neg hz] at h
      exact absurd (h ▸ List.mem_cons_self) (hminus _)
  · by_cases hz : z < 0
    · rw [if_neg hy, if_pos hz] at h
      exact absurd (h ▸ List.mem_cons_self) (hminus _)
    · rw [if_neg hy, if_neg hz] at h
      have := dec_inj h
      omega

theorem not_mem_decInt {c : Char} (hc : c.isDigit = false) (hm : c ≠ '-') (z : Int) :
    c ∉ decInt z := by
  unfold decInt
  split
  · rw [List.mem_cons, not_or]
    exact ⟨hm, not_mem_dec hc⟩
  · exact not_mem_dec hc

/-- Separators are not letters. -/
theorem not_mem_strtolower {c : Char} {s : Text} (hc : c.isAlpha = false) (h : c ∉ s) :
    c ∉ strtolower s := by
  intro hmem
  obtain ⟨d, hd, heq⟩ := List.mem_map.mp (List.mem_of_mem_take hmem)
  exact h (eq_of_toLower_eq hc heq ▸ hd)

/-- The server and the port can be told from the text. -/
theorem serverPort_inj {env : Env} {a b : Args} (ha : ':' ∉ a.server) (hb : ':' ∉ b.server)
    (hproto : a.proto = b.proto) (h : serverPort env a = serverPort env b) :
    a.server = b.server ∧ a.port = b.port := by
  unfold serverPort at h
  rw [← hproto] at h
  by_cases hpa : a.port ≠ env.serviceport a.proto
  · by_cases hpb : b.port ≠ env.serviceport a.proto
    · rw [if_pos hpa, if_pos hpb] at h
      obtain ⟨hserver, hport⟩ := append_cons_inj ha hb h
      exact ⟨hserver, decInt_inj hport⟩
    · rw [if_pos hpa, if_neg hpb] at h
      exact absurd (h ▸ List.mem_append_right _ List.mem_cons_self) hb
  · by_cases hpb : b.port ≠ env.serviceport a.proto
    · rw [if_neg hpa, if_pos hpb] at h
      exact absurd (h ▸ List.mem_append_right _ List.mem_cons_self) ha
    · rw [if_neg hpa, if_neg hpb] at h
      exact ⟨h, (not_not.mp hpa).trans (not_not.mp hpb).symm⟩

theorem slash_not_mem_serverPort {env : Env} {a : Args} (h : '/' ∉ a.server) :
    '/' ∉ serverPort env a := by
  unfold serverPort
  split
  · rw [List.mem_append, List.mem_cons, not_or, not_or]
    exact ⟨h, by decide, not_mem_decInt (by decide) (by decide) _⟩
  · exact h

/-- The arguments can be told from the text. -/
theorem fileText_inj {env : Env} {base : Text} {a b : Args} (hpa : '/' ∉ a.proto)
    (hpb : '/' ∉ b.proto) (hsa : '/' ∉ a.server ∧ ':' ∉ a.server)
    (hsb : '/' ∉ b.server ∧ ':' ∉ b.server) (h : fileText env base a = fileText env base b) :
    a = b := by
  have htail := (List.cons.inj (List.append_cancel_left h)).2
  obtain ⟨hproto, hrest⟩ := append_cons_inj hpa hpb htail
  obtain ⟨hserver, hpath⟩ := append_cons_inj (slash_not_mem_serverPort hsa.1)
    (slash_not_mem_serverPort hsb.1) hrest
  obtain ⟨hname, hport⟩ := serverPort_inj hsa.2 hsb.2 hproto hserver
  cases a
  cases b
  simp_all

/-- The slash is put back at the end of one path, and the other one has it there. -/
def SlashClash (env : Env) (r q : Request) : Prop :=
  endsSlash r.unified = true ∧ endsSlash (env.chdir_cwd r.unified) = false ∧
    env.chdir_cwd q.unified = env.chdir_cwd r.unified ++ ['/']

/-- The requests are for one URL. -/
structure Same (env : Env) (r q : Request) : Prop where
  proto : strcaseeq r.proto q.proto = true
  server : strcaseeq r.server q.server = true
  port : r.port = q.port
  path : env.chdir_cwd r.unified = env.chdir_cwd q.unified

theorem chdir_of_xpath {env : Env} {r q : Request} (h : r.xpath env = q.xpath env)
    (hrq : ¬SlashClash env r q) (hqr : ¬SlashClash env q r) :
    env.chdir_cwd r.unified = env.chdir_cwd q.unified := by
  unfold Request.xpath at h
  dsimp only at h
  by_cases hr : (endsSlash r.unified && !endsSlash (env.chdir_cwd r.unified)) = true
  · by_cases hq : (endsSlash q.unified && !endsSlash (env.chdir_cwd q.unified)) = true
    · rw [if_pos hr, if_pos hq] at h
      exact List.append_cancel_right h
    · rw [if_pos hr, if_neg hq] at h
      rw [Bool.and_eq_true, Bool.not_eq_true'] at hr
      exact absurd ⟨hr.1, hr.2, h.symm⟩ hrq
  · by_cases hq : (endsSlash q.unified && !endsSlash (env.chdir_cwd q.unified)) = true
    · rw [if_neg hr, if_pos hq] at h
      rw [Bool.and_eq_true, Bool.not_eq_true'] at hq
      exact absurd ⟨hq.1, hq.2, h⟩ hqr
    · rw [if_neg hr, if_neg hq] at h
      exact h

theorem strcaseeq_of_strtolower {s t : Text} (hs : s.length ≤ 255) (ht : t.length ≤ 255)
    (h : strtolower s = strtolower t) : strcaseeq s t = true := by
  unfold strtolower at h
  rw [List.take_of_length_le (by rwa [List.length_map]),
    List.take_of_length_le (by rwa [List.length_map])] at h
  exact beq_iff_eq.mpr h

/-- The arguments of a request for a server that is no address. -/
theorem args_none {env : Env} {r : Request} (h : env.strisaddr r.server = false) :
    r.args env none = ⟨strtolower r.proto, strtolower r.server, r.port, r.xpath env⟩ := by
  unfold Request.args nvServer
  dsimp only
  rw [h, if_neg Bool.false_ne_true]

theorem not_hasFormat {bsym s : Text} {c : Char} (hc : c ∈ bsym) (h : c ∉ s) :
    ¬HasFormat bsym s := by
  rintro ⟨a, b, d, rfl⟩
  exact h (List.mem_append_left _ (List.mem_append_left _ (List.mem_append_right _ hc)))

/-- The requests are for one server and differ in the slash that is put back. -/
def Clash (env : Env) (r q : Request) : Prop :=
  strcaseeq r.proto q.proto = true ∧ strcaseeq r.server q.server = true ∧ r.port = q.port ∧
    (SlashClash env r q ∨ SlashClash env q r)

/-- A slash is put back only at the end of a path without it. -/
theorem SlashClash.xpath_eq {env : Env} {r q : Request} (h : SlashClash env r q) :
    r.xpath env = q.xpath env := by
  obtain ⟨hend, hno, hq⟩ := h
  have hr : (endsSlash r.unified && !endsSlash (env.chdir_cwd r.unified)) = true := by
    rw [hend, hno]
    rfl
  have hlast : endsSlash (env.chdir_cwd q.unified) = true := by
    rw [hq, endsSlash, List.getLast?_append, List.getLast?_singleton]
    rfl
  unfold Request.xpath
  dsimp only
  rw [if_pos hr, hlast, Bool.not_true, Bool.and_false, if_neg Bool.false_ne_true, hq]

theorem SlashClash.chdir_ne {env : Env} {r q : Request} (h : SlashClash env r q) :
    env.chdir_cwd r.unified ≠ env.chdir_cwd q.unified := by
  intro heq
  have hlen := congrArg List.length (heq.trans h.2.2)
  rw [List.length_append, List.length_singleton] at hlen
  omega

theorem Clash.args_eq {env : Env} {r q : Request} (h : Clash env r q)
    (hr : env.strisaddr r.server = false) (hq : env.strisaddr q.server = false) :
    r.args env none = q.args env none := by
  obtain ⟨hproto, hserver, hport, hslash⟩ := h
  have hpath : r.xpath env = q.xpath env := by
    rcases hslash with hslash | hslash
    · exact hslash.xpath_eq
    · exact hslash.xpath_eq.symm
  rw [args_none hr, args_none hq, strtolower, strtolower, strtolower, strtolower,
    beq_iff_eq.mp hproto, beq_iff_eq.mp hserver, hport, hpath]

/-- Clean requests of one file are for one URL, or differ in a slash that is put back. -/
theorem same_or_clash {env : Env} {base : Text} {size : Nat} {r q : Request}
    (hraddr : env.strisaddr r.server = false) (hqaddr : env.strisaddr q.server = false)
    (hr : Clean env base size r) (hq : Clean env base size q)
    (heq : fileText env base (r.args env none) = fileText env base (q.args env none)) :
    Same env r q ∨ Clash env r q := by
  rw [args_none hraddr, args_none hqaddr] at heq
  have hslash : '/'.isAlpha = false := by decide
  have hcolon : ':'.isAlpha = false := by decide
  have hargs := fileText_inj (not_mem_strtolower hslash hr.proto.2)
    (not_mem_strtolower hslash hq.proto.2)
    ⟨not_mem_strtolower hslash hr.server.2.1, not_mem_strtolower hcolon hr.server.2.2⟩
    ⟨not_mem_strtolower hslash hq.server.2.1, not_mem_strtolower hcolon hq.server.2.2⟩ heq
  obtain ⟨hproto, hserver, hport, hpath⟩ := Args.mk.inj hargs
  have hproto := strcaseeq_of_strtolower hr.proto.1 hq.proto.1 hproto
  have hserver := strcaseeq_of_strtolower hr.server.1 hq.server.1 hserver
  by_cases hclash : SlashClash env r q ∨ SlashClash env q r
  · exact .inr ⟨hproto, hserver, hport, hclash⟩
  · rw [not_or] at hclash
    exact .inl ⟨hproto, hserver, hport, chdir_of_xpath hpath hclash.1 hclash.2⟩

/-- Two clean requests have a file each. One file is only for one URL, unless a slash is put back. -/
theorem same_of_file_iff (env : Env) (base : Text) (size : Nat) (r q : Request)
    (hbase : '$' ∉ base) (hlen : base.length + 19 ≤ fmtCap)
    (hraddr : env.strisaddr r.server = false) (hqaddr : env.strisaddr q.server = false)
    (hr : Clean env base size r) (hq : Clean env base size q) :
    (∃ fuel p, CTX_cache_pathX env none base size fuel r = some p) ∧
      (∃ fuel p, CTX_cache_pathX env none base size fuel q = some p) ∧
      ((∀ m n p, CTX_cache_pathX env none base size m r = some p →
        CTX_cache_pathX env none base size n q = some p → Same env r q) ↔ ¬Clash env r q) := by
  have hrpath := cache_path_clean hbase hlen hr 0
  have hqpath := cache_path_clean hbase hlen hq 0
  refine ⟨⟨2, _, hrpath⟩, ⟨2, _, hqpath⟩, ?_, ?_⟩
  · intro h hclash
    rw [hclash.args_eq hraddr hqaddr] at hrpath
    have hsame := h 2 2 _ hrpath hqpath
    rcases hclash.2.2.2 with hslash | hslash
    · exact hslash.chdir_ne hsame.path
    · exact hslash.chdir_ne hsame.path.symm
  · intro hclash m n p hp hp'
    have heq := (cache_path_eq hbase hlen hr hp).symm.trans (cache_path_eq hbase hlen hq hp')
    exact (same_or_clash hraddr hqaddr hr hq heq).resolve_right hclash

/-- Names that are no addresses, and paths without dots. -/
def plainEnv : Env where
  serviceport p := if p = ['h', 't', 't', 'p'] then 80 else 0
  strisaddr _ := false
  gethostbyAddr := id
  getFQDN := id
  toMD5 := id
  FQDN_hash _ := 0
  chdir_cwd := id

/-- A request for `www.a.com`. -/
def plainRequest (path : Text) (short : path.length * 3 < 4096) : Request :=
  ⟨['h', 't', 't', 'p'], ['w', 'w', 'w', '.', 'a', '.', 'c', 'o', 'm'], 80, path, short⟩

/-- The same with capital letters. -/
def capitalRequest (path : Text) (short : path.length * 3 < 4096) : Request :=
  ⟨['H', 'T', 'T', 'P'], ['W', 'W', 'W', '.', 'a', '.', 'c', 'o', 'm'], 80, path, short⟩

theorem same_of_file_iff_capital :
    Same plainEnv (plainRequest ['x', '/', 'y'] (by decide))
      (capitalRequest ['x', '/', 'y'] (by decide)) := by
  have hr : Clean plainEnv ['/', 'c'] 1024 (plainRequest ['x', '/', 'y'] (by decide)) :=
    ⟨by decide, by decide, by decide, by decide, not_hasFormat (c := '$') (by decide) (by decide),
      not_hasFormat (c := '$') (by decide) (by decide)⟩
  have hq : Clean plainEnv ['/', 'c'] 1024 (capitalRequest ['x', '/', 'y'] (by decide)) :=
    ⟨by decide, by decide, by decide, by decide, not_hasFormat (c := '$') (by decide) (by decide),
      not_hasFormat (c := '$') (by decide) (by decide)⟩
  have hclash : ¬Clash plainEnv (plainRequest ['x', '/', 'y'] (by decide))
      (capitalRequest ['x', '/', 'y'] (by decide)) := by
    rintro ⟨-, -, -, hs | hs⟩
    · exact absurd hs.1 (by decide)
    · exact absurd hs.1 (by decide)
  have h := same_of_file_iff plainEnv ['/', 'c'] 1024 _ _ (by decide) (by decide) rfl rfl hr hq
  exact h.2.2.mpr hclash 2 2 _ (cache_path_clean (by decide) (by decide) hr 0)
    (cache_path_clean (by decide) (by decide) hq 0)

/-- The path `$[server:%1A]`. -/
def formatPath : Text := ['$', '[', 's', 'e', 'r', 'v', 'e', 'r', ':', '%', '1', 'A', ']']

/-- The requests have one file. -/
def OneFile (r q : Request) : Prop :=
  ∃ p, CTX_cache_pathX plainEnv none ['/', 'c'] 1024 3 r = some p ∧
    CTX_cache_pathX plainEnv none ['/', 'c'] 1024 3 q = some p

/-- A path is taken for a format, and of long paths only the first 511 characters are used. -/
theorem one_file_for_two :
    (OneFile (plainRequest formatPath (by decide)) (plainRequest ['c', 'o', 'm', 'A'] (by decide)) ∧
      ¬Same plainEnv (plainRequest formatPath (by decide))
        (plainRequest ['c', 'o', 'm', 'A'] (by decide))) ∧
    OneFile (plainRequest (List.replicate 512 'a') (by decide +kernel))
        (plainRequest (List.replicate 513 'a') (by decide +kernel)) ∧
      ¬Same plainEnv (plainRequest (List.replicate 512 'a') (by decide +kernel))
        (plainRequest (List.replicate 513 'a') (by decide +kernel)) := by
  have hformat : CTX_cache_pathX plainEnv none ['/', 'c'] 1024 3
      (plainRequest formatPath (by decide)) = CTX_cache_pathX plainEnv none ['/', 'c'] 1024 3
        (plainRequest ['c', 'o', 'm', 'A'] (by decide)) := by decide +kernel
  have hlong : CTX_cache_pathX plainEnv none ['/', 'c'] 1024 3
      (plainRequest (List.replicate 512 'a') (by decide +kernel)) =
        CTX_cache_pathX plainEnv none ['/', 'c'] 1024 3
          (plainRequest (List.replicate 513 'a') (by decide +kernel)) := by decide +kernel
  refine ⟨⟨?_, ?_⟩, ?_, ?_⟩
  · obtain ⟨p, hp⟩ := Option.isSome_iff_exists.mp
      (show (CTX_cache_pathX plainEnv none ['/', 'c'] 1024 3
        (plainRequest ['c', 'o', 'm', 'A'] (by decide))).isSome = true by decide +kernel)
    exact ⟨p, hformat.trans hp, hp⟩
  · intro h
    exact absurd h.path (by decide +kernel)
  · obtain ⟨p, hp⟩ := Option.isSome_iff_exists.mp
      (show (CTX_cache_pathX plainEnv none ['/', 'c'] 1024 3
        (plainRequest (List.replicate 513 'a') (by decide +kernel))).isSome = true by decide +kernel)
    exact ⟨p, hlong.trans hp, hp⟩
  · intro h
    exact absurd h.path (by decide +kernel)

end delegate.cache
