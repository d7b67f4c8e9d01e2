-- The site of a URL, `[user[:pass]@]host[:port]`, and the functions that take
-- it apart. `decomp_siteX` looks for the last `@` in a copy of 63 characters;
-- `scan_hostport1X` runs over the site once and starts again at each `@`.
import Delegate.CText

open ctext

namespace delegate.url

/-! ## Scanners -/

/-- `wordscanY`: the text copied into a buffer of `siz` bytes, and the text after it. The pattern
is a set of characters to go on with or, after a `^`, to stop at. -/
def wordscanY (str : Text) (siz : Nat) (pat : Text) : Text × Text :=
  let goes : Char → Bool := match pat with
    | '^' :: pat => fun ch => !pat.contains ch
    | pat => fun ch => pat.contains ch
  let val := (str.take (siz - 1)).takeWhile goes
  (val, str.drop val.length)

/-- The copy loop of `linescanX`: up to `cc` characters before the end of the line. -/
def copyLine : Nat → Text → Text
  | 0, _ => []
  | _, [] => []
  | cc + 1, ch :: s =>
    if ch = '\n' || (ch = '\r' && (s.head? = some '\n' || s = [])) then []
    else ch :: copyLine cc s

def linescanX (s : Text) (size : Nat) : Text :=
  copyLine (size - 1) (s.dropWhile fun ch => ch == ' ' || ch == '\t')

/-- The fields of `AuthInfo` that a site sets. -/
structure AuthInfo where
  i_user : Text
  i_pass : Text
  i_Host : Text
  i_Port : Nat
deriving DecidableEq, Repr

/-- `scan_userpassX`: the user, the password, and the text from the `@` on, or from the end of
the text. -/
def scan_userpassX (userpass : Text) : Text × Text × Text :=
  let line := (linescanX userpass 64).takeWhile fun c => !(['/', '?', '\r', '\n'].contains c)
  let hp := strrchr '@' line
  let i_user := hp.elim line Prod.fst
  let np := hp.elim [] fun p => userpass.drop p.1.length
  match afterChr ':' i_user with
  | some pp => (beforeChr ':' i_user, (wordscanY pp 64 ['^', '\r', '\n']).1, np)
  | none => (i_user, [], np)

/-- `EOHN`: the characters that end the name of a host. -/
def EOHN : Text := ['^', ':', '/', '?', ' ', '\t', '\r', '\n', '\x0c', '"']

/-- A number stored in the `unsigned short` of a port. -/
def toPort (z : Int) : Nat := (z % 65536).toNat

/-- `decomp_siteX`, which also returns `i_Port`. The port of a service is `serviceport`. -/
def decomp_siteX (serviceport : Text → Int) (proto site : Text) : AuthInfo :=
  let u := scan_userpassX site
  let withUser := u.2.2.head? = some '@'
  let hostport := if withUser then u.2.2.tail else site
  let w := wordscanY hostport 102 EOHN
  let pp := if w.2.head? = some ':' then w.2.tail else []
  { i_user := if withUser then u.1 else []
    i_pass := if withUser then u.2.1 else []
    i_Host := w.1
    i_Port := toPort (if pp ≠ [] then atoi pp else serviceport proto) }

/-- The variables of `scan_hostport1X`: the text written up to `dp`, the part of it before `pp`,
and the port. -/
structure HostScan where
  dp : Text := []
  pp : Option Text := none
  port : Int := 0
deriving DecidableEq, Repr

def HostScan.host (st : HostScan) : Text := st.pp.getD st.dp

/-- The loop of `scan_hostport1X`, with `host` another buffer than the source. -/
def scanHostport1 (hsiz : Nat) : Text → HostScan → HostScan
  | [], st => st
  | ch :: sp, st =>
    if hsiz - 1 ≤ st.dp.length then st
    else if ['/', '?', ' ', '\t', '\r', '\n', '\x0c'].contains ch then st
    else if ch = ':' then scanHostport1 hsiz sp { st with port := atoi sp, pp := some st.dp }
    else if ch = '@' then scanHostport1 hsiz sp {}
    else if ch.toNat &&& 0x80 ≠ 0 ∨ ch.toNat ≤ 0x20 then st
    else scanHostport1 hsiz sp { st with dp := st.dp ++ [ch] }

/-- `scan_hostport1X`: the host and the port. -/
def scan_hostport1X (hostport : Text) (hsiz : Nat) : Text × Int :=
  let st := scanHostport1 hsiz hostport {}
  (st.host, st.port)

/-! ## The site of a URL -/

/-- `scan_URI_scheme`: the text up to a `:` or a blank, in a buffer of `size` bytes. -/
def scan_URI_scheme (url : Text) (size : Nat) : Text :=
  (url.take (size - 1)).takeWhile fun c => c != ':' && !isspace c

/-- The characters of a site in `scan_URI_site`. -/
def uriSiteChar (c : Char) : Bool :=
  c.isAlphanum || "-.:@%$_!~*'(),;&=+#".toList.contains c

def scan_URI_site (url : Text) (size : Nat) : Text :=
  let size := if size = 0 then 248 else size
  (XStrncpy url (min size 512)).takeWhile uriSiteChar

/-- What `decomp_URL_site` leaves: the texts of its two buffers of 256 bytes, and the site, which
is cut at the `:` if it has an `@` before. -/
structure SiteParts where
  userpasshost : Text
  port : Text
  site : Text
deriving DecidableEq, Repr

def decomp_URL_site (site : Text) : SiteParts :=
  match strrchr '@' site with
  | some (user, host) =>
    match afterChr ':' host with
    | some pp =>
      let cut := user ++ '@' :: beforeChr ':' host
      { userpasshost := XStrncpy cut 256, port := XStrncpy pp 256, site := cut }
    | none => { userpasshost := XStrncpy site 256, port := [], site }
  | none =>
    -- the format is `%[^:]:%s`
    let host := beforeChr ':' (site.take 255)
    let port := match site.drop host.length with
      | ':' :: pp => ((pp.dropWhile isspace).takeWhile (!isspace ·)).take 255
      | _ => []
    if host = [] then { userpasshost := [], port := [], site }
    else { userpasshost := host, port, site }

/-- What `scan_protositeport` returns and leaves in its buffers. -/
structure ProtoSitePort where
  got : Nat
  proto : Text
  userpasshost : Text
  port : Text
deriving DecidableEq, Repr

def scan_protositeport (url : Text) : ProtoSitePort :=
  let proto := if url.head? = some '/' then [] else scan_URI_scheme url 64
  let sp := url.drop proto.length
  let sp := if sp.head? = some ':' then sp.tail else sp
  -- one `/` will do, for some browsers
  let site := match sp with
    | '/' :: '/' :: sp => some sp
    | '/' :: sp => some sp
    | _ => none
  match site with
  | none => { got := 0, proto, userpasshost := [], port := [] }
  | some sp =>
    let d := decomp_URL_site (scan_URI_site sp 256)
    { got := if d.port = [] then 2 else 3, proto, userpasshost := d.userpasshost, port := d.port }

/-- The macro `SITEC`. -/
def SITEC (c : Char) : Bool :=
  c.toNat &&& 0x80 == 0 && 0x20 < c.toNat && c != '/' && c != '?'

/-- The text that `decomp_absurl` leaves in `login`: the site of an absolute URL. -/
def absurlLogin (url : Text) : Text :=
  match url.drop ((url.take 31).takeWhile (· != ':')).length with
  | ':' :: '/' :: '/' :: up => (up.take 255).takeWhile SITEC
  | _ => []

/-! ## The parts of a site -/

/-- The site is the text before the first `/` or `?`. -/
def siteText (site : Text) : Text := site.takeWhile fun c => c != '/' && c != '?'

/-- The part after the last `@`. -/
def hostPart (s : Text) : Text :=
  match strrchr '@' s with
  | some p => p.2
  | none => s

/-- The host part up to its last `:`, or all of it. -/
def nameOf (h : Text) : Text :=
  match strrchr ':' h with
  | some p => p.1 ++ [':']
  | none => h

/-- The site up to the port. -/
def throughName (s : Text) : Text :=
  match strrchr '@' s with
  | some p => p.1 ++ '@' :: nameOf p.2
  | none => nameOf s

/-- The characters of the sites in question: ASCII, not blank, not a quote. -/
def siteChar (c : Char) : Bool := 0x20 < c.toNat && c.toNat < 0x80 && c != '"'

/-- A buffer of `hsiz` bytes has room at each character of the text, if it holds `n` characters
before. An `@` empties the buffer, and a `:` is not copied. -/
def Room (hsiz : Nat) : Nat → Text → Prop
  | _, [] => True
  | n, c :: s => n < hsiz - 1 ∧ Room hsiz (if c = ':' then n else if c = '@' then 0 else n + 1) s

instance instDecidableRoom (hsiz : Nat) : (n : Nat) → (s : Text) → Decidable (Room hsiz n s)
  | _, [] => isTrue trivial
  | n, c :: s =>
    have := instDecidableRoom hsiz (if c = ':' then n else if c = '@' then 0 else n + 1) s
    inferInstanceAs (Decidable (n < hsiz - 1 ∧
      Room hsiz (if c = ':' then n else if c = '@' then 0 else n + 1) s))

/-- The buffers of both scanners hold what they need of the site: the last `@` is in the copy of
63 characters, the host is at most 101 characters long, and the buffer of `scan_hostport1X` is
never full before the port. -/
structure WithinLimits (s : Text) (hsiz : Nat) : Prop where
  near : '@' ∉ s.drop 63
  name : (beforeChr ':' (hostPart s)).length ≤ 101
  room : Room hsiz 0 (throughName s)

/-- Does the host part have text after its first `:`? -/
def explicitPort (h : Text) : Bool := (afterChr ':' h).any fun r => r != []

/-- Both scanners find the same in a site with this host part. Without an explicit port each
gives 0 or the port of the service. -/
structure SitesAgree (h : Text) (dflt : Int) (d : AuthInfo) (c : Text × Int) : Prop where
  host : d.i_Host = c.1
  port : if explicitPort h = true then (d.i_Port : Int) = c.2
    else (d.i_Port = 0 ∨ d.i_Port = toPort dflt) ∧ (c.2 = 0 ∨ c.2 = dflt)
  inside : c.1 <:+: h

/-- The host part has one port of 16 bits at most. After a row of `:` only a port that is read
as 0 will do. -/
def OnePort (h : Text) : Prop :=
  match afterChr ':' h with
  | none => True
  | some r =>
    ':' ∉ r.dropWhile (· == ':') ∧
      if r.head? = some ':' then atoi (r.dropWhile (· == ':')) = 0
      else 0 ≤ atoi r ∧ atoi r ≤ 65535

/-! ## The end of a site -/

/-- A text that begins with the end of a site. -/
def Stops (tail : Text) : Prop := ∀ c ∈ tail.head?, c = '/' ∨ c = '?'

theorem stops_dropWhile (site : Text) :
    Stops (site.dropWhile fun c => c != '/' && c != '?') := by
  intro c hc
  have h := head_dropWhile (fun c => c != '/' && c != '?') site c hc
  by_contra hn
  simp [not_or.mp hn] at h

/-- The end of a site ends a number. -/
theorem Stops.atoi_append {a tail : Text} (ht : Stops tail) (ha : ∀ c ∈ a, isspace c = false) :
    atoi (a ++ tail) = atoi a := by
  apply atoi_append_of_stop ha
  intro c hc
  rcases ht c hc with rfl | rfl <;> decide

theorem atoi_colon (t : Text) : atoi (':' :: t) = 0 := by
  apply atoi_append_of_stop (a := []) (by simp)
  intro c hc
  cases hc
  decide

/-- A character of a site that does not end it. -/
def inSite (c : Char) : Prop := siteChar c = true ∧ c ≠ '/' ∧ c ≠ '?'

theorem siteText_append (site : Text) :
    siteText site ++ site.dropWhile (fun c => c != '/' && c != '?') = site :=
  List.takeWhile_append_dropWhile

theorem inSite_of_mem {site : Text} (h : ∀ c ∈ siteText site, siteChar c = true) :
    ∀ c ∈ siteText site, inSite c := by
  intro c hc
  have hp := List.mem_takeWhile_imp hc
  simp only [Bool.and_eq_true, bne_iff_ne] at hp
  exact ⟨h c hc, hp⟩

theorem inSite.toNat {c : Char} (h : inSite c) : 0x20 < c.toNat ∧ c.toNat < 0x80 ∧ c ≠ '"' := by
  have h1 := h.1
  simp only [siteChar, Bool.and_eq_true, decide_eq_true_eq, bne_iff_ne] at h1
  exact ⟨h1.1.1, h1.1.2, h1.2⟩

/-- A character of a site is no blank, and no other character up to a blank. -/
theorem inSite.ne {c d : Char} (h : inSite c) (hd : d.toNat ≤ 0x20) : c ≠ d := by
  rintro rfl
  have := h.toNat
  omega

theorem inSite.not_isspace {c : Char} (h : inSite c) : isspace c = false := by
  unfold isspace
  simp only [Bool.or_eq_false_iff, beq_eq_false_iff_ne]
  refine ⟨⟨⟨⟨⟨?_, ?_⟩, ?_⟩, ?_⟩, ?_⟩, ?_⟩ <;> exact h.ne (by decide)

/-! ## The site in `decomp_siteX` -/

/-- The copy of the site, cut where the site ends. -/
theorem takeWhile_copyLine (n : Nat) {s tail : Text} (hs : ∀ c ∈ s, inSite c) (ht : Stops tail) :
    (copyLine n (s ++ tail)).takeWhile (fun c => !(['/', '?', '\r', '\n'].contains c)) =
      s.take n := by
  induction s generalizing n with
  | nil =>
    cases n with
    | zero => cases tail <;> rfl
    | succ n =>
      cases tail with
      | nil => rfl
      | cons c tail => rcases ht c rfl with rfl | rfl <;> rfl
  | cons c s ih =>
    cases n with
    | zero => rfl
    | succ n =>
      have hc := hs c List.mem_cons_self
      have hnl : c ≠ '\n' := hc.ne (by decide)
      have hcr : c ≠ '\r' := hc.ne (by decide)
      have hgo : (!(['/', '?', '\r', '\n'].contains c)) = true := by
        simp [hc.2.1, hc.2.2, hnl, hcr]
      rw [List.cons_append, copyLine, if_neg (by simp [hnl, hcr]),
        List.takeWhile_cons_of_pos (p := fun c => !(['/', '?', '\r', '\n'].contains c)) hgo,
        List.take_succ_cons, ih n fun d hd => hs d (List.mem_cons_of_mem _ hd)]

theorem takeWhile_linescanX {s tail : Text} (hs : ∀ c ∈ s, inSite c) (ht : Stops tail) :
    (linescanX (s ++ tail) 64).takeWhile (fun c => !(['/', '?', '\r', '\n'].contains c)) =
      s.take 63 := by
  have hblank : (s ++ tail).dropWhile (fun ch => ch == ' ' || ch == '\t') = s ++ tail := by
    cases s with
    | nil =>
      cases tail with
      | nil => rfl
      | cons c tail =>
        rcases ht c rfl with rfl | rfl <;> rfl
    | cons c s =>
      have hc := hs c List.mem_cons_self
      apply List.dropWhile_cons_of_neg
      simp [hc.ne (d := ' ') (by decide), hc.ne (d := '\t') (by decide)]
  unfold linescanX
  rw [hblank]
  exact takeWhile_copyLine 63 hs ht

/-- The text from the `@` on. -/
theorem scan_userpassX_np (userpass : Text) :
    (scan_userpassX userpass).2.2 =
      (strrchr '@' ((linescanX userpass 64).takeWhile
        fun c => !(['/', '?', '\r', '\n'].contains c))).elim [] fun p =>
          userpass.drop p.1.length := by
  unfold scan_userpassX
  simp only
  split <;> rfl

/-- The text that `decomp_siteX` reads the host from. -/
def hostportOf (site : Text) : Text :=
  let np := (scan_userpassX site).2.2
  if np.head? = some '@' then np.tail else site

/-- With the last `@` in the copy, the host is read from the text after it. -/
theorem hostportOf_eq {s tail : Text} (hs : ∀ c ∈ s, inSite c) (ht : Stops tail)
    (hnear : '@' ∉ s.drop 63) : hostportOf (s ++ tail) = hostPart s ++ tail := by
  unfold hostportOf hostPart
  simp only [scan_userpassX_np, takeWhile_linescanX hs ht]
  rcases strrchr_cases '@' s with hno | ⟨a, h, rfl, hh⟩
  · rw [strrchr_eq_none hno, strrchr_eq_none fun hm => hno (List.mem_of_mem_take hm)]
    simp
  · have hlen : a.length < 63 := by
      by_contra hlong
      apply hnear
      rw [List.drop_append_of_le_length (by omega)]
      exact List.mem_append_right _ List.mem_cons_self
    have hcut : (a ++ '@' :: h).take 63 = a ++ '@' :: h.take (62 - a.length) := by
      obtain ⟨k, hk⟩ : ∃ k, 63 = a.length + (k + 1) := ⟨62 - a.length, by omega⟩
      rw [hk, List.take_length_add_append, List.take_succ_cons]
      congr 3
      omega
    rw [hcut, strrchr_append hh, strrchr_append fun hm => hh (List.mem_of_mem_take hm)]
    simp

/-- A scan stops at the first character of the stop set, if the buffer is long enough. -/
theorem wordscanY_stop {val rest pat : Text} {siz : Nat} (hlen : val.length ≤ siz - 1)
    (hval : ∀ c ∈ val, pat.contains c = false) (hrest : ∀ c ∈ rest.head?, pat.contains c = true) :
    wordscanY (val ++ rest) siz ('^' :: pat) = (val, rest) := by
  have htake : ((val ++ rest).take (siz - 1)).takeWhile (fun ch => !pat.contains ch) = val := by
    rw [List.take_append, List.take_of_length_le hlen,
      List.takeWhile_append_of_pos fun c hc => by rw [hval c hc]; rfl]
    cases rest with
    | nil => simp
    | cons c rest =>
      have hc := hrest c rfl
      cases siz - 1 - val.length with
      | zero => simp
      | succ n => simpa using hc
  unfold wordscanY
  simp only [htake, List.drop_left]

theorem EOHN_contains {c : Char} (h : inSite c) (hc : c ≠ ':') : EOHN.tail.contains c = false := by
  have hblank : ∀ d : Char, d.toNat ≤ 0x20 → c ≠ d := fun d hd => h.ne hd
  simp [EOHN, hc, h.2.1, h.2.2, h.toNat.2.2, hblank ' ', hblank '\t', hblank '\r', hblank '\n',
    hblank '\x0c']

/-- `decomp_siteX` from the scan of the host. -/
theorem decomp_siteX_of_scan (serviceport : Text → Int) (proto : Text) {site host rest : Text}
    (h : wordscanY (hostportOf site) 102 EOHN = (host, rest)) :
    (decomp_siteX serviceport proto site).i_Host = host ∧
      (decomp_siteX serviceport proto site).i_Port =
        toPort (if (if rest.head? = some ':' then rest.tail else []) ≠ []
          then atoi (if rest.head? = some ':' then rest.tail else [])
          else serviceport proto) := by
  unfold decomp_siteX
  unfold hostportOf at h
  simp only [h]
  exact ⟨trivial, trivial⟩

section Decomp
variable (serviceport : Text → Int) (proto : Text) {s tail : Text} (hs : ∀ c ∈ s, inSite c)
  (ht : Stops tail) (hnear : '@' ∉ s.drop 63)
include hs ht hnear

theorem decomp_siteX_noPort (hlen : (hostPart s).length ≤ 101) (hh : ∀ c ∈ hostPart s, inSite c)
    (hno : ':' ∉ hostPart s) :
    (decomp_siteX serviceport proto (s ++ tail)).i_Host = hostPart s ∧
      (decomp_siteX serviceport proto (s ++ tail)).i_Port = toPort (serviceport proto) := by
  have hscan : wordscanY (hostportOf (s ++ tail)) 102 EOHN = (hostPart s, tail) := by
    rw [hostportOf_eq hs ht hnear]
    apply wordscanY_stop hlen
    · intro c hc
      apply EOHN_contains (hh c hc)
      rintro rfl
      exact hno hc
    · intro c hc
      rcases ht c hc with rfl | rfl <;> rfl
  have hend : tail.head? ≠ some ':' := by
    intro hc
    rcases ht ':' hc with h | h <;> cases h
  have h := decomp_siteX_of_scan serviceport proto hscan
  rwa [if_neg hend, if_neg (by simp)] at h

theorem decomp_siteX_port {name r : Text} (hp : hostPart s = name ++ ':' :: r)
    (hlen : name.length ≤ 101) (hh : ∀ c ∈ name, inSite c) (hno : ':' ∉ name) :
    (decomp_siteX serviceport proto (s ++ tail)).i_Host = name ∧
      (decomp_siteX serviceport proto (s ++ tail)).i_Port =
        toPort (if r ++ tail ≠ [] then atoi (r ++ tail) else serviceport proto) := by
  have hscan : wordscanY (hostportOf (s ++ tail)) 102 EOHN = (name, ':' :: (r ++ tail)) := by
    rw [hostportOf_eq hs ht hnear, hp, List.append_assoc, List.cons_append]
    apply wordscanY_stop hlen
    · intro c hc
      apply EOHN_contains (hh c hc)
      rintro rfl
      exact hno hc
    · intro c hc
      cases hc
      rfl
  exact decomp_siteX_of_scan serviceport proto hscan

end Decomp

/-! ## The site in `scan_hostport1X` -/

section Scan
variable {hsiz : Nat}

theorem scanHostport1_cons {ch : Char} (hch : inSite ch) (sp : Text) (st : HostScan)
    (hroom : st.dp.length < hsiz - 1) :
    scanHostport1 hsiz (ch :: sp) st =
      if ch = ':' then scanHostport1 hsiz sp { st with port := atoi sp, pp := some st.dp }
      else if ch = '@' then scanHostport1 hsiz sp {}
      else scanHostport1 hsiz sp { st with dp := st.dp ++ [ch] } := by
  have hblank : ∀ d : Char, d.toNat ≤ 0x20 → ch ≠ d := fun d hd => hch.ne hd
  have hexit : ['/', '?', ' ', '\t', '\r', '\n', '\x0c'].contains ch = false := by
    simp [hch.2.1, hch.2.2, hblank ' ', hblank '\t', hblank '\r', hblank '\n', hblank '\x0c']
  have h8bit : ch.toNat &&& 0x80 = 0 := by
    rw [show 0x80 = 2 ^ 7 by rfl, Nat.and_two_pow, Nat.testBit_lt_two_pow hch.toNat.2.1]
    rfl
  have hlow : ¬(ch.toNat &&& 0x80 ≠ 0 ∨ ch.toNat ≤ 0x20) := by
    have := hch.toNat
    omega
  rw [scanHostport1, if_neg (by omega), if_neg (by simp only [hexit, Bool.false_eq_true,
    not_false_eq_true]), if_neg hlow]

theorem scanHostport1_stop {tail : Text} (ht : Stops tail) (st : HostScan) :
    scanHostport1 hsiz tail st = st := by
  cases tail with
  | nil => rfl
  | cons c tail =>
    have hexit : ['/', '?', ' ', '\t', '\r', '\n', '\x0c'].contains c = true := by
      rcases ht c rfl with rfl | rfl <;> rfl
    rw [scanHostport1, if_pos hexit]
    split <;> rfl

/-- An `@` starts the scan again. -/
theorem scanHostport1_at {a : Text} (ha : ∀ c ∈ a, inSite c) (rest : Text) (st : HostScan)
    (hroom : Room hsiz st.dp.length (a ++ ['@'])) :
    scanHostport1 hsiz (a ++ '@' :: rest) st = scanHostport1 hsiz rest {} := by
  induction a generalizing st with
  | nil =>
    rw [List.nil_append, scanHostport1_cons ⟨rfl, by decide, by decide⟩ _ _ hroom.1]
    rfl
  | cons c a ih =>
    obtain ⟨hlt, hroom⟩ := hroom
    have ih' := ih fun d hd => ha d (List.mem_cons_of_mem _ hd)
    rw [List.cons_append, scanHostport1_cons (ha c List.mem_cons_self) _ _ hlt]
    by_cases hcolon : c = ':'
    · rw [if_pos hcolon] at hroom ⊢
      exact ih' _ hroom
    rw [if_neg hcolon] at hroom ⊢
    by_cases hat : c = '@'
    · rw [if_pos hat] at hroom ⊢
      exact ih' _ hroom
    · rw [if_neg hat] at hroom ⊢
      apply ih'
      rwa [List.length_append]

/-- At the last `:` the buffer holds the text before, without its colons. -/
theorem scanHostport1_colon {q : Text} (hq : ∀ c ∈ q, inSite c) (hat : '@' ∉ q) (rest : Text)
    (st : HostScan) (hroom : Room hsiz st.dp.length (q ++ [':'])) :
    scanHostport1 hsiz (q ++ ':' :: rest) st =
      scanHostport1 hsiz rest
        { dp := st.dp ++ q.filter (· != ':'), pp := some (st.dp ++ q.filter (· != ':'))
          port := atoi rest } := by
  induction q generalizing st with
  | nil =>
    rw [List.nil_append, scanHostport1_cons ⟨rfl, by decide, by decide⟩ _ _ hroom.1]
    simp
  | cons c q ih =>
    obtain ⟨hlt, hroom⟩ := hroom
    obtain ⟨hc, hat'⟩ := List.ne_and_not_mem_of_not_mem_cons hat
    have ih' := ih (fun d hd => hq d (List.mem_cons_of_mem _ hd)) hat'
    rw [List.cons_append, scanHostport1_cons (hq c List.mem_cons_self) _ _ hlt]
    by_cases hcolon : c = ':'
    · rw [if_pos hcolon] at hroom ⊢
      rw [List.filter_cons_of_neg (by simp [hcolon])]
      exact ih' _ hroom
    · rw [if_neg hcolon, if_neg (Ne.symm hc)] at hroom ⊢
      rw [ih' _ (by rwa [List.length_append]), List.filter_cons_of_pos (by simp [hcolon]),
        List.append_assoc]
      rfl

/-- After the last `:` the host and the port stay as they are. -/
theorem scanHostport1_rest {r tail : Text} (hr : ∀ c ∈ r, inSite c) (hat : '@' ∉ r)
    (hcolon : ':' ∉ r) (ht : Stops tail) (st : HostScan) (host : Text) (hpp : st.pp = some host) :
    (scanHostport1 hsiz (r ++ tail) st).host = host ∧
      (scanHostport1 hsiz (r ++ tail) st).port = st.port := by
  induction r generalizing st with
  | nil =>
    rw [List.nil_append, scanHostport1_stop ht]
    exact ⟨by rw [HostScan.host, hpp, Option.getD_some], rfl⟩
  | cons c r ih =>
    obtain ⟨hc, hat'⟩ := List.ne_and_not_mem_of_not_mem_cons hat
    obtain ⟨hc', hcolon'⟩ := List.ne_and_not_mem_of_not_mem_cons hcolon
    by_cases hroom : st.dp.length < hsiz - 1
    · rw [List.cons_append, scanHostport1_cons (hr c List.mem_cons_self) _ _ hroom,
        if_neg (Ne.symm hc'), if_neg (Ne.symm hc)]
      exact ih (fun d hd => hr d (List.mem_cons_of_mem _ hd)) hat' hcolon' _ hpp
    · rw [List.cons_append, scanHostport1, if_pos (by omega)]
      exact ⟨by rw [HostScan.host, hpp, Option.getD_some], rfl⟩

/-- Without a `:` the host is all of the text. -/
theorem scanHostport1_name {r tail : Text} (hr : ∀ c ∈ r, inSite c) (hat : '@' ∉ r)
    (hcolon : ':' ∉ r) (ht : Stops tail) (st : HostScan) (hroom : Room hsiz st.dp.length r) :
    scanHostport1 hsiz (r ++ tail) st = { st with dp := st.dp ++ r } := by
  induction r generalizing st with
  | nil => rw [List.nil_append, scanHostport1_stop ht, List.append_nil]
  | cons c r ih =>
    obtain ⟨hlt, hroom⟩ := hroom
    obtain ⟨hc, hat'⟩ := List.ne_and_not_mem_of_not_mem_cons hat
    obtain ⟨hc', hcolon'⟩ := List.ne_and_not_mem_of_not_mem_cons hcolon
    rw [if_neg (Ne.symm hc'), if_neg (Ne.symm hc)] at hroom
    rw [List.cons_append, scanHostport1_cons (hr c List.mem_cons_self) _ _ hlt,
      if_neg (Ne.symm hc'), if_neg (Ne.symm hc),
      ih (fun d hd => hr d (List.mem_cons_of_mem _ hd)) hat' hcolon' _
        (by rwa [List.length_append]), List.append_assoc]
    rfl

theorem Room.split_at {n : Nat} {a b : Text} (h : Room hsiz n (a ++ '@' :: b)) :
    Room hsiz n (a ++ ['@']) ∧ Room hsiz 0 b := by
  induction a generalizing n with
  | nil => exact ⟨⟨h.1, trivial⟩, h.2⟩
  | cons c a ih => exact ⟨⟨h.1, (ih h.2).1⟩, (ih h.2).2⟩

/-- Only the part after the last `@` counts. -/
theorem scanHostport1_hostPart {s : Text} (hs : ∀ c ∈ s, inSite c) (tail : Text)
    (hroom : Room hsiz 0 (throughName s)) :
    scanHostport1 hsiz (s ++ tail) {} = scanHostport1 hsiz (hostPart s ++ tail) {} ∧
      Room hsiz 0 (nameOf (hostPart s)) := by
  unfold hostPart throughName at *
  rcases strrchr_cases '@' s with hno | ⟨a, h, rfl, hh⟩
  · rw [strrchr_eq_none hno] at hroom ⊢
    exact ⟨rfl, hroom⟩
  · rw [strrchr_append hh] at hroom ⊢
    obtain ⟨hleft, hright⟩ := hroom.split_at
    refine ⟨?_, hright⟩
    rw [List.append_assoc, List.cons_append]
    exact scanHostport1_at (fun c hc => hs c (List.mem_append_left _ hc)) _ _ hleft

section Result
variable {s tail : Text} (hs : ∀ c ∈ s, inSite c) (ht : Stops tail)
  (hh : ∀ c ∈ hostPart s, inSite c ∧ c ≠ '@') (hroom : Room hsiz 0 (throughName s))
include hs ht hh hroom

theorem scan_hostport1X_noPort (hno : ':' ∉ hostPart s) :
    scan_hostport1X (s ++ tail) hsiz = (hostPart s, 0) := by
  obtain ⟨hscan, hname⟩ := scanHostport1_hostPart hs tail hroom
  unfold nameOf at hname
  rw [strrchr_eq_none hno] at hname
  have hat : '@' ∉ hostPart s := fun h => (hh '@' h).2 rfl
  unfold scan_hostport1X
  rw [hscan, scanHostport1_name (fun c hc => (hh c hc).1) hat hno ht {} hname]
  rfl

theorem scan_hostport1X_port {q r : Text} (hp : hostPart s = q ++ ':' :: r) (hr : ':' ∉ r) :
    scan_hostport1X (s ++ tail) hsiz = (q.filter (· != ':'), atoi (r ++ tail)) := by
  obtain ⟨hscan, hname⟩ := scanHostport1_hostPart hs tail hroom
  unfold nameOf at hname
  rw [hp, strrchr_append hr] at hname
  have hq : ∀ c ∈ q, inSite c ∧ c ≠ '@' := fun c hc =>
    hh c (hp ▸ List.mem_append_left _ hc)
  have hrest0 : ∀ c ∈ r, inSite c ∧ c ≠ '@' := fun c hc =>
    hh c (hp ▸ List.mem_append_right _ (List.mem_cons_of_mem _ hc))
  have hcolon := scanHostport1_colon (fun c hc => (hq c hc).1) (fun h => (hq '@' h).2 rfl)
    (r ++ tail) {} hname
  have hrest := @scanHostport1_rest hsiz r tail (fun c hc => (hrest0 c hc).1)
    (fun h => (hrest0 '@' h).2 rfl) hr ht
    { dp := q.filter (· != ':'), pp := some (q.filter (· != ':')), port := atoi (r ++ tail) }
    (q.filter (· != ':')) rfl
  unfold scan_hostport1X
  rw [hscan, hp, List.append_assoc, List.cons_append, hcolon]
  exact Prod.ext hrest.1 hrest.2

end Result

end Scan

/-! ## The law of the two scanners -/

theorem toPort_eq_iff (z : Int) : (toPort z : Int) = z ↔ 0 ≤ z ∧ z ≤ 65535 := by
  unfold toPort
  omega

theorem filter_colons {t : Text} (h : ':' ∉ t) : t.filter (· != ':') = t := by
  rw [List.filter_eq_self]
  intro c hc
  rw [bne_iff_ne]
  rintro rfl
  exact h hc

/-- The colons at the head of a text are gone, and a colon stays if another character stood
before it. -/
theorem dropWhile_colons (m p : Text) (hp : ':' ∉ p) :
    (m.filter (· != ':') = [] → (m ++ ':' :: p).dropWhile (· == ':') = p) ∧
      (m.filter (· != ':') ≠ [] → ':' ∈ (m ++ ':' :: p).dropWhile (· == ':')) := by
  induction m with
  | nil =>
    have hdrop : p.dropWhile (· == ':') = p := by
      cases p with
      | nil => rfl
      | cons c p =>
        have hc := (List.ne_and_not_mem_of_not_mem_cons hp).1
        exact List.dropWhile_cons_of_neg (by simp [Ne.symm hc])
    exact ⟨fun _ => by simpa using hdrop, fun h => absurd rfl h⟩
  | cons c m ih =>
    by_cases hc : c = ':'
    · subst hc
      simpa using ih
    · simp [hc]

theorem hostPart_not_mem (s : Text) : '@' ∉ hostPart s ∧ ∀ c ∈ hostPart s, c ∈ s := by
  unfold hostPart
  rcases strrchr_cases '@' s with hno | ⟨a, h, rfl, hh⟩
  · rw [strrchr_eq_none hno]
    exact ⟨hno, fun c hc => hc⟩
  · rw [strrchr_append hh]
    exact ⟨hh, fun c hc => List.mem_append_right _ (List.mem_cons_of_mem _ hc)⟩

theorem agree_noPort {h : Text} {dflt : Int} {d : AuthInfo} (hno : ':' ∉ h)
    (hd : d.i_Host = h ∧ d.i_Port = toPort dflt) : SitesAgree h dflt d (h, 0) := by
  refine ⟨hd.1, ?_, List.infix_rfl⟩
  have hexp : explicitPort h = false := by
    unfold explicitPort
    rw [afterChr_eq_none hno]
    rfl
  rw [hexp, if_neg (by decide)]
  exact ⟨.inr hd.2, .inl rfl⟩

section Ports
variable {name r tail : Text} {dflt : Int} {d : AuthInfo} (hname : ':' ∉ name)
  (hr : ∀ c ∈ r, isspace c = false) (ht : Stops tail)
  (hd : d.i_Host = name ∧
    d.i_Port = toPort (if r ++ tail ≠ [] then atoi (r ++ tail) else dflt))
include hname hr ht hd

/-- One `:` in the host part: only a port beyond 16 bits is not read alike. -/
theorem agree_onePort (hone : ':' ∉ r) :
    SitesAgree (name ++ ':' :: r) dflt d (name, atoi (r ++ tail)) ↔
      0 ≤ atoi r ∧ atoi r ≤ 65535 := by
  have hatoi : atoi (r ++ tail) = atoi r := ht.atoi_append hr
  have hexp : explicitPort (name ++ ':' :: r) = (r != []) := by
    unfold explicitPort
    rw [afterChr_append hname]
    rfl
  have hin : name <:+: name ++ ':' :: r := (List.prefix_append _ _).isInfix
  by_cases hempty : r = []
  · subst hempty
    have hzero : atoi tail = 0 := hatoi
    refine iff_of_true ⟨hd.1, ?_, hin⟩ (by decide)
    rw [hexp, if_neg (by decide)]
    refine ⟨?_, .inl hatoi⟩
    rw [hd.2, List.nil_append, hzero]
    by_cases htail : tail = []
    · exact .inr (by simp [htail])
    · exact .inl (by simp [htail, toPort])
  · have hport : d.i_Port = toPort (atoi r) := by
      rw [hd.2, if_pos (by simp [hempty]), hatoi]
    rw [← toPort_eq_iff, hatoi, ← hport]
    constructor
    · intro h
      have hp := h.port
      rwa [hexp, if_pos (by simpa using hempty)] at hp
    · intro h
      refine ⟨hd.1, ?_, hin⟩
      rwa [hexp, if_pos (by simpa using hempty)]

/-- More than one `:`: one scanner stops at the first and the other at the last, and only empty
ports between them are read alike. -/
theorem agree_manyPorts {m p : Text} (hmany : r = m ++ ':' :: p) (hp : ':' ∉ p) :
    SitesAgree (name ++ ':' :: r) dflt d ((name ++ ':' :: m).filter (· != ':'), atoi (p ++ tail)) ↔
      ':' ∉ r.dropWhile (· == ':') ∧ r.head? = some ':' ∧ atoi (r.dropWhile (· == ':')) = 0 := by
  have hfilter : (name ++ ':' :: m).filter (· != ':') = name ++ m.filter (· != ':') := by
    rw [List.filter_append, filter_colons hname, List.filter_cons_of_neg (by decide)]
  obtain ⟨hclear, hkeep⟩ := dropWhile_colons m p hp
  rw [hfilter]
  by_cases hm : m.filter (· != ':') = []
  · have hdrop : r.dropWhile (· == ':') = p := hmany ▸ hclear hm
    obtain ⟨r', hhead⟩ : ∃ r', r = ':' :: r' := by
      cases m with
      | nil => exact ⟨p, hmany⟩
      | cons c m =>
        have hc : c = ':' := by
          simpa using List.filter_eq_nil_iff.mp hm c List.mem_cons_self
        exact ⟨m ++ ':' :: p, by rw [hmany, hc, List.cons_append]⟩
    have hatoi : atoi (p ++ tail) = atoi p := by
      apply ht.atoi_append
      intro c hc
      exact hr c (hmany ▸ List.mem_append_right _ (List.mem_cons_of_mem _ hc))
    have hport : d.i_Port = 0 := by
      rw [hd.2, hhead, List.cons_append, atoi_colon, if_pos (List.cons_ne_nil _ _)]
      rfl
    have hexp : explicitPort (name ++ ':' :: r) = true := by
      unfold explicitPort
      rw [afterChr_append hname, hmany]
      simp
    rw [hm, List.append_nil, hdrop, hatoi]
    constructor
    · intro h
      have hpt := h.port
      rw [if_pos hexp, hport] at hpt
      exact ⟨hp, by rw [hhead, List.head?_cons], hpt.symm⟩
    · rintro ⟨-, -, hz⟩
      refine ⟨hd.1, ?_, (List.prefix_append _ _).isInfix⟩
      rw [if_pos hexp, hport, hz]
      rfl
  · apply iff_of_false
    · intro h
      have hhost := h.host
      rw [hd.1] at hhost
      exact hm (List.self_eq_append_right.mp hhost)
    · rintro ⟨hno, -⟩
      exact hno (hmany ▸ hkeep hm)

end Ports

/-- Within the limits of their buffers, the two scanners agree on a site exactly if it has one
port at most. -/
theorem sites_agree_iff (serviceport : Text → Int) (proto site : Text) (hsiz : Nat)
    (hsite : (siteText site).all siteChar = true)
    (hlim : WithinLimits (siteText site) hsiz) :
    SitesAgree (hostPart (siteText site)) (serviceport proto)
        (decomp_siteX serviceport proto site) (scan_hostport1X site hsiz) ↔
      OnePort (hostPart (siteText site)) := by
  have hs := inSite_of_mem (List.all_eq_true.mp hsite)
  have ht := stops_dropWhile site
  have heq := siteText_append site
  generalize site.dropWhile (fun c => c != '/' && c != '?') = tail at ht heq
  obtain ⟨hat, hsub⟩ := hostPart_not_mem (siteText site)
  have hh : ∀ c ∈ hostPart (siteText site), inSite c ∧ c ≠ '@' := fun c hc =>
    ⟨hs c (hsub c hc), fun h => hat (h ▸ hc)⟩
  have hname := hlim.name
  unfold OnePort
  by_cases hcolon : ':' ∈ hostPart (siteText site)
  · obtain ⟨name, r, hp, hno⟩ := List.eq_append_cons_of_mem hcolon
    have hr : ∀ c ∈ r, isspace c = false := fun c hc =>
      (hh c (hp ▸ List.mem_append_right _ (List.mem_cons_of_mem _ hc))).1.not_isspace
    rw [hp, beforeChr_append hno] at hname
    have hd := decomp_siteX_port serviceport proto hs ht hlim.near hp hname
      (fun c hc => (hh c (hp ▸ List.mem_append_left _ hc)).1) hno
    rw [heq] at hd
    rw [hp, afterChr_append hno]
    rcases strrchr_cases ':' r with hone | ⟨m, p, hmany, hlast⟩
    · have hc := scan_hostport1X_port hs ht hh hlim.room hp hone
      have hhead : r.head? ≠ some ':' := fun h => hone (List.mem_of_mem_head? h)
      have hdrop : ':' ∉ r.dropWhile (· == ':') := fun h => hone (List.dropWhile_subset _ h)
      rw [heq, filter_colons hno] at hc
      rw [hc, agree_onePort hno hr ht hd hone]
      simp only [hdrop, hhead, if_false, not_false_eq_true, true_and]
    · have hq : hostPart (siteText site) = (name ++ ':' :: m) ++ ':' :: p := by
        rw [hp, hmany, List.append_assoc, List.cons_append]
      have hc := scan_hostport1X_port hs ht hh hlim.room hq hlast
      rw [heq] at hc
      rw [hc, agree_manyPorts hno hr ht hd hmany hlast]
      by_cases hhead : r.head? = some ':'
      · simp only [hhead, if_true, true_and]
      · have hmem : ':' ∈ r.dropWhile (· == ':') := by
          cases r with
          | nil => simp at hmany
          | cons c r =>
            rw [List.dropWhile_cons_of_neg (by simpa using hhead), hmany]
            exact List.mem_append_right _ List.mem_cons_self
        simp only [hmem, not_true_eq_false, false_and]
  · have hall : beforeChr ':' (hostPart (siteText site)) = hostPart (siteText site) := by
      apply List.takeWhile_eq_self_iff.mpr
      intro c hc
      rw [decide_eq_true_eq]
      rintro rfl
      exact hcolon hc
    rw [hall] at hname
    have hd := decomp_siteX_noPort serviceport proto hs ht hlim.near hname
      (fun c hc => (hh c hc).1) hcolon
    have hc := scan_hostport1X_noPort hs ht hh hlim.room hcolon
    rw [heq] at hd hc
    rw [hc, afterChr_eq_none hcolon]
    exact iff_of_true (agree_noPort hcolon hd) trivial

theorem sites_agree_one :
    SitesAgree ['h', ':', '8', '0'] 21
        (decomp_siteX (fun _ => 21) [] ['u', ':', '@', 'h', ':', '8', '0', '/'])
        (scan_hostport1X ['u', ':', '@', 'h', ':', '8', '0', '/'] 256) :=
  (sites_agree_iff (fun _ => 21) [] ['u', ':', '@', 'h', ':', '8', '0', '/'] 256 (by decide)
    ⟨by decide, by decide, by decide⟩).mpr <| by
      change ':' ∉ ['8', '0'] ∧ 0 ≤ atoi ['8', '0'] ∧ atoi ['8', '0'] ≤ 65535
      decide

/-- A second `:`: one scanner finds the host `a` with the port 0, the other the host `ab`, which
is not in the site, with the port 80. -/
theorem sites_disagree :
    ¬SitesAgree (hostPart (siteText ['a', ':', 'b', ':', '8', '0'])) 21
        (decomp_siteX (fun _ => 21) [] ['a', ':', 'b', ':', '8', '0'])
        (scan_hostport1X ['a', ':', 'b', ':', '8', '0'] 256) := by
  intro h
  have hhost := h.host
  revert hhost
  decide

end delegate.url
