-- An absolute URL taken apart by `decomp_absurl`: the protocol, the site and the
-- path, each copied by a loop of its own with a bound of its own.
import Delegate.UrlSite

open ctext

namespace delegate.url

/-! ## The pure model -/

/-- `MaxHostNameLen`, the size of the buffer for the protocol and for the site. -/
def MaxHostNameLen : Nat := 256

/-- The macro `PATHC`. -/
def PATHC (c : Char) : Bool := c != '\r' && c != '\n'

/-- What `decomp_absurlX` returns and stores. `urlpathp` is the text at `*urlpathpp`. -/
structure Absurl where
  ni : Nat
  proto : Text
  login : Text := []
  upath : Text := []
  urlpathp : Option Text := none
deriving DecidableEq, Repr

/-- The copy into `upath`, of the text at `up`, up to the place `ulen - 1` of the URL. -/
def copyPath (url up : Text) (ulen : Nat) : Text :=
  (up.take (ulen - 1 - (url.length - up.length))).takeWhile PATHC

/-- `decomp_absurlX`, with a place for the path or without. -/
def decomp_absurlX (url : Text) (withPath : Bool) (ulen : Nat) : Absurl :=
  let proto := (url.take (32 - 1)).takeWhile (· != ':')
  match url.drop proto.length with
  | ':' :: '/' :: '/' :: up =>
    let login := (up.take (MaxHostNameLen - 1)).takeWhile SITEC
    let rest := up.drop login.length
    let path := fun up => if withPath then copyPath url up ulen else []
    match rest with
    | '?' :: _ => { ni := 3, proto, login, upath := path rest, urlpathp := some rest }
    | '/' :: up => { ni := 3, proto, login, upath := path up, urlpathp := some rest }
    | _ => { ni := 2, proto, login, urlpathp := some rest }
  | ':' :: _ => { ni := 1, proto }
  | _ => { ni := 0, proto }

def decomp_absurl (url : Text) (ulen : Nat) : Absurl := decomp_absurlX url true ulen

/-! ## Bounded copies -/

/-- A copy of `n` characters at most, where the run ends before that. -/
theorem takeWhile_take_append {p : Char → Bool} {n : Nat} {a b : Text}
    (ha : ∀ c ∈ a, p c = true) (hn : a.length ≤ n) (hb : ∀ c ∈ b.head?, p c = false) :
    ((a ++ b).take n).takeWhile p = a := by
  obtain ⟨k, rfl⟩ : ∃ k, n = a.length + k := ⟨n - a.length, by omega⟩
  rw [List.take_length_add_append, List.takeWhile_append_of_pos ha]
  cases b with
  | nil => simp
  | cons c b =>
    cases k with
    | zero => simp
    | succ k => simp [hb c rfl]

theorem append_drop_takeWhile (p : Char → Bool) (n : Nat) (s : Text) :
    s = (s.take n).takeWhile p ++ s.drop ((s.take n).takeWhile p).length := by
  have hpre : (s.take n).takeWhile p <+: s :=
    (List.takeWhile_prefix p).trans (List.take_prefix n s)
  exact (List.prefix_iff_eq_append.mp hpre).symm

/-- The site that an earlier module reads from the URL is the one stored here. -/
theorem login_decomp_absurlX (url : Text) (withPath : Bool) (ulen : Nat) :
    (decomp_absurlX url withPath ulen).login = absurlLogin url := by
  unfold decomp_absurlX absurlLogin
  dsimp only
  split
  · rename_i heq
    split <;> simp_all [MaxHostNameLen]
  all_goals simp_all

/-! ## The parts -/

/-- A character of a site: in ASCII, above the blank, and neither `/` nor `?`. -/
def siteByte (c : Char) : Prop := c.toNat < 0x80 ∧ 0x20 < c.toNat ∧ c ≠ '/' ∧ c ≠ '?'

theorem SITEC_iff {c : Char} (h : c.toNat < 256) : SITEC c = true ↔ siteByte c := by
  have hand : ∀ n < 256, (n &&& 0x80 = 0 ↔ n < 0x80) := by decide +kernel
  unfold SITEC siteByte
  simp only [Bool.and_eq_true, beq_iff_eq, hand _ h, decide_eq_true_eq, bne_iff_ne, and_assoc]

/-- A URL and its parts: a protocol of 31 characters at most, the run of the characters of a
site, and what begins with a `/` or a `?`. -/
structure Splits (u proto site r : Text) : Prop where
  text : u = proto ++ [':', '/', '/'] ++ site ++ r
  short : proto.length ≤ 31
  noColon : ':' ∉ proto
  site : ∀ c ∈ site, siteByte c
  path : r.head? = some '/' ∨ r.head? = some '?'

section
variable {u proto site r : Text} (h : Splits u proto site r)
include h

theorem Splits.proto_eq : (u.take (32 - 1)).takeWhile (· != ':') = proto := by
  rw [h.text, List.append_assoc, List.append_assoc]
  apply takeWhile_take_append _ h.short
  · simp
  · intro c hc
    simp only [bne_iff_ne, ne_eq]
    rintro rfl
    exact h.noColon hc

theorem Splits.drop_proto : u.drop proto.length = ':' :: '/' :: '/' :: (site ++ r) := by
  rw [h.text, List.append_assoc, List.append_assoc, List.drop_left]
  rfl

theorem Splits.login_eq (hbytes : ∀ c ∈ u, c.toNat < 256) (hbuf : u.length < MaxHostNameLen) :
    ((site ++ r).take (MaxHostNameLen - 1)).takeWhile SITEC = site := by
  apply takeWhile_take_append
  · intro c hc
    have hu : c ∈ u := by
      rw [h.text]
      simp [hc]
    exact (SITEC_iff (hbytes c hu)).mpr (h.site c hc)
  · have hlen := congrArg List.length h.text
    simp only [List.length_append] at hlen
    omega
  · intro c hc
    rcases h.path with hr | hr
    · rw [hr] at hc
      cases hc
      rfl
    · rw [hr] at hc
      cases hc
      rfl

/-- The text that the path is copied from. -/
def pathOf (r : Text) : Text := if r.head? = some '/' then r.tail else r

theorem decomp_absurlX_of_splits (hbytes : ∀ c ∈ u, c.toNat < 256)
    (hbuf : u.length < MaxHostNameLen) (withPath : Bool) (ulen : Nat) :
    decomp_absurlX u withPath ulen =
      { ni := 3, proto, login := site, urlpathp := some r,
        upath := if withPath then copyPath u (pathOf r) ulen else [] } := by
  unfold decomp_absurlX
  dsimp only
  rw [h.proto_eq, h.drop_proto]
  simp only [h.login_eq hbytes hbuf, List.drop_left]
  obtain ⟨t, rfl⟩ | ⟨t, rfl⟩ : (∃ t, r = '/' :: t) ∨ ∃ t, r = '?' :: t := by
    cases r with
    | nil => simpa using h.path
    | cons c t => simpa using h.path
  · simp [pathOf]
  · simp [pathOf]

omit h in
/-- With room for the whole URL, the path is copied up to its end. -/
theorem copyPath_eq {up : Text} {ulen : Nat} (hsuf : up <:+ u) (hlen : u.length < ulen)
    (hline : ∀ c ∈ u, c ≠ '\r' ∧ c ≠ '\n') : copyPath u up ulen = up := by
  have hle := hsuf.length_le
  unfold copyPath
  rw [List.take_of_length_le (by omega)]
  apply List.takeWhile_eq_self_iff.mpr
  intro c hc
  have hc := hline c (hsuf.subset hc)
  simp [PATHC, hc.1, hc.2]

theorem Splits.pathOf_suffix : pathOf r <:+ u := by
  have hr : r <:+ u := by
    rw [h.text]
    exact List.suffix_append _ _
  unfold pathOf
  split
  · exact (List.tail_suffix r).trans hr
  · exact hr

end

/-- What returns 3 has the parts. -/
theorem splits_of_ni {u : Text} {withPath : Bool} {ulen : Nat} (hbytes : ∀ c ∈ u, c.toNat < 256)
    (h : (decomp_absurlX u withPath ulen).ni = 3) : ∃ proto site r, Splits u proto site r := by
  unfold decomp_absurlX at h
  dsimp only at h
  have htext := append_drop_takeWhile (· != ':') (32 - 1) u
  generalize hproto : (u.take (32 - 1)).takeWhile (· != ':') = proto at h htext
  have hshort : proto.length ≤ 31 := by
    rw [← hproto]
    exact (List.takeWhile_prefix _).length_le.trans (List.length_take_le _ _)
  have hcolon : ':' ∉ proto := by
    intro hc
    rw [← hproto] at hc
    simpa using List.mem_takeWhile_imp hc
  split at h
  · rename_i up hup
    have hrest := append_drop_takeWhile SITEC (MaxHostNameLen - 1) up
    generalize hsite : (up.take (MaxHostNameLen - 1)).takeWhile SITEC = site at h hrest
    have hu : u = proto ++ [':', '/', '/'] ++ site ++ up.drop site.length := by
      rw [htext, hup, hrest]
      simp
    have hin : ∀ c ∈ site, siteByte c := by
      intro c hc
      have hcu : c ∈ u := by
        rw [hu]
        simp [hc]
      rw [← hsite] at hc
      exact (SITEC_iff (hbytes c hcu)).mp (List.mem_takeWhile_imp hc)
    refine ⟨proto, site, up.drop site.length, hu, hshort, hcolon, hin, ?_⟩
    split at h
    · rename_i heq
      simp [heq]
    · rename_i heq
      simp [heq]
    · simp at h
  · simp at h
  · simp at h

/-- A URL of one line that fits its buffers is split without loss: 3 is returned exactly for a
URL with all its parts, and the parts stored give the URL again. -/
theorem decomp_absurl_splits (u : Text) (ulen : Nat) (hbytes : ∀ c ∈ u, c.toNat < 256)
    (hline : ∀ c ∈ u, c ≠ '\r' ∧ c ≠ '\n') (hlen : u.length < ulen)
    (hbuf : u.length < MaxHostNameLen) :
    ((decomp_absurl u ulen).ni = 3 ↔ ∃ proto site r, Splits u proto site r) ∧
      ∀ proto site r, Splits u proto site r →
        (decomp_absurl u ulen).proto = proto ∧ (decomp_absurl u ulen).login = site ∧
        (r.head? = some '/' →
          u = proto ++ [':', '/', '/'] ++ site ++ '/' :: (decomp_absurl u ulen).upath) ∧
        (r.head? = some '?' →
          u = proto ++ [':', '/', '/'] ++ site ++ (decomp_absurl u ulen).upath) := by
  constructor
  · constructor
    · exact splits_of_ni hbytes
    · rintro ⟨proto, site, r, hs⟩
      unfold decomp_absurl
      rw [decomp_absurlX_of_splits hs hbytes hbuf]
  · intro proto site r hs
    have hout := decomp_absurlX_of_splits hs hbytes hbuf true ulen
    have hpath : (decomp_absurl u ulen).upath = pathOf r := by
      unfold decomp_absurl
      rw [hout]
      exact copyPath_eq hs.pathOf_suffix hlen hline
    refine ⟨?_, ?_, ?_, ?_⟩
    · unfold decomp_absurl
      rw [hout]
    · unfold decomp_absurl
      rw [hout]
    · intro hr
      rw [hpath, pathOf, if_pos hr]
      cases r with
      | nil => simp at hr
      | cons c t =>
        simp only [List.head?_cons, Option.some.injEq] at hr
        subst hr
        exact hs.text
    · intro hr
      rw [hpath, pathOf, if_neg (by simp [hr])]
      exact hs.text

theorem decomp_absurl_splits_one :
    (∀ c ∈ "http://host/p?q".toList, c.toNat < 256) ∧ "http://host/p?q".toList.length < 1024 ∧
      ((decomp_absurl "http://host/p?q".toList 1024).ni = 3 ↔
        ∃ proto site r, Splits "http://host/p?q".toList proto site r) := by
  have hbytes : ∀ c ∈ "http://host/p?q".toList, c.toNat < 256 := by simp
  have hlen : "http://host/p?q".toList.length < 1024 := by simp
  exact ⟨hbytes, hlen, (decomp_absurl_splits _ 1024 hbytes (by simp) hlen
    (by simp [MaxHostNameLen])).1⟩

end delegate.url
