-- The answers of the host cache (rescache.cpp). The addresses of a name are lines
-- of the file of its hash; a lookup takes the lines that match its name. Names are
-- matched as patterns, and a file that is written again loses a line.
import Delegate.HostCache
import Delegate.HostsFile

open ctext delegate.string

namespace delegate.hostcache

/-! ## The pure model -/

/-- `FQDN_hash` -/
def FQDN_hash (key : Text) : BitVec 32 :=
  key.foldl (fun kx kc => (kx <<< 5 ||| (kx >>> 27 &&& 0x1F#32)) ^^^ BitVec.ofNat 32 kc.toNat) 0#32

/-- The path that `hosts_cache` makes: whether the directory is `byname6`, and the number of the
file. -/
def cpath (byname : Nat) (nameaddr : Text) : Bool × Nat :=
  (byname != 1, (FQDN_hash nameaddr).toNat % 32)

/-- The files of the cache. A file that does not exist is as an empty one. -/
abbrev Files := Bool × Nat → Text

/-- `VSA_ltoa` and `VSA_atob` -/
structure Vsa where
  ltoa : List (BitVec 8) → Text
  atob : Text → List (BitVec 8)

theorem length_fgets_pos {content : Text} (h : content ≠ []) :
    0 < (hosts.fgets content).1.length := by
  obtain ⟨c, r, rfl⟩ := List.exists_cons_of_ne_nil h
  unfold hosts.fgets
  rw [List.length_take, List.length_append]
  by_cases hc : c = '\n' <;> simp [hc]

/-- The lines that `fgets` reads of a file. -/
def linesRead (content : Text) : List Text :=
  if _h : content = [] then []
  else (hosts.fgets content).1 :: linesRead (hosts.fgets content).2
termination_by content.length
decreasing_by
  have hpos := length_fgets_pos _h
  have hlen := List.length_pos_of_ne_nil _h
  simp only [hosts.fgets] at hpos ⊢
  rw [List.length_drop]
  omega

/-- A lookup by name: the room for addresses, and the time. -/
structure Lookup where
  byname : Nat
  name : Text
  rrc : Int
  now : Nat
  deriving DecidableEq

section
variable (vsa : Vsa) (RES_HC_EXPIRE : Int) (q : Lookup)

/-- What `RES_matchLine` finds in a line. -/
def matchLine (lp : Text) (rrc : Int) : List hosts.Entry :=
  (hosts.RES_matchLine vsa.atob q.byname q.name lp rrc).1

/-- The loop over the lines of the file, with what is found. -/
def answerLoop : List Text → List hosts.Entry → Int → List hosts.Entry
  | [], rv, _ => rv
  | line :: rest, rv, lastmatch =>
      let ctime := atoi line
      if RES_HC_EXPIRE < q.now - ctime then answerLoop rest rv lastmatch
      else
        let lp := (afterChr ' ' line).getD []
        let found := matchLine vsa q lp (q.rrc - rv.length)
        if found = [] then
          if q.rrc - rv.length ≤ 1 then rv else answerLoop rest rv lastmatch
        else if lastmatch ≠ 0 ∧ lastmatch < ctime then
          -- older matches are forgotten
          answerLoop rest (matchLine vsa q lp q.rrc) ctime
        else answerLoop rest (rv ++ found) ctime

/-- `gethostbynameaddr_cache`: what is found, and the files after it. -/
def gethostbynameaddr_cache (files : Files) : List hosts.Entry × Files :=
  let cpath := cpath q.byname q.name
  let lines := linesRead (files cpath)
  let count := fun lp rrc => (matchLine vsa q lp rrc).length
  (answerLoop vsa RES_HC_EXPIRE q lines [] 0,
    Function.update files cpath
      (gethostbynameaddr_cacheX count RES_HC_EXPIRE q.now true false q.rrc lines).flatten)

end

/-- A line of the cache as it is printed. -/
structure Rec where
  time : Nat
  addr : Text
  cname : Text
  name : Text
  deriving DecidableEq

def Rec.line (r : Rec) : Text :=
  dec r.time ++ ' ' :: r.addr ++ '\t' ::
    (if r.cname ≠ [] ∧ r.cname ≠ r.name then r.cname ++ [' '] else []) ++ r.name ++ ['\n']

/-- A call of `puthost_cache` by name. -/
structure Put where
  byname : Nat
  name : Text
  rv : List (List (BitVec 8))
  cname : Text
  now : Nat
  deriving DecidableEq

/-- The lines of a call. -/
def Put.recs (vsa : Vsa) (p : Put) : List Rec :=
  if p.rv = [] then [⟨p.now, "255.255.255.255".toList, [], p.name⟩]
  else p.rv.map fun a1 => ⟨p.now, vsa.ltoa a1, p.cname, p.name⟩

/-- The lookup of the call. -/
def Put.lookup (p : Put) : Lookup := ⟨p.byname, p.name, 64, p.now⟩

def puthost_cache (vsa : Vsa) (RES_HC_EXPIRE : Int) (p : Put) (files : Files) : Files :=
  let (found, files) := gethostbynameaddr_cache vsa RES_HC_EXPIRE p.lookup files
  if found ≠ [] then files
  else
    let cpath := cpath p.byname p.name
    Function.update files cpath (files cpath ++ ((p.recs vsa).map Rec.line).flatten)

inductive Act
  | put (p : Put)
  | get (q : Lookup)
  deriving DecidableEq

/-- A call, with its answer. -/
def act (vsa : Vsa) (RES_HC_EXPIRE : Int) (files : Files) : Act → List hosts.Entry × Files
  | .put p => ([], puthost_cache vsa RES_HC_EXPIRE p files)
  | .get q => gethostbynameaddr_cache vsa RES_HC_EXPIRE q files

/-! ## Lines -/

/-- A word without blanks that a buffer of `size` bytes holds. -/
structure Word (size : Nat) (w : Text) : Prop where
  nonempty : w ≠ []
  length : w.length < size
  chars : (w.all fun c => !wordBlank c && c != '#') = true

instance (size : Nat) (w : Text) : Decidable (Word size w) :=
  decidable_of_iff (w ≠ [] ∧ w.length < size ∧ (w.all fun c => !wordBlank c && c != '#') = true)
    ⟨fun h => ⟨h.1, h.2.1, h.2.2⟩, fun h => ⟨h.nonempty, h.length, h.chars⟩⟩

/-- The line of a record is read back as it was printed. -/
structure Rec.Fits (r : Rec) : Prop where
  time : r.time < 2 ^ 31
  addr : Word 64 r.addr
  name : Word 512 r.name
  cname : r.cname = [] ∨ Word 512 r.cname
  line : r.line.length < 1024

instance (r : Rec) : Decidable r.Fits :=
  decidable_of_iff (r.time < 2 ^ 31 ∧ Word 64 r.addr ∧ Word 512 r.name ∧
      (r.cname = [] ∨ Word 512 r.cname) ∧ r.line.length < 1024)
    ⟨fun h => ⟨h.1, h.2.1, h.2.2.1, h.2.2.2.1, h.2.2.2.2⟩,
      fun h => ⟨h.time, h.addr, h.name, h.cname, h.line⟩⟩

/-- The names of a line. -/
def Rec.names (r : Rec) : List Text :=
  if r.cname ≠ [] ∧ r.cname ≠ r.name then [r.cname, r.name] else [r.name]

/-- A line has what is asked. -/
def Rec.answers (vsa : Vsa) (q : Lookup) (r : Rec) : Bool :=
  hosts.addrFits q.byname (vsa.atob r.addr) && r.names.any fun host => hosts.hostMatches host q.name

/-- A line that is not stale has what is asked. -/
def Rec.valid (vsa : Vsa) (RES_HC_EXPIRE : Int) (q : Lookup) (r : Rec) : Bool :=
  decide (q.now - (r.time : Int) ≤ RES_HC_EXPIRE) && r.answers vsa q

/-- What is behind the address in a line. -/
def Rec.rest (r : Rec) : Text :=
  '\t' :: (if r.cname ≠ [] ∧ r.cname ≠ r.name then r.cname ++ [' '] else []) ++ r.name

section
variable {r : Rec}

theorem Rec.line_eq (r : Rec) : r.line = dec r.time ++ ' ' :: (r.addr ++ r.rest ++ ['\n']) := by
  simp only [line, rest, List.append_assoc, List.cons_append]

theorem Word.char {size : Nat} {w : Text} (h : Word size w) :
    ∀ c ∈ w, wordBlank c = false ∧ c ≠ '#' := by
  simpa using h.chars

theorem Word.no_end {size : Nat} {w : Text} (h : Word size w) : ∀ c ∈ w, c ≠ '#' ∧ c ≠ '\n' := by
  intro c hc
  obtain ⟨hblank, hmark⟩ := h.char c hc
  refine ⟨hmark, ?_⟩
  rintro rfl
  cases hblank

theorem Rec.Fits.rest_mem (h : r.Fits) : ∀ c ∈ r.rest, c ≠ '#' ∧ c ≠ '\n' := by
  intro c hc
  rw [rest, List.cons_append, List.mem_cons, List.mem_append] at hc
  rcases hc with rfl | hc | hc
  · decide
  · split at hc
    · rename_i hne
      rcases List.mem_append.mp hc with hc | hc
      · exact (h.cname.resolve_left hne.1).no_end c hc
      · rw [List.mem_singleton.mp hc]
        decide
    · cases hc
  · exact h.name.no_end c hc

/-- A line that ends in the buffer. -/
def Line (line : Text) : Prop := ∃ l, line = l ++ ['\n'] ∧ '\n' ∉ l ∧ line.length < 1024

theorem Rec.Fits.isLine (h : r.Fits) : Line r.line := by
  refine ⟨dec r.time ++ ' ' :: (r.addr ++ r.rest), ?_, ?_, h.line⟩
  · rw [r.line_eq]
    simp
  · intro hm
    rcases List.mem_append.mp hm with hm | hm
    · have hdigit := isDigit_of_mem_dec hm
      revert hdigit
      decide
    · rcases List.mem_cons.mp hm with hm | hm
      · cases hm
      · rcases List.mem_append.mp hm with hm | hm
        · exact (h.addr.no_end _ hm).2 rfl
        · exact (h.rest_mem _ hm).2 rfl

theorem fgets_line {line : Text} (h : Line line) (rest : Text) :
    hosts.fgets (line ++ rest) = (line, rest) := by
  obtain ⟨l, rfl, hl, hlen⟩ := h
  have htake : ((l ++ ['\n'] ++ rest).takeWhile (· ≠ '\n')) = l := by
    rw [List.append_assoc]
    exact (while_append (fun c hc => by simpa using fun he : c = '\n' => hl (he ▸ hc))
      (fun c hc => by cases hc; rfl)).1
  unfold hosts.fgets
  rw [htake, if_pos (by simp), List.take_of_length_le (by omega)]
  dsimp only
  rw [List.drop_left]

theorem linesRead_flatten {lines : List Text} (h : ∀ line ∈ lines, Line line) :
    linesRead lines.flatten = lines := by
  induction lines with
  | nil =>
    rw [List.flatten_nil, linesRead]
    rfl
  | cons line lines ih =>
    have hline := h line List.mem_cons_self
    have hne : (line :: lines).flatten ≠ [] := by
      obtain ⟨l, rfl, -, -⟩ := hline
      simp
    rw [linesRead, dif_neg hne, List.flatten_cons, fgets_line hline,
      ih fun l hl => h l (List.mem_cons_of_mem _ hl)]

theorem Rec.Fits.atoi_line (h : r.Fits) : atoi r.line = r.time := by
  rw [r.line_eq, atoi, strtol_dec_append _ _ (by simp)]
  exact toInt32_of_small h.time

theorem Rec.afterChr_line (r : Rec) :
    (afterChr ' ' r.line).getD [] = r.addr ++ r.rest ++ ['\n'] := by
  rw [r.line_eq, afterChr_append]
  · rfl
  · intro hm
    have hdigit := isDigit_of_mem_dec hm
    revert hdigit
    decide

theorem cutLine_line (h : r.Fits) :
    hosts.cutLine (r.addr ++ r.rest ++ ['\n']) = some (r.addr ++ r.rest) := by
  have hno : ∀ c ∈ r.addr ++ r.rest, c ≠ '#' ∧ c ≠ '\n' := by
    intro c hc
    rcases List.mem_append.mp hc with hc | hc
    · exact h.addr.no_end c hc
    · exact h.rest_mem c hc
  have hhead : (r.addr ++ r.rest ++ ['\n']).head? ≠ some '#' := by
    obtain ⟨c, w, hw⟩ := List.exists_cons_of_ne_nil h.addr.nonempty
    rw [hw, List.cons_append, List.cons_append, List.head?_cons]
    intro he
    cases he
    exact (hno '#' (by rw [hw]; simp)).1 rfl
  have hall : beforeChr '#' (r.addr ++ r.rest ++ ['\n']) = r.addr ++ r.rest ++ ['\n'] := by
    unfold beforeChr
    rw [List.takeWhile_eq_self_iff]
    intro c hc
    rcases List.mem_append.mp hc with hc | hc
    · simpa using (hno c hc).1
    · rw [List.mem_singleton.mp hc]
      rfl
  rw [hosts.cutLine, if_neg hhead, hall, beforeChr_append]
  exact fun hm => (hno _ hm).2 rfl

theorem wordscanX_blank {b : Char} (hb : wordBlank b = true) (size : Nat) (s : Text) :
    wordscanX size (b :: s) = wordscanX size s := by
  unfold wordscanX
  rw [List.dropWhile_cons_of_pos hb]

theorem Word.scan {size : Nat} {w rest : Text} (h : Word size w)
    (hrest : ∀ c ∈ rest.head?, wordBlank c = true) : wordscanX size (w ++ rest) = (w, rest) := by
  rw [← wordscanX_blank (b := ' ') rfl]
  exact hosts.wordscanX_word rfl (fun c hc => (h.char c hc).1) h.nonempty h.length hrest

theorem words_rest (h : r.Fits) : hosts.words 512 r.rest = r.names := by
  have hname {b : Char} (hb : wordBlank b = true) : hosts.words 512 (b :: r.name) = [r.name] :=
    hosts.words_word hb (fun c hc => (h.name.char c hc).1) h.name.nonempty h.name.length
  unfold Rec.rest Rec.names
  split
  · rename_i hne
    have hword := h.cname.resolve_left hne.1
    have hscan : wordscanX 512 ('\t' :: (r.cname ++ ' ' :: r.name)) = (r.cname, ' ' :: r.name) := by
      rw [wordscanX_blank rfl]
      exact hword.scan (by simp [wordBlank])
    rw [List.cons_append, List.append_assoc, List.singleton_append,
      hosts.words_of_cons hscan hword.nonempty, hname rfl]
  · exact hname rfl

/-- What is found in a line. -/
theorem matchLine_line (vsa : Vsa) (q : Lookup) (hq : q.byname ≠ 0) (h : r.Fits) (rrc : Int) :
    matchLine vsa q ((afterChr ' ' r.line).getD []) rrc =
      if 1 < rrc ∧ r.answers vsa q = true then [.addr (vsa.atob r.addr)] else [] := by
  have hscan : wordscanX 64 (r.addr ++ r.rest) = (r.addr, r.rest) :=
    h.addr.scan fun c hc => by cases hc; rfl
  rw [r.afterChr_line, matchLine, hosts.RES_matchLine, cutLine_line h]
  dsimp only
  rw [hscan]
  dsimp only
  rw [if_neg h.addr.nonempty, if_pos hq, words_rest h]
  simp only [Rec.answers, Bool.and_eq_true]
  split <;> rfl

end

/-! ## The scan of a file -/

section
variable {vsa : Vsa} {RES_HC_EXPIRE : Int} {q : Lookup} {recs : List Rec}

theorem answerLoop_cons (hq : q.byname ≠ 0) {r : Rec} (h : r.Fits) (rest : List Text)
    (rv : List hosts.Entry) (lastmatch : Int) :
    answerLoop vsa RES_HC_EXPIRE q (r.line :: rest) rv lastmatch =
      if RES_HC_EXPIRE < q.now - (r.time : Int) then answerLoop vsa RES_HC_EXPIRE q rest rv lastmatch
      else if 1 < q.rrc - rv.length ∧ r.answers vsa q = true then
        if lastmatch ≠ 0 ∧ lastmatch < r.time then
          answerLoop vsa RES_HC_EXPIRE q rest [.addr (vsa.atob r.addr)] r.time
        else answerLoop vsa RES_HC_EXPIRE q rest (rv ++ [.addr (vsa.atob r.addr)]) r.time
      else if q.rrc - rv.length ≤ 1 then rv
      else answerLoop vsa RES_HC_EXPIRE q rest rv lastmatch := by
  rw [answerLoop, h.atoi_line]
  dsimp only
  rw [matchLine_line vsa q hq h, matchLine_line vsa q hq h]
  by_cases hstale : RES_HC_EXPIRE < q.now - (r.time : Int)
  · rw [if_pos hstale, if_pos hstale]
  · rw [if_neg hstale, if_neg hstale]
    by_cases hfound : 1 < q.rrc - rv.length ∧ r.answers vsa q = true
    · have hroom : 1 < q.rrc ∧ r.answers vsa q = true := ⟨by omega, hfound.2⟩
      rw [if_pos hfound, if_pos hfound, if_pos hroom, if_neg (List.cons_ne_nil _ _)]
    · rw [if_neg hfound, if_neg hfound, if_pos rfl]

/-- What is found stands in a line that is not stale and has the name. -/
theorem answerLoop_mem (hq : q.byname ≠ 0) (h : ∀ r ∈ recs, r.Fits) {rv : List hosts.Entry}
    {lastmatch : Int} {e : hosts.Entry}
    (he : e ∈ answerLoop vsa RES_HC_EXPIRE q (recs.map Rec.line) rv lastmatch) :
    e ∈ rv ∨ ∃ r ∈ recs, r.answers vsa q = true ∧ e = .addr (vsa.atob r.addr) := by
  induction recs generalizing rv lastmatch with
  | nil => exact .inl he
  | cons r recs ih =>
    have hrest := fun {rv : List hosts.Entry} {lastmatch : Int} =>
      @ih (fun r hr => h r (List.mem_cons_of_mem _ hr)) rv lastmatch
    have hmore : (∃ r ∈ recs, r.answers vsa q = true ∧ e = .addr (vsa.atob r.addr)) →
        ∃ x ∈ r :: recs, x.answers vsa q = true ∧ e = .addr (vsa.atob x.addr) :=
      fun ⟨x, hx, hfound⟩ => ⟨x, List.mem_cons_of_mem _ hx, hfound⟩
    rw [List.map_cons, answerLoop_cons hq (h r List.mem_cons_self)] at he
    split at he
    · exact (hrest he).imp id hmore
    · split at he
      · rename_i hfound
        have hthis : e ∈ [hosts.Entry.addr (vsa.atob r.addr)] →
            ∃ x ∈ r :: recs, x.answers vsa q = true ∧ e = .addr (vsa.atob x.addr) :=
          fun he => ⟨r, List.mem_cons_self, hfound.2, List.mem_singleton.mp he⟩
        split at he
        · exact .inr ((hrest he).elim hthis hmore)
        · rcases hrest he with he | he
          · exact (List.mem_append.mp he).imp id hthis
          · exact .inr (hmore he)
      · split at he
        · exact .inl he
        · exact (hrest he).imp id hmore

/-- What is found is replaced only by newer matches. -/
theorem answerLoop_ne_nil (hq : q.byname ≠ 0) (h : ∀ r ∈ recs, r.Fits) {rv : List hosts.Entry}
    {lastmatch : Int} (hrv : rv ≠ []) :
    answerLoop vsa RES_HC_EXPIRE q (recs.map Rec.line) rv lastmatch ≠ [] := by
  induction recs generalizing rv lastmatch with
  | nil => exact hrv
  | cons r recs ih =>
    have hrest := fun {rv : List hosts.Entry} {lastmatch : Int} =>
      @ih (fun r hr => h r (List.mem_cons_of_mem _ hr)) rv lastmatch
    rw [List.map_cons, answerLoop_cons hq (h r List.mem_cons_self)]
    split
    · exact hrest hrv
    · split
      · split
        · exact hrest (List.cons_ne_nil _ _)
        · exact hrest (by simp)
      · split
        · exact hrv
        · exact hrest hrv

/-- Nothing is found only where no line that is not stale has the name. -/
theorem answerLoop_eq_nil (hq : q.byname ≠ 0) (hrrc : 1 < q.rrc) (h : ∀ r ∈ recs, r.Fits)
    {lastmatch : Int} (hnil : answerLoop vsa RES_HC_EXPIRE q (recs.map Rec.line) [] lastmatch = []) :
    ∀ r ∈ recs, q.now - (r.time : Int) ≤ RES_HC_EXPIRE → r.answers vsa q = false := by
  induction recs generalizing lastmatch with
  | nil => exact fun r hr => absurd hr List.not_mem_nil
  | cons r recs ih =>
    have hfits : ∀ r ∈ recs, r.Fits := fun r hr => h r (List.mem_cons_of_mem _ hr)
    have hroom : 1 < q.rrc - (([] : List hosts.Entry).length : Int) := by simpa using hrrc
    rw [List.map_cons, answerLoop_cons hq (h r List.mem_cons_self)] at hnil
    intro x hx hfresh
    split at hnil
    · rename_i hstale
      rcases List.mem_cons.mp hx with rfl | hx
      · omega
      · exact ih hfits hnil x hx hfresh
    · split at hnil
      · exfalso
        split at hnil
        · exact answerLoop_ne_nil hq hfits (List.cons_ne_nil _ _) hnil
        · exact answerLoop_ne_nil hq hfits (by simp) hnil
      · rename_i hno
        rw [if_neg (by omega)] at hnil
        rcases List.mem_cons.mp hx with rfl | hx
        · by_contra hanswers
          exact hno ⟨hroom, by simpa using hanswers⟩
        · exact ih hfits hnil x hx hfresh

/-- Where the valid lines are of one second, all of them are found, in their order. -/
theorem answerLoop_same (hq : q.byname ≠ 0) (h : ∀ r ∈ recs, r.Fits) {t : Nat}
    (htime : ∀ r ∈ recs, r.valid vsa RES_HC_EXPIRE q = true → r.time = t) {rv : List hosts.Entry}
    {lastmatch : Int} (hlast : lastmatch = 0 ∨ lastmatch = t)
    (hroom : (rv.length : Int) + (recs.filter (Rec.valid vsa RES_HC_EXPIRE q)).length + 1 < q.rrc) :
    answerLoop vsa RES_HC_EXPIRE q (recs.map Rec.line) rv lastmatch =
      rv ++ (recs.filter (Rec.valid vsa RES_HC_EXPIRE q)).map fun r => .addr (vsa.atob r.addr) := by
  induction recs generalizing rv lastmatch with
  | nil => simp [answerLoop]
  | cons r recs ih =>
    have hfits : ∀ r ∈ recs, r.Fits := fun r hr => h r (List.mem_cons_of_mem _ hr)
    have htimes := fun x hx => htime x (List.mem_cons_of_mem r hx)
    rw [List.map_cons, answerLoop_cons hq (h r List.mem_cons_self)]
    by_cases hvalid : r.valid vsa RES_HC_EXPIRE q = true
    · have hone := htime r List.mem_cons_self hvalid
      rw [List.filter_cons_of_pos hvalid] at hroom ⊢
      rw [List.length_cons] at hroom
      rw [Rec.valid, Bool.and_eq_true, decide_eq_true_eq] at hvalid
      have hmore : 1 < q.rrc - (rv.length : Int) := by omega
      rw [if_neg (by omega), if_pos ⟨hmore, hvalid.2⟩, if_neg (by omega),
        ih hfits htimes (.inr (by rw [hone]))
          (by rw [List.length_append, List.length_singleton]; omega),
        List.map_cons, List.append_assoc]
      rfl
    · rw [List.filter_cons_of_neg hvalid] at hroom ⊢
      have hrest := ih hfits htimes hlast hroom
      rw [Rec.valid, Bool.and_eq_true, decide_eq_true_eq, not_and] at hvalid
      split
      · exact hrest
      · rename_i hfresh
        rw [if_neg fun hfound => hvalid (Int.not_lt.mp hfresh) hfound.2, if_neg (by omega)]
        exact hrest

end

end delegate.hostcache
