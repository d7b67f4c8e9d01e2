-- Runs of the host cache: what is found was stored for the name that is asked, and
-- what was stored for it is found, as long as names are not patterns of each other
-- and no file with a valid line is written again.
import Delegate.HostAnswers

open ctext delegate.string

namespace delegate.hostcache

/-! ## The files -/

/-- A file is the lines of records. -/
structure Stands (content : Text) (recs : List Rec) : Prop where
  eq : content = (recs.map Rec.line).flatten
  fits : ∀ r ∈ recs, r.Fits

theorem Stands.nil : Stands [] [] := ⟨rfl, fun _ hr => absurd hr List.not_mem_nil⟩

theorem Stands.append {content : Text} {recs recs' : List Rec} (h : Stands content recs)
    (hfits : ∀ r ∈ recs', r.Fits) :
    Stands (content ++ (recs'.map Rec.line).flatten) (recs ++ recs') := by
  refine ⟨by rw [h.eq, List.map_append, List.flatten_append], ?_⟩
  intro r hr
  exact (List.mem_append.mp hr).elim (h.fits r) (hfits r)

theorem Stands.read {content : Text} {recs : List Rec} (h : Stands content recs) :
    linesRead content = recs.map Rec.line := by
  rw [h.eq]
  apply linesRead_flatten
  intro line hline
  obtain ⟨r, hr, rfl⟩ := List.mem_map.mp hline
  exact (h.fits r hr).isLine

theorem skipStale_suffix (RES_HC_EXPIRE now : Int) (file : List Text) :
    skipStale RES_HC_EXPIRE now file <:+ file := by
  induction file with
  | nil => exact List.suffix_rfl
  | cons line file ih =>
    unfold skipStale
    split
    · exact List.suffix_cons line file
    · exact ih.trans (List.suffix_cons line file)

theorem cacheX_suffix (count : Text → Int → Nat) (RES_HC_EXPIRE now : Int) (opened noexpire : Bool)
    (rrc : Int) (file : List Text) :
    gethostbynameaddr_cacheX count RES_HC_EXPIRE now opened noexpire rrc file <:+ file := by
  unfold gethostbynameaddr_cacheX
  split
  · exact skipStale_suffix RES_HC_EXPIRE now file
  · exact List.suffix_rfl

/-- In a file without stale lines none is counted as expired. -/
theorem scanLoop_expired {count : Text → Int → Nat} {RES_HC_EXPIRE now : Int} {noexpire : Bool}
    {rrc : Int} {file : List Text} (h : ∀ line ∈ file, fresh RES_HC_EXPIRE now line = true)
    (f : Found) : (scanLoop count RES_HC_EXPIRE now noexpire rrc file f).expired = f.expired := by
  have hscan : ∀ (ctime : Int) (lp : Text) (f : Found),
      (scan1 count rrc ctime lp f).2.expired = f.expired := by
    intro ctime lp f
    unfold scan1
    dsimp only
    split
    · rfl
    · split <;> rfl
  induction file generalizing f with
  | nil => rfl
  | cons line file ih =>
    have hyoung : now - atoi line ≤ RES_HC_EXPIRE := by
      simpa [fresh] using h line List.mem_cons_self
    have hrest := ih fun l hl => h l (List.mem_cons_of_mem _ hl)
    rw [scanLoop]
    dsimp only
    rw [if_neg fun hold => by omega]
    split
    · exact hscan _ _ f
    · exact (hrest _).trans (hscan _ _ f)

/-- Such a file is not written again. -/
theorem rewrites_fresh {count : Text → Int → Nat} {RES_HC_EXPIRE now : Int} {noexpire : Bool}
    {rrc : Int} {file : List Text} (h : ∀ line ∈ file, fresh RES_HC_EXPIRE now line = true) :
    rewrites count RES_HC_EXPIRE now noexpire rrc file = false := by
  unfold rewrites
  dsimp only
  rw [scanLoop_expired h]
  simp

/-! ## Calls -/

def Act.lookup : Act → Lookup
  | .put p => p.lookup
  | .get q => q

/-- The file of a call. -/
def Act.path (a : Act) : Bool × Nat := cpath a.lookup.byname a.lookup.name

/-- The names that a call stores addresses for. -/
def Act.stored : Act → List Text
  | .put p => if p.cname = [] then [p.name] else [p.cname, p.name]
  | .get _ => []

/-- A call has names and addresses that the buffers hold, and the text of an IPv4 address is read
back. -/
structure Act.Fits (vsa : Vsa) (a : Act) : Prop where
  byname : a.lookup.byname = 1 ∨ a.lookup.byname = hosts.AF_INET6
  lines : ∀ p, a = .put p → ∀ r ∈ p.recs vsa, r.Fits
  addrs : ∀ p, a = .put p → ∀ a1 ∈ p.rv, a1.length = 4 → vsa.atob (vsa.ltoa a1) = a1

/-- No name that is stored matches, as a pattern, another name that is looked for. -/
def Apart (acts : List Act) : Prop :=
  ∀ a ∈ acts, ∀ b ∈ acts, ∀ host ∈ a.stored,
    hosts.hostMatches host b.lookup.name = true → strcaseeq host b.lookup.name = true

section
variable (vsa : Vsa) (RES_HC_EXPIRE : Int)

/-- The lookup writes a file with these lines again. -/
def Lookup.rewrites (q : Lookup) (lines : List Text) : Bool :=
  hostcache.rewrites (fun lp rrc => (matchLine vsa q lp rrc).length) RES_HC_EXPIRE q.now false q.rrc lines

/-- The lookup of a call does not write a file again in which a line is valid. -/
def Quiet (files : Files) (a : Act) : Prop :=
  a.lookup.rewrites vsa RES_HC_EXPIRE (linesRead (files a.path)) = true →
    ∀ line ∈ linesRead (files a.path), fresh RES_HC_EXPIRE a.lookup.now line = false

/-- The files after calls. -/
def filesAfter (acts : List Act) : Files :=
  acts.foldl (fun files a => (act vsa RES_HC_EXPIRE files a).2) fun _ => []

/-- What a lookup after calls finds. -/
def answer (before : List Act) (q : Lookup) : List hosts.Entry :=
  (gethostbynameaddr_cache vsa RES_HC_EXPIRE q (filesAfter vsa RES_HC_EXPIRE before)).1

/-- What is found was stored for the name that is asked. -/
def Owned (before : List Act) (q : Lookup) (found : List hosts.Entry) : Prop :=
  ∀ e ∈ found, ∃ p, Act.put p ∈ before ∧ (∃ host ∈ (Act.put p).stored, strcaseeq host q.name = true) ∧
    ∃ r ∈ p.recs vsa, e = .addr (vsa.atob r.addr)

end

/-! ## What a call leaves -/

section
variable {vsa : Vsa} {RES_HC_EXPIRE : Int} {files : Files} {path : Bool × Nat} {recs : List Rec}

theorem Act.Fits.byname_ne {a : Act} (h : a.Fits vsa) : a.lookup.byname ≠ 0 := by
  rcases h.byname with h | h <;> rw [h] <;> decide

theorem suffix_map {l : List Text} (h : l <:+ recs.map Rec.line) :
    ∃ kept, kept <:+ recs ∧ l = kept.map Rec.line := by
  refine ⟨recs.drop (recs.length - l.length), List.drop_suffix _ _, ?_⟩
  rw [List.map_drop]
  simpa using List.suffix_iff_eq_drop.mp h

/-- A lookup leaves the last lines of a file, and all of them where it does not write it again. -/
theorem cache_stands (h : Stands (files path) recs) (q : Lookup) : ∃ kept, kept <:+ recs ∧
    Stands ((gethostbynameaddr_cache vsa RES_HC_EXPIRE q files).2 path) kept ∧
      ((path = cpath q.byname q.name → q.rewrites vsa RES_HC_EXPIRE (linesRead (files path)) = false) →
        kept = recs) := by
  unfold gethostbynameaddr_cache
  dsimp only
  by_cases hpath : path = cpath q.byname q.name
  · subst hpath
    rw [Function.update_self, h.read]
    obtain ⟨kept, hkept, heq⟩ := suffix_map (cacheX_suffix (fun lp rrc => (matchLine vsa q lp rrc).length)
      RES_HC_EXPIRE q.now true false q.rrc (recs.map Rec.line))
    refine ⟨kept, hkept, ⟨by rw [heq], fun r hr => h.fits r (hkept.subset hr)⟩, ?_⟩
    intro hno
    have hsame := hno rfl
    unfold Lookup.rewrites at hsame
    unfold gethostbynameaddr_cacheX at heq
    rw [hsame, Bool.false_and, if_neg (by decide)] at heq
    exact hkept.eq_of_length (by simpa using (congrArg List.length heq).symm)
  · rw [Function.update_of_ne hpath]
    exact ⟨recs, List.suffix_rfl, h, fun _ => rfl⟩

/-- `puthost_cache` adds its lines to the file of the name if nothing was found. -/
theorem put_stands (h : Stands (files path) recs) {p : Put} (hfits : ∀ r ∈ p.recs vsa, r.Fits) :
    ∃ kept new, kept <:+ recs ∧ Stands (puthost_cache vsa RES_HC_EXPIRE p files path) (kept ++ new) ∧
      ((path = cpath p.byname p.name →
        p.lookup.rewrites vsa RES_HC_EXPIRE (linesRead (files path)) = false) → kept = recs) ∧
      new = if path = cpath p.byname p.name ∧
        (gethostbynameaddr_cache vsa RES_HC_EXPIRE p.lookup files).1 = [] then p.recs vsa else [] := by
  obtain ⟨kept, hkept, hstands, hall⟩ := @cache_stands vsa RES_HC_EXPIRE files path recs h p.lookup
  unfold puthost_cache
  dsimp only
  by_cases hfound : (gethostbynameaddr_cache vsa RES_HC_EXPIRE p.lookup files).1 = []
  · rw [if_neg (not_not.mpr hfound)]
    by_cases hpath : path = cpath p.byname p.name
    · rw [if_pos ⟨hpath, hfound⟩]
      subst hpath
      rw [Function.update_self]
      exact ⟨kept, _, hkept, hstands.append hfits, hall, rfl⟩
    · rw [if_neg fun hp => hpath hp.1, Function.update_of_ne hpath]
      exact ⟨kept, [], hkept, by rwa [List.append_nil], hall, rfl⟩
  · rw [if_pos hfound, if_neg fun hp => hfound hp.2]
    exact ⟨kept, [], hkept, by rwa [List.append_nil], hall, rfl⟩

/-- What a lookup finds in a file. -/
theorem Stands.found {q : Lookup} (h : Stands (files (cpath q.byname q.name)) recs) :
    (gethostbynameaddr_cache vsa RES_HC_EXPIRE q files).1 =
      answerLoop vsa RES_HC_EXPIRE q (recs.map Rec.line) [] 0 := by
  unfold gethostbynameaddr_cache
  dsimp only
  rw [h.read]

theorem filesAfter_snoc (before : List Act) (a : Act) :
    filesAfter vsa RES_HC_EXPIRE (before ++ [a]) =
      (act vsa RES_HC_EXPIRE (filesAfter vsa RES_HC_EXPIRE before) a).2 := by
  rw [filesAfter, List.foldl_append]
  rfl

/-- The lines of the files are those of calls. -/
theorem filesAfter_stands {before : List Act} (hfits : ∀ a ∈ before, a.Fits vsa)
    (path : Bool × Nat) : ∃ recs, Stands (filesAfter vsa RES_HC_EXPIRE before path) recs ∧
      ∀ r ∈ recs, ∃ p, Act.put p ∈ before ∧ r ∈ p.recs vsa := by
  induction before using List.reverseRecOn with
  | nil => exact ⟨[], .nil, fun _ hr => absurd hr List.not_mem_nil⟩
  | append_singleton before a ih =>
    obtain ⟨recs, hstands, hown⟩ := ih fun b hb => hfits b (List.mem_append_left _ hb)
    have ha := hfits a (by simp)
    have hold : ∀ kept, kept <:+ recs → ∀ r ∈ kept, ∃ p, Act.put p ∈ before ++ [a] ∧ r ∈ p.recs vsa := by
      intro kept hkept r hr
      obtain ⟨p, hp, hrec⟩ := hown r (hkept.subset hr)
      exact ⟨p, List.mem_append_left _ hp, hrec⟩
    rw [filesAfter_snoc]
    cases a with
    | get q =>
      obtain ⟨kept, hkept, hstands', -⟩ := @cache_stands vsa RES_HC_EXPIRE _ path recs hstands q
      exact ⟨kept, hstands', hold kept hkept⟩
    | put p =>
      obtain ⟨kept, new, hkept, hstands', -, hnew⟩ :=
        @put_stands vsa RES_HC_EXPIRE _ path recs hstands p (ha.lines p rfl)
      refine ⟨kept ++ new, hstands', ?_⟩
      intro r hr
      rcases List.mem_append.mp hr with hr | hr
      · exact hold kept hkept r hr
      · rw [hnew] at hr
        split at hr
        · exact ⟨p, by simp, hr⟩
        · cases hr

end

/-! ## The name that is asked -/

section
variable {vsa : Vsa} {RES_HC_EXPIRE : Int}

theorem strcaseeq_comm (a b : Text) : strcaseeq a b = strcaseeq b a := by
  unfold strcaseeq
  rw [Bool.eq_iff_iff, beq_iff_eq, beq_iff_eq]
  exact eq_comm

/-- The names of a line are names of its call. -/
theorem names_stored {p : Put} {r : Rec} (hr : r ∈ p.recs vsa) :
    ∀ host ∈ r.names, host ∈ (Act.put p).stored := by
  have hfields : r.name = p.name ∧ (r.cname = [] ∨ r.cname = p.cname) := by
    unfold Put.recs at hr
    split at hr
    · rw [List.mem_singleton.mp hr]
      exact ⟨rfl, .inl rfl⟩
    · obtain ⟨a1, -, rfl⟩ := List.mem_map.mp hr
      exact ⟨rfl, .inr rfl⟩
  obtain ⟨hname, hcname⟩ := hfields
  intro host hhost
  have hin : p.name ∈ (Act.put p).stored := by
    show p.name ∈ if p.cname = [] then [p.name] else [p.cname, p.name]
    split <;> simp
  unfold Rec.names at hhost
  split at hhost
  · rename_i hne
    have heq := hcname.resolve_left hne.1
    rcases List.mem_cons.mp hhost with rfl | hhost
    · have hsome : p.cname ≠ [] := fun h => hne.1 (heq.trans h)
      simp [Act.stored, hsome, heq]
    · rw [List.mem_singleton.mp hhost, hname]
      exact hin
  · rw [List.mem_singleton.mp hhost, hname]
    exact hin

/-- What is found was stored for the name that is asked. -/
theorem answer_owned {acts before : List Act} {q : Lookup} (hapart : Apart acts)
    (hfits : ∀ a ∈ acts, a.Fits vsa) (hsub : before ⊆ acts) (hq : Act.get q ∈ acts) :
    Owned vsa before q (answer vsa RES_HC_EXPIRE before q) := by
  obtain ⟨recs, hstands, hown⟩ := @filesAfter_stands vsa RES_HC_EXPIRE before
    (fun a ha => hfits a (hsub ha)) (cpath q.byname q.name)
  intro e he
  unfold answer at he
  rw [hstands.found] at he
  obtain ⟨r, hr, hanswers, rfl⟩ :=
    (answerLoop_mem (hfits _ hq).byname_ne hstands.fits he).resolve_left List.not_mem_nil
  obtain ⟨p, hp, hrec⟩ := hown r hr
  rw [Rec.answers, Bool.and_eq_true, List.any_eq_true] at hanswers
  obtain ⟨-, host, hhost, hmatch⟩ := hanswers
  have hstored := names_stored hrec host hhost
  exact ⟨p, hp, ⟨host, hstored, hapart _ (hsub hp) _ hq host hstored hmatch⟩, r, hrec, rfl⟩

end

/-! ## The addresses of a call -/

/-- A call that stores IPv4 addresses, with no canonical name. -/
structure Put.Plain (p : Put) : Prop where
  byname : p.byname = 1
  cname : p.cname = []
  some : p.rv ≠ []
  addrs : ∀ a1 ∈ p.rv, a1.length = 4

section
variable {vsa : Vsa} {RES_HC_EXPIRE : Int} {p : Put}

/-- What is asked of a line is the name and the kind of address only. -/
theorem answers_lookup (r : Rec) {q : Lookup} (hbyname : q.byname = p.byname)
    (hname : q.name = p.name) : r.answers vsa q = r.answers vsa p.lookup := by
  unfold Rec.answers
  rw [hbyname, hname]
  rfl

theorem Put.Plain.recs_eq (h : p.Plain) :
    p.recs vsa = p.rv.map fun a1 => ⟨p.now, vsa.ltoa a1, [], p.name⟩ := by
  unfold Put.recs
  rw [if_neg h.some, h.cname]

theorem Put.Plain.exists_rec (h : p.Plain) (vsa : Vsa) : ∃ r, r ∈ p.recs vsa := by
  obtain ⟨a1, l, hrv⟩ := List.exists_cons_of_ne_nil h.some
  rw [h.recs_eq, hrv]
  exact ⟨_, List.mem_cons_self⟩

/-- The lines of the call answer a lookup of an equal name. -/
theorem Put.Plain.answers (h : p.Plain) (hfits : (Act.put p).Fits vsa) {q : Lookup}
    (hbyname : q.byname = 1) (hname : strcaseeq p.name q.name = true) :
    ∀ r ∈ p.recs vsa, r.time = p.now ∧ r.answers vsa q = true := by
  intro r hr
  rw [h.recs_eq] at hr
  obtain ⟨a1, ha1, rfl⟩ := List.mem_map.mp hr
  have hlen := h.addrs a1 ha1
  have hfit : hosts.addrFits 1 (vsa.atob (vsa.ltoa a1)) = true := by
    rw [hfits.addrs p rfl a1 ha1 hlen]
    simp [hosts.addrFits, hosts.AF_INET6, hlen]
  refine ⟨rfl, ?_⟩
  simp [Rec.answers, Rec.names, hbyname, hfit, hosts.hostMatches, hname]

/-- A file with the lines of the call: those before them that have the name were stale then, and
those after them do not have it. -/
structure Kept (vsa : Vsa) (RES_HC_EXPIRE : Int) (p : Put) (content : Text) (pre post : List Rec) :
    Prop where
  stands : Stands content (pre ++ p.recs vsa ++ post)
  old : ∀ r ∈ pre, r.answers vsa p.lookup = true → RES_HC_EXPIRE < p.now - (r.time : Int)
  other : ∀ r ∈ post, r.answers vsa p.lookup = false

/-- A call that finds nothing: no line that is not stale has its name. -/
theorem put_nothing {files : Files} {recs : List Rec}
    (h : Stands (files (cpath p.byname p.name)) recs) (hbyname : p.byname ≠ 0)
    (hnil : (gethostbynameaddr_cache vsa RES_HC_EXPIRE p.lookup files).1 = []) :
    ∀ r ∈ recs, p.now - (r.time : Int) ≤ RES_HC_EXPIRE → r.answers vsa p.lookup = false := by
  have hfound := @Stands.found vsa RES_HC_EXPIRE files recs p.lookup h
  exact answerLoop_eq_nil hbyname (show (1 : Int) < 64 by decide) h.fits (hfound.symm.trans hnil)

/-- The call itself. -/
theorem kept_put {files : Files} {recs : List Rec}
    (h : Stands (files (cpath p.byname p.name)) recs) (hfits : (Act.put p).Fits vsa)
    (hnew : (gethostbynameaddr_cache vsa RES_HC_EXPIRE p.lookup files).1 = []) :
    ∃ pre, Kept vsa RES_HC_EXPIRE p
      (puthost_cache vsa RES_HC_EXPIRE p files (cpath p.byname p.name)) pre [] := by
  obtain ⟨kept, new, hkept, hstands, -, heq⟩ :=
    @put_stands vsa RES_HC_EXPIRE _ _ recs h p (hfits.lines p rfl)
  rw [if_pos ⟨rfl, hnew⟩] at heq
  subst heq
  refine ⟨kept, by rwa [List.append_nil], ?_, fun r hr => absurd hr List.not_mem_nil⟩
  intro r hr hanswers
  by_contra hfresh
  have hfalse := put_nothing h hfits.byname_ne hnew r (hkept.subset hr) (Int.not_lt.mp hfresh)
  rw [hanswers] at hfalse
  cases hfalse

/-- A quiet call does not write the file again while the lines are fresh. -/
theorem Kept.no_rewrite (hp : p.Plain) (hfits : (Act.put p).Fits vsa) {files : Files}
    {pre post : List Rec} {path : Bool × Nat} (h : Kept vsa RES_HC_EXPIRE p (files path) pre post)
    {a : Act} (hquiet : Quiet vsa RES_HC_EXPIRE files a)
    (htime : (a.lookup.now : Int) ≤ p.now + RES_HC_EXPIRE) (hpath : path = a.path) :
    a.lookup.rewrites vsa RES_HC_EXPIRE (linesRead (files path)) = false := by
  subst hpath
  by_contra hrewrites
  obtain ⟨r, hr⟩ := hp.exists_rec vsa
  have hmem : r ∈ pre ++ p.recs vsa ++ post := List.mem_append_left _ (List.mem_append_right _ hr)
  have hstale := hquiet (by simpa using hrewrites) r.line
    (by rw [h.stands.read]; exact List.mem_map_of_mem hmem)
  have hnow := (hp.answers hfits (q := ⟨1, p.name, 64, p.now⟩) rfl
    (by simp [strcaseeq]) r hr).1
  simp only [fresh, (h.stands.fits r hmem).atoi_line, hnow, decide_eq_false_iff_not] at hstale
  omega

/-- The lines stay over the calls that follow. -/
theorem Kept.act (hp : p.Plain) (hfits : (Act.put p).Fits vsa) {files : Files} {pre post : List Rec}
    (h : Kept vsa RES_HC_EXPIRE p (files (cpath p.byname p.name)) pre post) {a : Act}
    (ha : a.Fits vsa) (hquiet : Quiet vsa RES_HC_EXPIRE files a)
    (htime : (a.lookup.now : Int) ≤ p.now + RES_HC_EXPIRE)
    (hcname : ∀ p', a = .put p' → p'.cname = [])
    (hapart : ∀ host ∈ a.stored, hosts.hostMatches host p.name = true → strcaseeq host p.name = true) :
    ∃ post', Kept vsa RES_HC_EXPIRE p
      ((hostcache.act vsa RES_HC_EXPIRE files a).2 (cpath p.byname p.name)) pre post' := by
  have hno := fun hpath => h.no_rewrite hp hfits hquiet htime hpath
  cases a with
  | get q =>
    obtain ⟨kept, -, hstands, hall⟩ := @cache_stands vsa RES_HC_EXPIRE _ _ _ h.stands q
    rw [hall hno] at hstands
    exact ⟨post, hstands, h.old, h.other⟩
  | put p' =>
    obtain ⟨kept, new, -, hstands, hall, hnew⟩ :=
      @put_stands vsa RES_HC_EXPIRE _ _ _ h.stands p' (ha.lines p' rfl)
    rw [hall hno] at hstands
    refine ⟨post ++ new, by rwa [← List.append_assoc], h.old, ?_⟩
    intro r hr
    rcases List.mem_append.mp hr with hr | hr
    · exact h.other r hr
    rw [hnew] at hr
    split at hr
    · rename_i hput
      obtain ⟨hpath, hnil⟩ := hput
      by_contra hanswers
      have hbyname : p'.byname = 1 := by
        have hdir := congrArg Prod.fst hpath
        simpa [cpath, hp.byname] using hdir.symm
      -- a call for an equal name would have found the lines
      have hname : strcaseeq p'.name p.name = true := by
        rw [Bool.not_eq_false, Rec.answers, Bool.and_eq_true, List.any_eq_true] at hanswers
        obtain ⟨-, host, hhost, hmatch⟩ := hanswers
        have hstored := names_stored hr host hhost
        have hsame := hapart host hstored hmatch
        simp only [Act.stored, hcname p' rfl, if_true, List.mem_singleton] at hstored
        rwa [← hstored]
      obtain ⟨r0, hr0⟩ := hp.exists_rec vsa
      obtain ⟨hnow, hfound⟩ := hp.answers hfits (q := p'.lookup) hbyname
        (by rw [strcaseeq_comm]; exact hname) r0 hr0
      have hfresh : p'.now - (r0.time : Int) ≤ RES_HC_EXPIRE := by
        have hle : (p'.now : Int) ≤ p.now + RES_HC_EXPIRE := htime
        rw [hnow]
        omega
      have hmiss := put_nothing (hpath ▸ h.stands) ha.byname_ne hnil r0
        (List.mem_append_left _ (List.mem_append_right _ hr0)) hfresh
      rw [hfound] at hmiss
      cases hmiss
    · cases hr

/-- A lookup finds the addresses of the lines. -/
theorem Kept.answer (hp : p.Plain) (hfits : (Act.put p).Fits vsa) {files : Files} {pre post : List Rec}
    (h : Kept vsa RES_HC_EXPIRE p (files (cpath p.byname p.name)) pre post) (hlen : p.rv.length ≤ 62)
    {q : Lookup} (hbyname : q.byname = p.byname) (hname : q.name = p.name) (hrrc : 64 ≤ q.rrc)
    (hpast : p.now ≤ q.now) (htime : (q.now : Int) ≤ p.now + RES_HC_EXPIRE) :
    (gethostbynameaddr_cache vsa RES_HC_EXPIRE q files).1 = p.rv.map .addr := by
  have hq : q.byname ≠ 0 := by
    rw [hbyname, hp.byname]
    decide
  have hblock := hp.answers hfits (q := q) (by rw [hbyname, hp.byname]) (by simp [strcaseeq, hname])
  have hpre : pre.filter (Rec.valid vsa RES_HC_EXPIRE q) = [] := by
    rw [List.filter_eq_nil_iff]
    intro r hr hboth
    rw [Rec.valid, Bool.and_eq_true, decide_eq_true_eq, answers_lookup r hbyname hname] at hboth
    have hold := h.old r hr hboth.2
    omega
  have hpost : post.filter (Rec.valid vsa RES_HC_EXPIRE q) = [] := by
    rw [List.filter_eq_nil_iff]
    intro r hr hboth
    rw [Rec.valid, Bool.and_eq_true, answers_lookup r hbyname hname, h.other r hr] at hboth
    cases hboth.2
  have hmid : (p.recs vsa).filter (Rec.valid vsa RES_HC_EXPIRE q) = p.recs vsa := by
    rw [List.filter_eq_self]
    intro r hr
    obtain ⟨hnow, hanswers⟩ := hblock r hr
    rw [Rec.valid, Bool.and_eq_true, decide_eq_true_eq, hnow]
    exact ⟨by omega, hanswers⟩
  have hfilter : (pre ++ p.recs vsa ++ post).filter (Rec.valid vsa RES_HC_EXPIRE q) = p.recs vsa := by
    rw [List.filter_append, List.filter_append, hpre, hpost, hmid, List.nil_append, List.append_nil]
  have hcount : (p.recs vsa).length = p.rv.length := by
    rw [hp.recs_eq, List.length_map]
  have htimes : ∀ r ∈ pre ++ p.recs vsa ++ post, r.valid vsa RES_HC_EXPIRE q = true →
      r.time = p.now := by
    intro r hr hvalid
    have hin : r ∈ p.recs vsa := by
      rw [← hfilter, List.mem_filter]
      exact ⟨hr, hvalid⟩
    exact (hblock r hin).1
  have hstands : Stands (files (cpath q.byname q.name)) (pre ++ p.recs vsa ++ post) := by
    rw [hbyname, hname]
    exact h.stands
  rw [hstands.found, answerLoop_same hq hstands.fits htimes (.inl rfl)
    (by rw [hfilter, hcount, List.length_nil]; omega), hfilter, List.nil_append, hp.recs_eq,
    List.map_map]
  apply List.map_congr_left
  intro a1 ha1
  exact congrArg hosts.Entry.addr (hfits.addrs p rfl a1 ha1 (hp.addrs a1 ha1))

end

/-! ## Runs -/

section
variable (vsa : Vsa) (RES_HC_EXPIRE : Int)

/-- Calls in the order of time, of which none writes a file again in which a line is valid. -/
structure Careful (acts : List Act) : Prop where
  fits : ∀ a ∈ acts, a.Fits vsa
  times : acts.Pairwise fun a b => a.lookup.now ≤ b.lookup.now
  apart : Apart acts
  quiet : ∀ before a after, acts = before ++ a :: after →
    Quiet vsa RES_HC_EXPIRE (filesAfter vsa RES_HC_EXPIRE before) a

/-- After a call that stores addresses of a name that was not cached, a lookup of the name within
`RES_HC_EXPIRE` seconds finds these. -/
def Whole (acts : List Act) : Prop :=
  ∀ before p between q after, acts = before ++ .put p :: (between ++ .get q :: after) → p.Plain →
    p.rv.length ≤ 62 → answer vsa RES_HC_EXPIRE before p.lookup = [] →
    (∀ p', Act.put p' ∈ between → p'.cname = []) → q.byname = p.byname → q.name = p.name →
    64 ≤ q.rrc → (q.now : Int) ≤ p.now + RES_HC_EXPIRE →
    answer vsa RES_HC_EXPIRE (before ++ .put p :: between) q = p.rv.map .addr

variable {vsa RES_HC_EXPIRE} {acts : List Act}

/-- The lines of a call stay over the calls between it and a lookup. -/
theorem Careful.kept (h : Careful vsa RES_HC_EXPIRE acts) {before between after : List Act} {p : Put}
    (heq : acts = before ++ .put p :: (between ++ after)) (hp : p.Plain)
    (hnew : answer vsa RES_HC_EXPIRE before p.lookup = [])
    (hcname : ∀ p', Act.put p' ∈ between → p'.cname = [])
    (htime : ∀ a ∈ between, (a.lookup.now : Int) ≤ p.now + RES_HC_EXPIRE) :
    ∃ pre post, Kept vsa RES_HC_EXPIRE p (filesAfter vsa RES_HC_EXPIRE (before ++ .put p :: between)
      (cpath p.byname p.name)) pre post := by
  have hmem : ∀ a ∈ before ++ .put p :: between, a ∈ acts := by
    intro a ha
    rw [heq]
    rw [List.mem_append, List.mem_cons] at ha
    simp only [List.mem_append, List.mem_cons]
    tauto
  have hfits := h.fits _ (hmem (.put p) (by simp))
  induction between using List.reverseRecOn generalizing after with
  | nil =>
    obtain ⟨recs, hstands, -⟩ := @filesAfter_stands vsa RES_HC_EXPIRE before
      (fun a ha => h.fits a (hmem a (List.mem_append_left _ ha))) (cpath p.byname p.name)
    obtain ⟨pre, hkept⟩ := kept_put hstands hfits hnew
    rw [filesAfter_snoc]
    exact ⟨pre, [], hkept⟩
  | append_singleton between a ih =>
    have heq' : acts = before ++ .put p :: (between ++ a :: after) := by
      rw [heq, List.append_assoc, List.singleton_append]
    obtain ⟨pre, post, hkept⟩ := ih heq'
      (fun p' hp' => hcname p' (List.mem_append_left _ hp'))
      (fun b hb => htime b (List.mem_append_left _ hb)) fun b hb => hmem b (by
        rw [List.mem_append, List.mem_cons] at hb
        simp only [List.mem_append, List.mem_cons]
        tauto)
    have hquiet := h.quiet (before ++ .put p :: between) a after
      (by rw [heq', List.append_assoc, List.cons_append])
    have ha : a ∈ acts := hmem a (by simp)
    obtain ⟨post', hkept'⟩ := hkept.act hp hfits (h.fits a ha) hquiet (htime a (by simp))
      (fun p' hp' => hcname p' (by rw [hp']; simp))
      fun host hhost hmatch => h.apart a ha _ (hmem (.put p) (by simp)) host hhost hmatch
    rw [← List.cons_append, ← List.append_assoc, filesAfter_snoc]
    exact ⟨pre, post', hkept'⟩

theorem time_of_recs {p : Put} {r : Rec} (hr : r ∈ p.recs vsa) : r.time = p.now := by
  unfold Put.recs at hr
  split at hr
  · rw [List.mem_singleton.mp hr]
  · obtain ⟨a1, -, rfl⟩ := List.mem_map.mp hr
    rfl

/-- Within `RES_HC_EXPIRE` seconds from the first call no line becomes stale. -/
theorem careful_of_span (hfits : ∀ a ∈ acts, a.Fits vsa)
    (htimes : acts.Pairwise fun a b => a.lookup.now ≤ b.lookup.now) (hapart : Apart acts)
    (hspan : ∀ a ∈ acts, ∀ b ∈ acts, (b.lookup.now : Int) ≤ a.lookup.now + RES_HC_EXPIRE) :
    Careful vsa RES_HC_EXPIRE acts := by
  refine ⟨hfits, htimes, hapart, ?_⟩
  intro before a after heq
  have hsub : before ⊆ acts := by
    rw [heq]
    exact List.subset_append_left _ _
  have ha : a ∈ acts := by
    rw [heq]
    simp
  obtain ⟨recs, hstands, hown⟩ :=
    @filesAfter_stands vsa RES_HC_EXPIRE before (fun b hb => hfits b (hsub hb)) a.path
  have hfresh : ∀ line ∈ linesRead (filesAfter vsa RES_HC_EXPIRE before a.path),
      fresh RES_HC_EXPIRE a.lookup.now line = true := by
    intro line hline
    rw [hstands.read] at hline
    obtain ⟨r, hr, rfl⟩ := List.mem_map.mp hline
    obtain ⟨p, hp, hrec⟩ := hown r hr
    have hle : (a.lookup.now : Int) ≤ p.now + RES_HC_EXPIRE := hspan _ (hsub hp) a ha
    rw [fresh, (hstands.fits r hr).atoi_line, time_of_recs hrec, decide_eq_true_eq]
    omega
  intro hrewrites
  rw [Lookup.rewrites, rewrites_fresh hfresh] at hrewrites
  cases hrewrites

/-- In careful runs what is found was stored for the name that is asked, and what was stored for it
is found. -/
theorem cache_answers_own (h : Careful vsa RES_HC_EXPIRE acts) :
    (∀ before q after, acts = before ++ .get q :: after →
      Owned vsa before q (answer vsa RES_HC_EXPIRE before q)) ∧ Whole vsa RES_HC_EXPIRE acts := by
  constructor
  · intro before q after heq
    refine answer_owned h.apart h.fits ?_ ?_
    · rw [heq]
      exact List.subset_append_left _ _
    · rw [heq]
      simp
  · intro before p between q after heq hp hlen hnew hcname hbyname hname hrrc htime
    have htimes := h.times
    rw [heq, List.pairwise_append] at htimes
    obtain ⟨-, htimes, -⟩ := htimes
    rw [List.pairwise_cons] at htimes
    obtain ⟨hfirst, hrest⟩ := htimes
    rw [List.pairwise_append] at hrest
    have hq : p.now ≤ q.now := hfirst (.get q) (by simp)
    have hbetween : ∀ a ∈ between, (a.lookup.now : Int) ≤ p.now + RES_HC_EXPIRE := by
      intro a ha
      have hle : a.lookup.now ≤ q.now := hrest.2.2 a ha (.get q) (by simp)
      omega
    obtain ⟨pre, post, hkept⟩ := h.kept heq hp hnew hcname hbetween
    have hfits : (Act.put p).Fits vsa := h.fits _ (by rw [heq]; simp)
    exact hkept.answer hp hfits hlen hbyname hname hrrc hq htime

end

/-- IPv4 addresses in dotted notation. -/
def numeric : Vsa := ⟨fun a1 => ['.'].intercalate (a1.map fun b => dec b.toNat), hosts.dotted⟩

/-- Two names of one file: `j` and `a.j`. -/
def twoNames : List Act :=
  [.put ⟨1, ['j'], [[10, 0, 0, 1], [10, 0, 0, 2]], [], 100⟩,
    .put ⟨1, ['a', '.', 'j'], [[10, 0, 0, 3]], [], 105⟩,
    .get ⟨1, ['j'], 64, 110⟩, .get ⟨1, ['a', '.', 'j'], 64, 110⟩]

theorem twoNames_careful : Careful numeric 600 twoNames := by
  refine careful_of_span ?_ (by decide) (by unfold Apart; decide) (by decide)
  intro a ha
  refine ⟨?_, ?_, ?_⟩
  · revert a
    decide
  · rintro p rfl
    simp only [twoNames, List.mem_cons, List.not_mem_nil, or_false, Act.put.injEq, reduceCtorEq] at ha
    rcases ha with rfl | rfl <;> decide
  · rintro p rfl
    simp only [twoNames, List.mem_cons, List.not_mem_nil, or_false, Act.put.injEq, reduceCtorEq] at ha
    rcases ha with rfl | rfl <;> decide

theorem cache_answers_own_two :
    (∀ before q after, twoNames = before ++ .get q :: after →
      Owned numeric before q (answer numeric 600 before q)) ∧ Whole numeric 600 twoNames :=
  cache_answers_own twoNames_careful

/-- The addresses of a name `*`, then a lookup of `j`, whose file is the same. -/
def starred : Put := ⟨1, ['*'], [[10, 0, 0, 1]], [], 100⟩

def askedJ : Lookup := ⟨1, ['j'], 64, 101⟩

/-- The address that was stored for `*` is found for `j`. -/
theorem starred_matches_all : answer numeric 600 [.put starred] askedJ = [.addr [10, 0, 0, 1]] ∧
    ¬ Owned numeric [.put starred] askedJ (answer numeric 600 [.put starred] askedJ) := by
  have hfound : answer numeric 600 [.put starred] askedJ = [.addr [10, 0, 0, 1]] := by
    decide +kernel
  refine ⟨hfound, ?_⟩
  rw [hfound]
  intro hown
  obtain ⟨p, hp, ⟨host, hhost, hsame⟩, -⟩ := hown (.addr [10, 0, 0, 1]) List.mem_cons_self
  rw [List.mem_singleton, Act.put.injEq] at hp
  subst hp
  rw [show (Act.put starred).stored = [['*']] from rfl, List.mem_singleton] at hhost
  subst hhost
  revert hsame
  decide

end delegate.hostcache
