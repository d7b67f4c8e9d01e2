-- The hosts files that are kept in memory (`readhosts1` and
-- `gethostbynameaddr_file`, resolvy/reshost.cpp): a table with a slot for each
-- of the first three paths, the last of which all other paths share.
import Delegate.HostsLine

open ctext delegate.string

namespace delegate.hosts

/-! ## The pure model -/

/-- `HostFile`: a slot of the table, where `h_buff` are the lines that were stored. -/
structure HostFile where
  h_path : Option Text
  h_date : Int
  h_buff : Option (List Text)

/-- `Hosts`, as it is allocated. -/
def Hosts : List HostFile := List.replicate 4 ⟨none, 0, none⟩

/-- The files, and the output of the commands of paths `sh:`: the content if it can be opened, and
the time of the last change. -/
structure Files where
  content : Text → Option Text
  File_mtime : Text → Int
  HOSTSFILE : Text

/-- `fgets` with a buffer of 1024 bytes: the line, and the content after it. -/
def fgets (content : Text) : Text × Text :=
  let line := ((content.takeWhile (· ≠ '\n')) ++ if '\n' ∈ content then ['\n'] else []).take 1023
  (line, content.drop line.length)

/-- A line as it is stored: up to a comment, without the blanks before it, unless the line begins
with `#!`. -/
def strip (line : Text) : Text :=
  if "#!".toList.isPrefixOf line then line
  else
    let cut := line.takeWhile fun c => c ≠ '#' ∧ c ≠ '\r' ∧ c ≠ '\n'
    if cut = line then line else (cut.reverse.dropWhile fun c => c = ' ' ∨ c = '\t').reverse

/-- The lines that `readhosts1` stores of a content. -/
def linesOf (content : Text) : List Text :=
  if _h : content = [] then []
  else
    let line := strip (fgets content).1
    let rest := linesOf (fgets content).2
    if line = [] then rest else line :: rest
termination_by content.length
decreasing_by
  obtain ⟨c, r, rfl⟩ := List.exists_cons_of_ne_nil _h
  have hpos : 0 < (fgets (c :: r)).1.length := by
    unfold fgets
    rw [List.length_take, List.length_append]
    by_cases hc : c = '\n' <;> simp [hc]
  simp only [fgets] at hpos ⊢
  rw [List.length_drop]
  simp only [List.length_cons]
  omega

/-- `readhosts1`. The file of a slot is not read again if it has not changed. -/
def readhosts1 (fs : Files) (now : Int) (path content : Text) (hp : HostFile) : HostFile :=
  let unchanged := match hp.h_path with
    | some p =>
      p.head? = some '/' && (decide (0 < fs.File_mtime p) && decide (fs.File_mtime p ≤ hp.h_date))
    | none => false
  if unchanged then { hp with h_date := now } else ⟨some path, now, some (linesOf content)⟩

/-- The slot for a path: its own, or a free one, or the last one that was looked at. -/
def slotOf (hosts : List HostFile) (path : Text) : Nat :=
  match (hosts.take (hosts.length - 1)).findIdx? fun hp =>
      hp.h_path.isNone || hp.h_path == some path with
  | some hi => hi
  | none => hosts.length - 2

/-- A lookup: the path, what is asked, the room for results, and the time. -/
structure Lookup where
  path : Text
  byname : Nat
  name : Text
  rrc : Int
  now : Int

/-- The loop over the lines that were stored, with the limit of a line `#!max=`. -/
def matchLines (VSA_atob : Text → List (BitVec 8)) (q : Lookup) (opt_addr_max : Int)
    (rv : List Entry) (cname : Option Text) : List Text → List Entry × Option Text
  | [] => (rv, cname)
  | line :: lines =>
    let opt_addr_max :=
      if "#!max=".toList.isPrefixOf line then atoi (line.drop 6) else opt_addr_max
    if 0 ≤ opt_addr_max ∧ opt_addr_max ≤ rv.length then (rv, cname)
    else
      let found := RES_matchLine VSA_atob q.byname q.name line (q.rrc - rv.length)
      matchLines VSA_atob q opt_addr_max (rv ++ found.1) (found.2.or cname) lines

/-- What is found in the lines of a content. -/
def answer (VSA_atob : Text → List (BitVec 8)) (q : Lookup) (lines : List Text) :
    List Entry × Option Text :=
  matchLines VSA_atob q (-1) [] none lines

/-- `gethostbynameaddr_file`: the table after it, and what is found, if the file can be opened. -/
def gethostbynameaddr_file (VSA_atob : Text → List (BitVec 8)) (fs : Files) (hosts : List HostFile)
    (q : Lookup) : List HostFile × Option (List Entry × Option Text) :=
  let hi := slotOf hosts q.path
  let hp := hosts.getD hi ⟨none, 0, none⟩
  if hp.h_buff.isNone ∨ 60 < q.now - hp.h_date then
    let path := if q.path = [] then fs.HOSTSFILE else q.path
    match fs.content path with
    | none => (hosts, none)
    | some content =>
      let hp := readhosts1 fs q.now path content hp
      (hosts.set hi hp, some (answer VSA_atob q (hp.h_buff.getD [])))
  else (hosts, some (answer VSA_atob q (hp.h_buff.getD [])))

/-- The answers of lookups one after the other. -/
def answers (VSA_atob : Text → List (BitVec 8)) (fs : Files) :
    List HostFile → List Lookup → List (Option (List Entry × Option Text))
  | _, [] => []
  | hosts, q :: qs =>
    let step := gethostbynameaddr_file VSA_atob fs hosts q
    step.2 :: answers VSA_atob fs step.1 qs

/-- What is found in the lines of the file at the path of the lookup. -/
def own (VSA_atob : Text → List (BitVec 8)) (fs : Files) (q : Lookup) :
    Option (List Entry × Option Text) :=
  (fs.content q.path).map fun content => answer VSA_atob q (linesOf content)

/-! ## The slots -/

/-- The slots of the table: those of `ps`, each with the lines of its own path, and free ones. -/
structure Kept (fs : Files) (hosts : List HostFile) (ps : List Text) : Prop where
  paths : hosts.map HostFile.h_path = ps.map some ++ List.replicate (4 - ps.length) none
  buff : ∀ hp ∈ hosts, hp.h_buff = hp.h_path.bind fun p => (fs.content p).map linesOf
  short : ps.length ≤ 3
  nodup : ps.Nodup

theorem kept_Hosts (fs : Files) : Kept fs Hosts [] where
  paths := rfl
  buff := by
    intro hp hhp
    rw [List.eq_of_mem_replicate hhp]
    rfl
  short := by simp
  nodup := List.nodup_nil

/-- The search of the slot looks at the paths only. -/
theorem slotOf_eq (hosts : List HostFile) (path : Text) :
    slotOf hosts path =
      match ((hosts.map HostFile.h_path).take (hosts.length - 1)).findIdx? fun p =>
        p.isNone || p == some path with
      | some hi => hi
      | none => hosts.length - 2 := by
  unfold slotOf
  rw [← List.map_take, List.findIdx?_map]
  rfl

/-- The slot for a path is that of the path, or the first free one. -/
theorem Kept.slot {fs : Files} {hosts : List HostFile} {ps : List Text} (h : Kept fs hosts ps)
    {path : Text} (hpath : path ∈ ps ∨ ps.length < 3) :
    ∃ hp, hosts[slotOf hosts path]? = some hp ∧
      ((path ∈ ps ∧ hp.h_path = some path) ∨
        (path ∉ ps ∧ slotOf hosts path = ps.length ∧ hp.h_path = none)) := by
  have hshort := h.short
  have hlen : hosts.length = 4 := by
    have := congrArg List.length h.paths
    simp only [List.length_map, List.length_append, List.length_replicate] at this
    omega
  have htake : (ps.map some ++ List.replicate (4 - ps.length) none).take 3 =
      ps.map some ++ List.replicate (3 - ps.length) none := by
    rw [List.take_append, List.take_of_length_le (by rw [List.length_map]; omega),
      List.take_replicate, List.length_map]
    congr 2
    omega
  have hslot := slotOf_eq hosts path
  rw [h.paths, hlen, htake, List.findIdx?_append] at hslot
  have hget : ∀ i, (hosts.map HostFile.h_path)[i]? = hosts[i]?.map HostFile.h_path :=
    fun i => List.getElem?_map
  by_cases hmem : path ∈ ps
  · obtain ⟨i, hi⟩ : ∃ i, (ps.map some).findIdx? (fun p => p.isNone || p == some path) = some i := by
      rw [← Option.isSome_iff_exists, List.findIdx?_isSome, List.any_eq_true]
      exact ⟨some path, List.mem_map_of_mem hmem, by simp⟩
    obtain ⟨hlt, hpi, -⟩ := List.findIdx?_eq_some_iff_getElem.mp hi
    rw [hi] at hslot
    rw [List.length_map] at hlt
    have heq : slotOf hosts path = i := hslot
    have hpath : (hosts.map HostFile.h_path)[i]? = some (some path) := by
      rw [h.paths, List.getElem?_append_left (by rwa [List.length_map]),
        List.getElem?_eq_getElem (by rwa [List.length_map])]
      simpa using hpi
    rw [hget, Option.map_eq_some_iff] at hpath
    obtain ⟨hp, hhp, hsome⟩ := hpath
    exact ⟨hp, by rw [heq, hhp], .inl ⟨hmem, hsome⟩⟩
  · have hfree : ps.length < 3 := hpath.resolve_left hmem
    have hnone : (ps.map some).findIdx? (fun p => p.isNone || p == some path) = none := by
      rw [List.findIdx?_eq_none_iff]
      intro p hp
      obtain ⟨x, hx, rfl⟩ := List.mem_map.mp hp
      simp only [Option.isNone_some, Bool.false_or, beq_eq_false_iff_ne, ne_eq, Option.some.injEq]
      rintro rfl
      exact hmem hx
    obtain ⟨k, hk⟩ : ∃ k, 3 - ps.length = k + 1 := ⟨2 - ps.length, by omega⟩
    rw [hnone, hk, List.replicate_succ, List.findIdx?_cons] at hslot
    simp only [Option.isNone_none, Bool.true_or, if_true, Option.map_some, Option.none_or,
      List.length_map, Nat.zero_add] at hslot
    have hpath : (hosts.map HostFile.h_path)[ps.length]? = some none := by
      rw [h.paths, List.getElem?_append_right (by rw [List.length_map]), List.length_map,
        Nat.sub_self, List.getElem?_replicate, if_pos (by omega)]
    rw [hget, Option.map_eq_some_iff] at hpath
    obtain ⟨hp, hhp, hnone⟩ := hpath
    exact ⟨hp, by rw [hslot, hhp], .inr ⟨hmem, hslot, hnone⟩⟩

/-! ## Lookups -/

/-- The paths of the table after a lookup. -/
def after (ps : List Text) (path : Text) : List Text := if path ∈ ps then ps else ps ++ [path]

/-- A slot that is filled for a path keeps the table in order. -/
theorem Kept.set {fs : Files} {hosts : List HostFile} {ps : List Text} (h : Kept fs hosts ps)
    {path content : Text} (hpath : path ∈ ps ∨ ps.length < 3)
    (hcontent : fs.content path = some content) {hp : HostFile} (hown : hp.h_path = some path)
    (hbuff : hp.h_buff = some (linesOf content)) :
    Kept fs (hosts.set (slotOf hosts path) hp) (after ps path) := by
  obtain ⟨old, hget, hcase⟩ := h.slot hpath
  have hshort := h.short
  have hlines : ∀ hp' ∈ hosts.set (slotOf hosts path) hp,
      hp'.h_buff = hp'.h_path.bind fun p => (fs.content p).map linesOf := by
    intro hp' hmem
    rcases List.mem_or_eq_of_mem_set hmem with hmem | rfl
    · exact h.buff hp' hmem
    · rw [hown, hbuff, Option.bind_some, hcontent, Option.map_some]
  rcases hcase with ⟨hmem, hsome⟩ | ⟨hmem, hslot, hnone⟩
  · rw [after, if_pos hmem]
    refine ⟨?_, hlines, h.short, h.nodup⟩
    rw [List.map_set, hown, ← hsome, ← h.paths]
    apply List.ext_getElem?
    intro i
    rw [List.getElem?_set, List.getElem?_map, List.length_map]
    by_cases hi : slotOf hosts path = i
    · subst hi
      obtain ⟨hlt, -⟩ := List.getElem?_eq_some_iff.mp hget
      rw [if_pos rfl, if_pos hlt, hget, Option.map_some]
    · rw [if_neg hi]
  · have hfree : ps.length < 3 := hpath.resolve_left hmem
    obtain ⟨k, hk⟩ : ∃ k, 4 - ps.length = k + 1 := ⟨3 - ps.length, by omega⟩
    rw [after, if_neg hmem]
    refine ⟨?_, hlines, ?_, ?_⟩
    · have hrest : 4 - (ps ++ [path]).length = k := by
        rw [List.length_append, List.length_singleton]
        omega
      rw [List.map_set, hown, hslot, h.paths, hk, hrest, List.replicate_succ, List.map_append,
        List.set_append_right _ _ (by rw [List.length_map]), List.length_map, Nat.sub_self,
        List.set_cons_zero, List.append_assoc]
      rfl
    · rw [List.length_append, List.length_singleton]
      omega
    · rw [List.nodup_append]
      refine ⟨h.nodup, List.nodup_singleton _, ?_⟩
      intro x hx y hy hxy
      rw [List.mem_singleton] at hy
      exact hmem (by rwa [hxy, hy] at hx)

/-- A lookup of a path that has a slot, or finds a free one, is answered from its own file. -/
theorem Kept.lookup {fs : Files} {hosts : List HostFile} {ps : List Text} (h : Kept fs hosts ps)
    (VSA_atob : Text → List (BitVec 8)) {q : Lookup} (hpath : q.path ∈ ps ∨ ps.length < 3)
    (hne : q.path ≠ []) {content : Text} (hcontent : fs.content q.path = some content) :
    (gethostbynameaddr_file VSA_atob fs hosts q).2 = own VSA_atob fs q ∧
      Kept fs (gethostbynameaddr_file VSA_atob fs hosts q).1 (after ps q.path) := by
  obtain ⟨hp, hget, hcase⟩ := h.slot hpath
  have hbuff := h.buff hp (List.mem_of_getElem? hget)
  unfold gethostbynameaddr_file own
  dsimp only
  rw [List.getD_eq_getElem?_getD, hget, Option.getD_some, if_neg hne, hcontent, Option.map_some]
  dsimp only
  by_cases hstale : hp.h_buff.isNone ∨ 60 < q.now - hp.h_date
  · have hread : (readhosts1 fs q.now q.path content hp).h_path = some q.path ∧
        (readhosts1 fs q.now q.path content hp).h_buff = some (linesOf content) := by
      unfold readhosts1
      rcases hcase with ⟨-, hsome⟩ | ⟨-, -, hnone⟩
      · rw [hsome, Option.bind_some, hcontent, Option.map_some] at hbuff
        rw [hsome]
        dsimp only
        split
        · exact ⟨rfl, hbuff⟩
        · exact ⟨rfl, rfl⟩
      · rw [hnone]
        exact ⟨rfl, rfl⟩
    rw [if_pos hstale]
    dsimp only
    rw [hread.2, Option.getD_some]
    exact ⟨rfl, h.set hpath hcontent hread.1 hread.2⟩
  · rw [if_neg hstale]
    rcases hcase with ⟨hmem, hsome⟩ | ⟨-, -, hnone⟩
    · rw [hsome, Option.bind_some, hcontent, Option.map_some] at hbuff
      rw [hbuff, Option.getD_some, after, if_pos hmem]
      exact ⟨rfl, h⟩
    · rw [hnone, Option.bind_none] at hbuff
      rw [hbuff] at hstale
      exact absurd (.inl rfl) hstale

/-- The paths of the table are among those that were looked up. -/
theorem after_subset {ps all : List Text} (hps : ps ⊆ all) {path : Text} (hpath : path ∈ all) :
    after ps path ⊆ all := by
  unfold after
  split
  · exact hps
  · exact List.append_subset.mpr ⟨hps, List.cons_subset.mpr ⟨hpath, List.nil_subset _⟩⟩

/-- Where no more than three paths are looked up, each has a slot. -/
theorem Kept.room {fs : Files} {hosts : List HostFile} {ps all : List Text} (h : Kept fs hosts ps)
    (hps : ps ⊆ all) (hall : all.toFinset.card ≤ 3) {path : Text} (hpath : path ∈ all) :
    path ∈ ps ∨ ps.length < 3 := by
  by_contra hno
  rw [not_or] at hno
  have hcard : (path :: ps).toFinset.card = ps.length + 1 :=
    List.toFinset_card_of_nodup (List.nodup_cons.mpr ⟨hno.1, h.nodup⟩)
  have hsub : (path :: ps).toFinset ⊆ all.toFinset := by
    intro p hp
    rw [List.mem_toFinset] at hp ⊢
    exact List.cons_subset.mpr ⟨hpath, hps⟩ hp
  have hle := Finset.card_le_card hsub
  omega

theorem answers_own {fs : Files} {all : List Text} (VSA_atob : Text → List (BitVec 8))
    (hall : all.toFinset.card ≤ 3) {qs : List Lookup} {hosts : List HostFile} {ps : List Text}
    (h : Kept fs hosts ps) (hps : ps ⊆ all) (hqs : ∀ q ∈ qs, q.path ∈ all ∧ q.path.head? = some '/' ∧
      (fs.content q.path).isSome) :
    answers VSA_atob fs hosts qs = qs.map (own VSA_atob fs) := by
  induction qs generalizing hosts ps with
  | nil => rfl
  | cons q qs ih =>
    obtain ⟨hmem, habs, hexists⟩ := hqs q (List.mem_cons_self ..)
    obtain ⟨content, hcontent⟩ := Option.isSome_iff_exists.mp hexists
    have hne : q.path ≠ [] := by
      intro hnil
      rw [hnil] at habs
      cases habs
    obtain ⟨hown, hkept⟩ := h.lookup VSA_atob (h.room hps hall hmem) hne hcontent
    rw [answers, List.map_cons]
    rw [hown, ih hkept (after_subset hps hmem) fun q hq => hqs q (List.mem_cons_of_mem _ hq)]

/-- With at most three paths, each lookup is answered from the file at its own path. -/
theorem gethostbynameaddr_file_own (VSA_atob : Text → List (BitVec 8)) (fs : Files)
    (qs : List Lookup) (hqs : ∀ q ∈ qs, q.path.head? = some '/' ∧ (fs.content q.path).isSome)
    (hpaths : (qs.map (·.path)).toFinset.card ≤ 3) :
    answers VSA_atob fs Hosts qs = qs.map (own VSA_atob fs) :=
  answers_own VSA_atob hpaths (kept_Hosts fs) (List.nil_subset _)
    fun q hq => ⟨List.mem_map_of_mem hq, hqs q hq⟩

/-- The bytes of a dotted address. -/
def dotted (addr : Text) : List (BitVec 8) := (addr.splitOn '.').map fun d => BitVec.ofInt 8 (atoi d)

/-- A line for the host `h`. -/
def tenth (c : Char) : Text := ['1', '0', '.', '0', '.', '0', '.', c, ' ', 'h']

/-- The file `/d` has another address than the others. -/
def twoFiles : Files where
  content path := some (if path = ['/', 'd'] then tenth '4' ++ ['\n'] else tenth '3' ++ ['\n'])
  File_mtime _ := 1
  HOSTSFILE := "/etc/hosts".toList

/-- The address of `h` is asked. -/
def lookup (path : Text) (now : Int) : Lookup := ⟨path, 2, ['h'], 16, now⟩

theorem gethostbynameaddr_file_own_two :
    answers dotted twoFiles Hosts [lookup ['/', 'c'] 100, lookup ['/', 'd'] 101] =
      [lookup ['/', 'c'] 100, lookup ['/', 'd'] 101].map (own dotted twoFiles) :=
  gethostbynameaddr_file_own dotted twoFiles [lookup ['/', 'c'] 100, lookup ['/', 'd'] 101]
    (List.forall_mem_cons.mpr ⟨⟨rfl, rfl⟩, List.forall_mem_singleton.mpr ⟨rfl, rfl⟩⟩)
    ((List.toFinset_card_le _).trans (Nat.le_succ 2))

/-- A file of one line, which neither has a comment nor ends in a blank. -/
theorem linesOf_line {l : Text} {c : Char} (hl : ∀ d ∈ l ++ [c], d ≠ '#' ∧ d ≠ '\r' ∧ d ≠ '\n')
    (hc : c ≠ ' ' ∧ c ≠ '\t') (hlen : l.length < 1000) :
    linesOf (l ++ [c, '\n']) = [l ++ [c]] := by
  have htake : ∀ p : Char → Bool, (∀ d ∈ l ++ [c], p d = true) → p '\n' = false →
      (l ++ [c, '\n']).takeWhile p = l ++ [c] := by
    intro p hp hnl
    rw [show l ++ [c, '\n'] = (l ++ [c]) ++ '\n' :: [] by simp,
      List.takeWhile_append_of_pos hp, List.takeWhile_cons_of_neg (by simp [hnl]), List.append_nil]
  have hfgets : fgets (l ++ [c, '\n']) = (l ++ [c, '\n'], []) := by
    unfold fgets
    rw [htake _ (fun d hd => by simpa using (hl d hd).2.2) (by simp), if_pos (by simp)]
    simp only [List.append_assoc, List.cons_append, List.nil_append, Prod.mk.injEq]
    constructor
    · rw [List.take_of_length_le (by simp; omega)]
    · rw [List.drop_eq_nil_iff, List.length_take]
      simp
      omega
  have hstrip : strip (l ++ [c, '\n']) = l ++ [c] := by
    unfold strip
    rw [if_neg, htake _ (fun d hd => by simpa using hl d hd) (by simp)]
    · rw [if_neg (by simp), List.reverse_append, List.reverse_singleton, List.singleton_append,
        List.dropWhile_cons_of_neg (by simpa using hc)]
      simp
    · rintro hpre
      have hmem : '#' ∈ l ++ [c, '\n'] := (List.isPrefixOf_iff_prefix.mp hpre).subset (by simp)
      rw [show l ++ [c, '\n'] = (l ++ [c]) ++ ['\n'] by simp, List.mem_append] at hmem
      rcases hmem with hmem | hmem
      · exact (hl _ hmem).1 rfl
      · simp at hmem
  rw [linesOf, dif_neg (by simp)]
  dsimp only
  rw [hfgets, hstrip, linesOf, dif_pos rfl, if_neg (by simp)]

/-- The first lookup of a path reads its file into the free slot. -/
theorem gethostbynameaddr_file_free {VSA_atob : Text → List (BitVec 8)} {fs : Files}
    {hosts : List HostFile} {q : Lookup} {i : Nat} (hslot : slotOf hosts q.path = i)
    (hfree : hosts[i]? = some ⟨none, 0, none⟩) (hne : q.path ≠ []) {content : Text}
    (hcontent : fs.content q.path = some content) :
    gethostbynameaddr_file VSA_atob fs hosts q =
      (hosts.set i ⟨some q.path, q.now, some (linesOf content)⟩,
        some (answer VSA_atob q (linesOf content))) := by
  unfold gethostbynameaddr_file
  dsimp only
  rw [hslot, List.getD_eq_getElem?_getD, hfree, Option.getD_some, if_pos (.inl rfl), if_neg hne,
    hcontent]
  rfl

/-- Within a minute the lines that are stored are used. -/
theorem gethostbynameaddr_file_fresh {VSA_atob : Text → List (BitVec 8)} {fs : Files}
    {hosts : List HostFile} {q : Lookup} {i : Nat} (hslot : slotOf hosts q.path = i)
    {hp : HostFile} (hget : hosts[i]? = some hp) {lines : List Text} (hbuff : hp.h_buff = some lines)
    (hfresh : q.now ≤ hp.h_date + 60) :
    gethostbynameaddr_file VSA_atob fs hosts q = (hosts, some (answer VSA_atob q lines)) := by
  unfold gethostbynameaddr_file
  dsimp only
  rw [hslot, List.getD_eq_getElem?_getD, hget, Option.getD_some, hbuff, if_neg]
  · rfl
  · rintro (hnone | hold)
    · cases hnone
    · omega

theorem answer_line {c : Char} (hc : c = '3' ∨ c = '4') (path : Text) (now : Int) :
    answer dotted (lookup path now) [tenth c] =
      ([.addr (dotted ['1', '0', '.', '0', '.', '0', '.', c])], some ['h']) := by
  have hwords : words 512 [' ', 'h'] = [['h']] := words_word rfl (by simp [wordBlank]) (by simp) (by simp)
  have haddr : wordscanX 64 (tenth c) =
      (['1', '0', '.', '0', '.', '0', '.', c], [' ', 'h']) := by
    rcases hc with rfl | rfl <;> rfl
  have hcut : cutLine (tenth c) =
      some (tenth c) := by
    rcases hc with rfl | rfl <;> rfl
  have hfits : addrFits 2 (dotted ['1', '0', '.', '0', '.', '0', '.', c]) = true := by
    rcases hc with rfl | rfl <;> rfl
  have hmatch : hostMatches ['h'] ['h'] = true := rfl
  have hline : RES_matchLine dotted 2 ['h'] (tenth c) 16 =
      ([.addr (dotted ['1', '0', '.', '0', '.', '0', '.', c])], some ['h']) := by
    unfold RES_matchLine
    rw [hcut]
    dsimp only
    rw [haddr]
    dsimp only
    rw [if_neg (by simp), if_pos (by simp), hwords, if_pos ⟨by omega, hfits, by simp [hmatch]⟩]
    rfl
  have hmax : ¬ ['#', '!', 'm', 'a', 'x', '='] <+: tenth c := by simp [tenth]
  simp [answer, matchLines, lookup, hline, hmax]

/-- The file `/d` shares its slot with `/c`: it is answered from the lines of `/c`. -/
theorem fourth_file_mixed :
    answers dotted twoFiles Hosts [lookup ['/', 'a'] 100, lookup ['/', 'b'] 101,
        lookup ['/', 'c'] 102, lookup ['/', 'd'] 103] ≠
      [lookup ['/', 'a'] 100, lookup ['/', 'b'] 101, lookup ['/', 'c'] 102,
        lookup ['/', 'd'] 103].map (own dotted twoFiles) := by
  have hlines : ∀ c, c = '3' ∨ c = '4' → linesOf (tenth c ++ ['\n']) = [tenth c] := by
    rintro c (rfl | rfl)
    · exact linesOf_line (l := (tenth '3').dropLast) (by simp [tenth]) (by simp) (by simp [tenth])
    · exact linesOf_line (l := (tenth '4').dropLast) (by simp [tenth]) (by simp) (by simp [tenth])
  intro h
  have hlast := congrArg (fun l => l[3]?) h
  rw [answers, gethostbynameaddr_file_free (i := 0) rfl rfl (by simp [lookup]) rfl, answers,
    gethostbynameaddr_file_free (i := 1) rfl rfl (by simp [lookup]) rfl, answers,
    gethostbynameaddr_file_free (i := 2) rfl rfl (by simp [lookup]) rfl, answers,
    gethostbynameaddr_file_fresh (i := 2) rfl rfl rfl (show (103 : Int) ≤ 102 + 60 by omega)]
    at hlast
  have hanswer : answer dotted (lookup ['/', 'd'] 103) (linesOf (tenth '3' ++ ['\n'])) =
      answer dotted (lookup ['/', 'd'] 103) (linesOf (tenth '4' ++ ['\n'])) :=
    Option.some.inj (Option.some.inj hlast)
  rw [hlines '3' (.inl rfl), hlines '4' (.inr rfl), answer_line (.inl rfl), answer_line (.inr rfl)]
    at hanswer
  have haddr : dotted ['1', '0', '.', '0', '.', '0', '.', '3'] ≠
      dotted ['1', '0', '.', '0', '.', '0', '.', '4'] := by decide
  simp only [Prod.mk.injEq, List.cons.injEq, Entry.addr.injEq, and_true] at hanswer
  exact haddr hanswer

end delegate.hosts
