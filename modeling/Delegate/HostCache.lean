-- The files of the host cache in rescache.cpp. When most lines of a file are
-- stale it is written again, without the stale lines at its start. The line where
-- they end is read to find it, and is lost.
import Delegate.CText

open ctext

namespace delegate.hostcache

/-! ## The pure model -/

/-- What the scan for a name has found so far. -/
structure Found where
  lines : Nat
  expired : Nat
  ac : Nat
  lastmatch : Int
  deriving DecidableEq

section
variable (RES_matchLine : Text → Int → Nat) (RES_HC_EXPIRE now : Int)

/-- The line is younger than `RES_HC_EXPIRE`. -/
def fresh (line : Text) : Bool := now - atoi line ≤ RES_HC_EXPIRE

/-- From `SCAN1` on: the count of this match, and what is found with it. An older match is
forgotten. -/
def scan1 (rrc : Int) (ctime : Int) (lp : Text) (f : Found) : Nat × Found :=
  let ac1 := RES_matchLine lp (rrc - f.ac)
  if ac1 = 0 then (ac1, f)
  else if f.lastmatch ≠ 0 ∧ f.lastmatch < ctime then
    let ac1 := RES_matchLine lp rrc
    (ac1, { f with ac := ac1, lastmatch := ctime })
  else (ac1, { f with ac := f.ac + ac1, lastmatch := ctime })

/-- The loop over the lines of the file. -/
def scanLoop (noexpire : Bool) (rrc : Int) : List Text → Found → Found
  | [], f => f
  | line :: rest, f =>
      let ctime := atoi line
      if noexpire = false ∧ RES_HC_EXPIRE < now - ctime then
        scanLoop noexpire rrc rest { f with lines := f.lines + 1, expired := f.expired + 1 }
      else
        let lp := (afterChr ' ' line).getD []
        let (ac1, f) := scan1 RES_matchLine rrc ctime lp f
        if rrc - f.ac ≤ 1 ∧ ac1 = 0 then f
        else scanLoop noexpire rrc rest { f with lines := f.lines + 1 }

/-- The file is written again if nothing matched and most lines were stale. -/
def rewrites (noexpire : Bool) (rrc : Int) (file : List Text) : Bool :=
  let f := scanLoop RES_matchLine RES_HC_EXPIRE now noexpire rrc file ⟨0, 0, 0, 0⟩
  !noexpire && f.ac == 0 && decide (f.lines / 2 < f.expired)

/-- The first loop of the copy: it ends after the first line that is not stale. -/
def skipStale : List Text → List Text
  | [] => []
  | line :: rest => if now - atoi line ≤ RES_HC_EXPIRE then rest else skipStale rest

/-- The file after `gethostbynameaddr_cacheX`; `opened` says that both files could be opened for
the copy. -/
def gethostbynameaddr_cacheX (opened noexpire : Bool) (rrc : Int) (file : List Text) : List Text :=
  if rewrites RES_matchLine RES_HC_EXPIRE now noexpire rrc file && opened then
    skipStale RES_HC_EXPIRE now file
  else file

end

/-! ## What is lost -/

section
variable {RES_HC_EXPIRE now : Int}

/-- In a file in order of time, the lines after a fresh one are fresh. -/
theorem filter_fresh {line : Text} {file : List Text}
    (hsorted : (line :: file).Pairwise fun a b => atoi a ≤ atoi b)
    (h : fresh RES_HC_EXPIRE now line = true) :
    (line :: file).filter (fresh RES_HC_EXPIRE now) = line :: file := by
  apply List.filter_eq_self.mpr
  intro x hx
  rcases List.mem_cons.mp hx with rfl | hx
  · exact h
  · have hle := List.rel_of_pairwise_cons hsorted hx
    unfold fresh at h ⊢
    simp only [decide_eq_true_eq] at h ⊢
    omega

/-- The copy is right only if there was nothing to copy. -/
theorem skipStale_eq_filter_iff {file : List Text}
    (hsorted : file.Pairwise fun a b => atoi a ≤ atoi b) :
    skipStale RES_HC_EXPIRE now file = file.filter (fresh RES_HC_EXPIRE now) ↔
      ∀ line ∈ file, fresh RES_HC_EXPIRE now line = false := by
  induction file with
  | nil => simp [skipStale]
  | cons line file ih =>
    have hrest := ih (List.pairwise_cons.mp hsorted).2
    cases hfresh : fresh RES_HC_EXPIRE now line with
    | false =>
      have hstale : ¬ now - atoi line ≤ RES_HC_EXPIRE := by simpa [fresh] using hfresh
      unfold skipStale
      rw [if_neg hstale, List.filter_cons_of_neg (by simp [hfresh]), hrest]
      simp [hfresh]
    | true =>
      have hyoung : now - atoi line ≤ RES_HC_EXPIRE := by simpa [fresh] using hfresh
      unfold skipStale
      rw [if_pos hyoung, filter_fresh hsorted hfresh]
      constructor
      · intro h
        have hlen := congrArg List.length h
        simp at hlen
      · intro h
        have hno := h line List.mem_cons_self
        rw [hfresh] at hno
        exact absurd hno (by simp)

end

/-- A file in order of time that is written again keeps its valid lines exactly if it has none. -/
theorem compaction_keeps_iff (RES_matchLine : Text → Int → Nat) (RES_HC_EXPIRE now rrc : Int)
    (file : List Text) (hsorted : file.Pairwise fun a b => atoi a ≤ atoi b)
    (hrewrites : rewrites RES_matchLine RES_HC_EXPIRE now false rrc file = true) :
    gethostbynameaddr_cacheX RES_matchLine RES_HC_EXPIRE now true false rrc file =
        file.filter (fresh RES_HC_EXPIRE now) ↔
      ∀ line ∈ file, fresh RES_HC_EXPIRE now line = false := by
  unfold gethostbynameaddr_cacheX
  rw [hrewrites, Bool.and_true, if_pos rfl]
  exact skipStale_eq_filter_iff hsorted

/-- Three lines, where nothing matches the name that is looked for. -/
def threeLines : List Text := ["10 a h".toList, "20 b h".toList, "900 c h".toList]

theorem compaction_keeps_stale :
    gethostbynameaddr_cacheX (fun _ _ => 0) 300 2000 true false 16 threeLines =
      threeLines.filter (fresh 300 2000) :=
  (compaction_keeps_iff (fun _ _ => 0) 300 2000 16 threeLines (by decide) (by decide)).mpr (by decide)

/-- The line of 900 is valid at 1000, and is not in the new file. -/
theorem valid_line_lost :
    threeLines.Pairwise (fun a b => atoi a ≤ atoi b) ∧
      rewrites (fun _ _ => 0) 300 1000 false 16 threeLines = true ∧
      gethostbynameaddr_cacheX (fun _ _ => 0) 300 1000 true false 16 threeLines ≠
        threeLines.filter (fresh 300 1000) := by
  decide

end delegate.hostcache
