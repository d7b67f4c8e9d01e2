-- One line of a hosts file or of a host cache: `RES_matchLine`
-- (resolvy/reshost.cpp).
import Delegate.HostMatch
import Delegate.StringScan

open ctext delegate.string

namespace delegate.hosts

/-! ## Words -/

/-- The words of a line, as `wordScan` finds them with a buffer of `size` bytes. -/
def words (size : Nat) (lp : Text) : List Text :=
  match _h : wordscanX size lp with
  | ([], _) => []
  | (c :: w, rest) => (c :: w) :: words size rest
termination_by lp.length
decreasing_by
  have hrest := congrArg Prod.snd _h
  have hword := congrArg Prod.fst _h
  simp only [wordscanX] at hrest hword
  have hle := List.length_dropWhile_le wordBlank lp
  have htake : (c :: w).length ≤ (lp.dropWhile wordBlank).length := by
    rw [← hword, List.length_take]
    exact Nat.le_trans (Nat.min_le_right _ _) (List.takeWhile_prefix _).length_le
  rw [hword] at hrest
  rw [← hrest, List.length_drop]
  simp only [List.length_cons] at htake ⊢
  omega

theorem words_of_nil {size : Nat} {lp : Text} (h : (wordscanX size lp).1 = []) :
    words size lp = [] := by
  unfold words
  split
  · rfl
  · next hscan =>
    rw [hscan] at h
    cases h

theorem words_of_cons {size : Nat} {lp w rest : Text} (h : wordscanX size lp = (w, rest))
    (hw : w ≠ []) : words size lp = w :: words size rest := by
  have hunfold := words.eq_def size lp
  split at hunfold
  · next hscan =>
    rw [h] at hscan
    exact absurd (congrArg Prod.fst hscan) hw
  · next c cs rest' hscan =>
    rw [h, Prod.mk.injEq] at hscan
    obtain ⟨rfl, rfl⟩ := hscan
    exact hunfold

/-- A word that the buffer holds, after one blank. -/
theorem wordscanX_word {b : Char} (hb : wordBlank b = true) {w rest : Text}
    (h : ∀ c ∈ w, wordBlank c = false) (hne : w ≠ []) {size : Nat} (hlen : w.length < size)
    (hrest : ∀ c ∈ rest.head?, wordBlank c = true) :
    wordscanX size (b :: (w ++ rest)) = (w, rest) := by
  have hskip : wordscanX size (b :: (w ++ rest)) = wordscanX size (w ++ rest) := by
    unfold wordscanX
    rw [List.dropWhile_cons_of_pos hb]
  rw [hskip, wordscanX_append h hne hlen hrest]

/-- The words of a blank and a word. -/
theorem words_word {b : Char} (hb : wordBlank b = true) {w : Text}
    (h : ∀ c ∈ w, wordBlank c = false) (hne : w ≠ []) {size : Nat} (hlen : w.length < size) :
    words size (b :: w) = [w] := by
  have hscan : wordscanX size (b :: (w ++ [])) = (w, []) := wordscanX_word hb h hne hlen (by simp)
  rw [List.append_nil] at hscan
  rw [words_of_cons hscan hne, words_of_nil (by simp [wordscanX])]

/-! ## Lines -/

def AF_INET6 : Nat := 10

/-- `UNKNOWN_HOSTADDR` -/
def UNKNOWN_HOSTADDR : List (BitVec 8) := [255, 255, 255, 255]

/-- What a line has for a name or an address. -/
inductive Entry
  | addr (bytes : List (BitVec 8))
  | host (name : Text)
  deriving DecidableEq

/-- The host of a line matches the name. -/
def hostMatches (host name : Text) : Bool :=
  strcaseeq host name || hostlist.rexpmatchX host name ['c']

/-- The address may be returned to a query by name. -/
def addrFits (byname : Nat) (baddr : List (BitVec 8)) : Bool :=
  if byname ≠ AF_INET6 ∧ 16 ≤ baddr.length then false
  else if baddr = UNKNOWN_HOSTADDR then true
  else if byname = AF_INET6 ∧ baddr.length < 16 then false
  else true

/-- The line up to a comment and up to its end. Nothing is read of a line that begins with a
comment. -/
def cutLine (line : Text) : Option Text :=
  if line.head? = some '#' then none else some (beforeChr '\n' (beforeChr '#' line))

/-- `RES_matchLine`: what the line has for the name, and the name that is stored to `cname` if it is
written. `VSA_atob` gives the bytes of an address. -/
def RES_matchLine (VSA_atob : Text → List (BitVec 8)) (byname : Nat) (name line : Text) (rrc : Int) :
    List Entry × Option Text :=
  match cutLine line with
  | none => ([], none)
  | some line =>
    let (addr, lp) := wordscanX 64 line
    if addr = [] then ([], none)
    else if byname ≠ 0 then
      let host1 := (wordscanX 512 lp).1
      let baddr := VSA_atob addr
      if 1 < rrc ∧ addrFits byname baddr ∧ (words 512 lp).any fun host => hostMatches host name then
        ([.addr baddr], some host1)
      else ([], none)
    else if addr = name then (((words 512 lp).take (rrc - 1).toNat).map .host, none)
    else ([], none)

end delegate.hosts
