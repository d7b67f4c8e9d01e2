-- Matching of the beginning of a URL with a pattern, where an escape matches
-- the byte it stands for (`h2toi` and `url_strstrX`, rary/urlesc.cpp). This is
-- the matcher of the rules of MOUNT.
import Delegate.Percent

open percent

namespace delegate.urlmatch

/-! ## The matcher -/

/-- A `char` as an `int`. It is signed. -/
def sch (b : UInt8) : Int := if b < 128 then b.toNat else b.toNat - 256

/-- `s[i]`. The last one is the terminator, and nothing may be read past it. -/
def getch (s : List UInt8) (i : Nat) : Option UInt8 :=
  if i ≤ s.length then some (s.getD i 0) else none

/-- `h2toi(s+i)` -/
def h2toi (s : List UInt8) (i : Nat) : Option Int := do
  let c0 ← getch s i
  if ishex c0 then
    let c1 ← getch s (i + 1)
    if ishex c1 then return hexVal c0 * 16 + hexVal c1
  return -1

/-- `isupper(c) ? tolower(c) : c` -/
def lower (c : Int) : Int := if 65 ≤ c ∧ c ≤ 90 then c + 32 else c

/-- How a turn of the loop ends: with the value to return, or with the next `ulen` and `plen`. -/
inductive Turn
  | ret (n : Nat)
  | next (ulen plen : Nat)
  deriving DecidableEq, Repr

/-- The comparisons of a turn, from the first to the last. The value of `xuch` counts only where
`uch` is a percent sign, and that of `xpch` where `pch` is one. -/
def compare (nocase : Bool) (uch pch xuch xpch : Int) (ulen plen : Nat) : Turn :=
  if uch = pch ∧ uch ≠ 37 then .next (ulen + 1) (plen + 1)
  else if uch ≠ 37 ∧ nocase = true ∧ lower uch = lower pch then .next (ulen + 1) (plen + 1)
  else if uch = 37 ∧ xuch = pch then .next (ulen + 3) (plen + 1)
  else if pch = 37 ∧ xpch = uch then .next (ulen + 1) (plen + 3)
  else if uch = 37 ∧ pch = 37 ∧ xuch = xpch then .next (ulen + 3) (plen + 3)
  else .ret 0

/-- One turn of the loop. -/
def turn (url pat : List UInt8) (nocase : Bool) (ulen plen : Nat) : Option Turn := do
  let pch := sch (← getch pat plen)
  if pch = 0 then return .ret ulen
  let uch := sch (← getch url ulen)
  if uch = pch ∧ uch ≠ 37 then return .next (ulen + 1) (plen + 1)
  let xuch ← if uch = 37 then h2toi url (ulen + 1) else pure 0
  -- the escape of the pattern is read only if that of the URL has not matched
  let xpch ← if pch = 37 ∧ ¬(uch = 37 ∧ xuch = pch) then h2toi pat (plen + 1) else pure 0
  return compare nocase uch pch xuch xpch ulen plen

/-- The loop. Each turn raises `plen`, so a loop with more turns than the pattern has bytes reads
past its terminator. -/
def url_strstrX.loop (url pat : List UInt8) (nocase : Bool) : Nat → Nat → Nat → Option Nat
  | 0, _, _ => none
  | fuel + 1, ulen, plen =>
    match turn url pat nocase ulen plen with
    | none => none
    | some (.ret n) => some n
    | some (.next ulen' plen') => url_strstrX.loop url pat nocase fuel ulen' plen'

/-- `url_strstrX(url,pat,nocase)`. There is no result if it reads past a terminator. -/
def url_strstrX (url pat : List UInt8) (nocase : Bool) : Option Nat :=
  url_strstrX.loop url pat nocase (pat.length + 1) 0 0

/-! ## What a turn reads -/

section
variable {s t : List UInt8} {i : Nat}

/-- The text from the index on. -/
def From (s : List UInt8) (i : Nat) (t : List UInt8) : Prop := i ≤ s.length ∧ s.drop i = t

theorem From.length (h : From s i t) : s.length = i + t.length := by
  have hlen := congrArg List.length h.2
  rw [List.length_drop] at hlen
  have hle := h.1
  omega

theorem From.getch (h : From s i t) {k : Nat} (hk : k ≤ t.length) :
    urlmatch.getch s (i + k) = some (t.getD k 0) := by
  have hlen := h.length
  unfold urlmatch.getch
  rw [if_pos (by omega), ← h.2, List.getD_eq_getElem?_getD, List.getD_eq_getElem?_getD,
    List.getElem?_drop]

theorem From.append {a : List UInt8} (h : From s i (a ++ t)) : From s (i + a.length) t := by
  have hlen := h.length
  rw [List.length_append] at hlen
  refine ⟨by omega, ?_⟩
  rw [← List.drop_drop, h.2, List.drop_left]

/-- The value of two digits at the beginning of a text, as `h2toi` gives it. -/
def hexAt (t : List UInt8) : Int :=
  if ishex (t.getD 0 0) = true ∧ ishex (t.getD 1 0) = true then
    hexVal (t.getD 0 0) * 16 + hexVal (t.getD 1 0)
  else -1

theorem From.h2toi (h : From s i t) : urlmatch.h2toi s i = some (hexAt t) := by
  have hzero := h.getch (Nat.zero_le t.length)
  rw [Nat.add_zero] at hzero
  unfold urlmatch.h2toi hexAt
  rw [hzero]
  by_cases hhi : ishex (t.getD 0 0) = true
  · have hpos : 1 ≤ t.length := by
      cases t with
      | nil => cases hhi
      | cons c cs => exact Nat.succ_pos _
    have hone := h.getch hpos
    generalize t.getD 0 0 = hi at *
    generalize t.getD 1 0 = lo at *
    by_cases hlo : ishex lo = true
    · simp [hone, hhi, hlo]
    · simp [hone, hhi, hlo]
  · generalize t.getD 0 0 = hi at *
    simp [hhi]

end

theorem sch_eq_iff {a b : UInt8} : sch a = sch b ↔ a = b := by
  unfold sch
  have ha := a.toNat_lt
  have hb := b.toNat_lt
  rw [← UInt8.toNat_inj]
  split <;> split <;> rename_i hx hy <;> rw [UInt8.lt_iff_toNat_lt] at hx hy <;>
    simp at hx hy <;> omega

theorem sch_eq_percent {b : UInt8} : sch b = 37 ↔ b = 37 := sch_eq_iff (b := 37)

theorem sch_eq_zero {b : UInt8} : sch b = 0 ↔ b = 0 := sch_eq_iff (b := 0)

theorem sch_eq_neg_one {b : UInt8} : -1 = sch b ↔ b = 255 := by
  rw [eq_comm]
  exact sch_eq_iff (b := 255)

/-- The value of an escape is compared with a `char`, which is negative from 128 on. -/
theorem toNat_eq_sch {a b : UInt8} : (a.toNat : Int) = sch b ↔ a = b ∧ b < 128 := by
  unfold sch
  have ha := a.toNat_lt
  have hb := b.toNat_lt
  rw [← UInt8.toNat_inj]
  split <;> rename_i hx <;> rw [UInt8.lt_iff_toNat_lt] at hx ⊢ <;> simp at hx ⊢ <;> omega

section
variable {url pat us ps : List UInt8} {ulen plen : Nat} {c d : UInt8}

theorem turn_end (hp : From pat plen []) (nocase : Bool) :
    turn url pat nocase ulen plen = some (.ret ulen) := by
  have hread := hp.getch (Nat.zero_le _)
  rw [Nat.add_zero] at hread
  unfold turn
  rw [hread]
  rfl

/-- A turn is its comparisons. -/
theorem turn_eq (hu : From url ulen (c :: us)) (hp : From pat plen (d :: ps)) (hd : d ≠ 0) :
    turn url pat false ulen plen =
      some (compare false (sch c) (sch d) (hexAt us) (hexAt ps) ulen plen) := by
  have hreadu := hu.getch (Nat.zero_le _)
  have hreadp := hp.getch (Nat.zero_le _)
  have hxu := (From.append (a := [c]) hu).h2toi
  have hxp := (From.append (a := [d]) hp).h2toi
  rw [Nat.add_zero] at hreadu hreadp
  rw [List.length_singleton] at hxu hxp
  have hdz : sch d ≠ 0 := fun h => hd (sch_eq_zero.mp h)
  unfold turn
  simp only [hreadu, hreadp, hxu, hxp, List.getD_cons_zero, Option.bind_eq_bind, Option.bind_some,
    Option.pure_def]
  generalize sch c = uch at *
  generalize sch d = pch at *
  rw [if_neg hdz]
  unfold compare
  by_cases hup : uch = pch ∧ uch ≠ 37
  · rw [if_pos hup, if_pos hup]
  · rw [if_neg hup]
    by_cases hpch : pch = 37
    · subst hpch
      by_cases huch : uch = 37 <;> by_cases hx : hexAt us = 37 <;> simp [huch, hx]
    · by_cases huch : uch = 37 <;> simp [huch, hpch]

end

/-! ## The tokens of a turn -/

/-- What the loop reads of a token: its first character, and the value of its escape. -/
def first : Tok → UInt8
  | .raw b => b
  | .esc _ _ => 37

def value : Tok → Int
  | .raw _ => -1
  | .esc hi lo => (Tok.esc hi lo).byte.toNat

theorem esc_value {hi lo : UInt8} (hhi : ishex hi = true) (hlo : ishex lo = true) :
    ((Tok.esc hi lo).byte.toNat : Int) = hexVal hi * 16 + hexVal lo := by
  have hhi' := hexVal_lt hi hhi
  have hlo' := hexVal_lt lo hlo
  have hlt : hexVal hi * 16 + hexVal lo < 256 := by omega
  unfold Tok.byte
  rw [UInt8.toNat_ofNat_of_lt' hlt]
  push_cast
  rfl

/-- The first character of a text, and the value of the digits after a percent sign. -/
theorem head_first {cs rest : List UInt8} {t : Tok} (h : Head cs t rest) :
    ∃ cs', cs = first t :: cs' ∧ (first t = 37 → hexAt cs' = value t) := by
  cases h with
  | esc hhi hlo =>
    refine ⟨_, rfl, fun _ => ?_⟩
    exact (if_pos ⟨hhi, hlo⟩).trans (esc_value hhi hlo).symm
  | bare hno => exact ⟨_, rfl, fun _ => if_neg hno⟩
  | raw hc => exact ⟨_, rfl, fun h => absurd h hc⟩

/-- The pair of tokens that the loop is at is compared as the bytes that they stand for. The
bytes of the pattern after the pair are needed where the URL may be cut inside its escape. -/
def Fair : Tok → Tok → List UInt8 → Prop
  | .raw a, .raw b, _ => ¬(a = 37 ∧ b = 37) ∧ ¬(a = 37 ∧ b = 255) ∧ ¬(a = 255 ∧ b = 37)
  | .raw a, .esc hi lo, _ => a = (Tok.esc hi lo).byte → a < 128
  | .esc hi lo, .raw b, bs => ((Tok.esc hi lo).byte = b → b < 128) ∧ Uncut (.esc hi lo) b bs
  | .esc hi lo, .esc hi' lo', _ => (Tok.esc hi lo).byte ≠ 37 ∧ (Tok.esc hi' lo').byte ≠ 37

instance instDecidableFair : (u p : Tok) → (bs : List UInt8) → Decidable (Fair u p bs)
  | .raw _, .raw _, _ => inferInstanceAs (Decidable (_ ∧ _))
  | .raw _, .esc _ _, _ => inferInstanceAs (Decidable (_ → _))
  | .esc _ _, .raw _, _ => inferInstanceAs (Decidable (_ ∧ _))
  | .esc _ _, .esc _ _, _ => inferInstanceAs (Decidable (_ ∧ _))

theorem Fair.uncut {u p : Tok} {bs : List UInt8} (h : Fair u p bs) : Uncut u p.byte bs := by
  cases u with
  | raw a => trivial
  | esc hi lo =>
    cases p with
    | raw b => exact h.2
    | esc hi' lo' => exact fun hb => absurd hb h.2

section
variable {bs : List UInt8} {xuch xpch : Int} {ulen plen : Nat}

theorem compare_raw_raw {a b : UInt8} (h : Fair (.raw a) (.raw b) bs) (hxu : a = 37 → xuch = -1)
    (hxp : b = 37 → xpch = -1) :
    compare false (sch a) (sch b) xuch xpch ulen plen =
      if a = b then .next (ulen + 1) (plen + 1) else .ret 0 := by
  obtain ⟨hbare, hlow, hlow'⟩ := h
  have heq : (sch a = sch b ∧ sch a ≠ 37) ↔ a = b := by
    rw [sch_eq_iff, Ne, sch_eq_percent]
    exact ⟨fun hand => hand.1, fun hab => ⟨hab, fun ha => hbare ⟨ha, hab ▸ ha⟩⟩⟩
  have hu : ¬(sch a = 37 ∧ xuch = sch b) := by
    rintro ⟨ha, hx⟩
    rw [sch_eq_percent] at ha
    rw [hxu ha, sch_eq_neg_one] at hx
    exact hlow ⟨ha, hx⟩
  have hp : ¬(sch b = 37 ∧ xpch = sch a) := by
    rintro ⟨hb, hx⟩
    rw [sch_eq_percent] at hb
    rw [hxp hb, sch_eq_neg_one] at hx
    exact hlow' ⟨hx, hb⟩
  have hup : ¬(sch a = 37 ∧ sch b = 37 ∧ xuch = xpch) := by
    rintro ⟨ha, hb, -⟩
    exact hbare ⟨sch_eq_percent.mp ha, sch_eq_percent.mp hb⟩
  simp only [compare, heq, hu, hp, hup, Bool.false_eq_true, false_and, and_false, if_false]

theorem compare_raw_esc {a e : UInt8} (h : a = e → a < 128) (hxu : a = 37 → xuch = -1) :
    compare false (sch a) 37 xuch e.toNat ulen plen =
      if a = e then .next (ulen + 1) (plen + 3) else .ret 0 := by
  have heq : ¬(sch a = 37 ∧ sch a ≠ 37) := fun hand => hand.2 hand.1
  have hu : ¬(sch a = 37 ∧ xuch = 37) := by
    rintro ⟨ha, hx⟩
    rw [hxu (sch_eq_percent.mp ha)] at hx
    cases hx
  have hp : (e.toNat : Int) = sch a ↔ a = e := by
    rw [toNat_eq_sch]
    exact ⟨fun hand => hand.1.symm, fun hae => ⟨hae.symm, h hae⟩⟩
  have hup : ¬(sch a = 37 ∧ xuch = (e.toNat : Int)) := by
    rintro ⟨ha, hx⟩
    rw [hxu (sch_eq_percent.mp ha)] at hx
    omega
  simp only [compare, heq, hu, hp, hup, Bool.false_eq_true, false_and, and_false, true_and,
    if_false]

theorem compare_esc_raw {e b : UInt8} (h : e = b → b < 128) (hxp : b = 37 → xpch = -1) :
    compare false 37 (sch b) e.toNat xpch ulen plen =
      if e = b then .next (ulen + 3) (plen + 1) else .ret 0 := by
  have hu : (e.toNat : Int) = sch b ↔ e = b := by
    rw [toNat_eq_sch]
    exact ⟨fun hand => hand.1, fun heb => ⟨heb, h heb⟩⟩
  have hp : ¬(sch b = 37 ∧ xpch = 37) := by
    rintro ⟨hb, hx⟩
    rw [hxp (sch_eq_percent.mp hb)] at hx
    cases hx
  have hup : ¬(sch b = 37 ∧ (e.toNat : Int) = xpch) := by
    rintro ⟨hb, hx⟩
    rw [hxp (sch_eq_percent.mp hb)] at hx
    omega
  simp only [compare, hu, hp, hup, Bool.false_eq_true, ne_eq, not_true, false_and, and_false,
    true_and, if_false]

theorem compare_esc_esc {e f : UInt8} (he : e ≠ 37) (hf : f ≠ 37) :
    compare false 37 37 e.toNat f.toNat ulen plen =
      if e = f then .next (ulen + 3) (plen + 3) else .ret 0 := by
  have hu : ∀ {c : UInt8}, c ≠ 37 → ¬(c.toNat : Int) = 37 := by
    intro c hc hx
    exact hc (toNat_eq_sch (b := 37).mp hx).1
  have hup : (e.toNat : Int) = f.toNat ↔ e = f := by
    rw [Int.ofNat_inj, UInt8.toNat_inj]
  simp only [compare, hu he, hu hf, hup, Bool.false_eq_true, ne_eq, not_true, false_and, and_false,
    true_and, if_false]

/-- Fair tokens of one byte are both taken, and others end the loop. -/
theorem compare_fair {u p : Tok} (h : Fair u p bs) (hxu : first u = 37 → xuch = value u)
    (hxp : first p = 37 → xpch = value p) :
    compare false (sch (first u)) (sch (first p)) xuch xpch ulen plen =
      if u.byte = p.byte then .next (ulen + u.text.length) (plen + p.text.length) else .ret 0 := by
  cases u with
  | raw a =>
    cases p with
    | raw b => exact compare_raw_raw h hxu hxp
    | esc hi lo =>
      rw [hxp rfl]
      exact compare_raw_esc h hxu
  | esc hi lo =>
    rw [hxu rfl]
    cases p with
    | raw b => exact compare_esc_raw h.1 hxp
    | esc hi' lo' =>
      rw [hxp rfl]
      exact compare_esc_esc h.1 h.2

end

/-! ## The loop -/

/-- From the first tokens on, as far as their bytes agree, each pair of tokens is fair, and the URL
does not end where the pattern has an escape of a zero byte. -/
def Clean : List Tok → List Tok → Prop
  | _, [] => True
  | [], p :: _ => value p ≠ 0
  | u :: us, p :: ps => Fair u p (ps.map Tok.byte) ∧ (u.byte = p.byte → Clean us ps)

instance instDecidableClean : (us ps : List Tok) → Decidable (Clean us ps)
  | [], [] => isTrue trivial
  | _ :: _, [] => isTrue trivial
  | [], _ :: _ => inferInstanceAs (Decidable (_ ≠ _))
  | _ :: us, _ :: ps =>
    have := instDecidableClean us ps
    inferInstanceAs (Decidable (_ ∧ _))

section
variable {url pat us ps : List UInt8} {ulen plen : Nat} {u p : Tok}

/-- The URL ends before the pattern. -/
theorem turn_url_end (hu : From url ulen []) {P : List UInt8} (hp : From pat plen P)
    (hhead : Head P p ps) (hz : first p ≠ 0) (hclean : value p ≠ 0) :
    turn url pat false ulen plen = some (.ret 0) := by
  obtain ⟨cs, rfl, hval⟩ := head_first hhead
  have hreadu := hu.getch (Nat.zero_le _)
  have hreadp := hp.getch (Nat.zero_le _)
  have hxp := (From.append (a := [first p]) hp).h2toi
  rw [Nat.add_zero] at hreadu hreadp
  rw [List.length_singleton] at hxp
  have hpz : sch (first p) ≠ 0 := fun h => hz (sch_eq_zero.mp h)
  have hzero : sch 0 = 0 := rfl
  unfold turn
  simp only [hreadu, hreadp, hxp, List.getD_cons_zero, List.getD_nil, Option.bind_eq_bind,
    Option.bind_some, Option.pure_def, hzero]
  by_cases hpct : first p = 37
  · have hx : hexAt cs ≠ 0 := by rwa [hval hpct]
    have hpct' := sch_eq_percent.mpr hpct
    simp [compare, hpct', hx]
  · have hpct' : sch (first p) ≠ 37 := fun h => hpct (sch_eq_percent.mp h)
    simp [compare, hpct', hpz, hpz.symm]

/-- A turn where neither text is at its end. -/
theorem turn_heads {U P : List UInt8} (hu : From url ulen U) (hp : From pat plen P)
    (hhu : Head U u us) (hhp : Head P p ps) (hz : first p ≠ 0) {bs : List UInt8}
    (hfair : Fair u p bs) :
    turn url pat false ulen plen =
      some (if u.byte = p.byte then .next (ulen + u.text.length) (plen + p.text.length)
        else .ret 0) := by
  obtain ⟨cs, rfl, hxu⟩ := head_first hhu
  obtain ⟨ds, rfl, hxp⟩ := head_first hhp
  rw [turn_eq hu hp hz, compare_fair hfair hxu hxp]

/-- What the loop returns where it is at `ulen` of the URL. -/
def Outcome (U P : List UInt8) (ulen r : Nat) : Prop :=
  (∃ n ≤ U.length, r = ulen + n ∧ decode (U.take n) = decode P ∧ (P ≠ [] → 0 < n)) ∨
    (r = 0 ∧ ¬Begins U (decode P))

theorem Outcome.cons {U P : List UInt8} {r : Nat} (hhu : Head U u us) (hhp : Head P p ps)
    (hcut : Uncut u p.byte (decode ps)) (hbyte : u.byte = p.byte)
    (h : Outcome us ps (ulen + u.text.length) r) : Outcome U P ulen r := by
  have hlen : U.length = u.text.length + us.length := by
    rw [hhu.text_append, List.length_append]
  have hpos : 0 < u.text.length := by cases u <;> exact Nat.succ_pos _
  rcases h with ⟨n, hn, hr, hdec, -⟩ | ⟨hr, hno⟩
  · refine .inl ⟨u.text.length + n, by omega, by omega, ?_, fun _ => by omega⟩
    rw [(hhu.take (Nat.le_add_right _ _)).decode, Nat.add_sub_cancel_left, hhp.decode, hdec, hbyte]
  · refine .inr ⟨hr, ?_⟩
    rw [hhp.decode, hhu.begins_cons hcut]
    exact fun hand => hno hand.2

theorem loop_outcome (fuel : Nat) {U P : List UInt8} (hfuel : P.length < fuel)
    (hu : From url ulen U) (hp : From pat plen P) (hz : 0 ∉ P)
    (hclean : Clean (tokens U) (tokens P)) :
    ∃ r, url_strstrX.loop url pat false fuel ulen plen = some r ∧ Outcome U P ulen r := by
  induction fuel generalizing ulen plen U P with
  | zero => omega
  | succ fuel ih =>
    unfold url_strstrX.loop
    match P with
    | [] =>
      rw [turn_end hp]
      exact ⟨ulen, rfl, .inl ⟨0, Nat.zero_le _, rfl, rfl, fun h => absurd rfl h⟩⟩
    | d :: P =>
      obtain ⟨p, ps, hhp⟩ := exists_head d P
      have hfirst : first p ≠ 0 := by
        obtain ⟨cs, hcs, -⟩ := head_first hhp
        exact fun h => hz (by rw [hcs, h]; exact List.mem_cons_self)
      rw [hhp.tokens] at hclean
      match U with
      | [] =>
        rw [turn_url_end hu hp hhp hfirst hclean]
        refine ⟨0, rfl, .inr ⟨rfl, ?_⟩⟩
        rw [hhp.decode]
        exact not_begins_cons
      | c :: U =>
        obtain ⟨u, us, hhu⟩ := exists_head c U
        rw [hhu.tokens] at hclean
        obtain ⟨hfair, hrest⟩ := hclean
        have hcut : Uncut u p.byte (decode ps) := hfair.uncut
        rw [turn_heads hu hp hhu hhp hfirst hfair]
        by_cases hbyte : u.byte = p.byte
        · rw [if_pos hbyte]
          have hlen := congrArg List.length hhp.text_append
          have hpos : 0 < p.text.length := by cases p <;> exact Nat.succ_pos _
          rw [List.length_append] at hlen
          have hz' : 0 ∉ ps := by
            intro hmem
            rw [hhp.text_append] at hz
            exact hz (List.mem_append_right _ hmem)
          obtain ⟨r, hr, hout⟩ := ih (by omega) (From.append (hhu.text_append ▸ hu))
            (From.append (hhp.text_append ▸ hp)) hz' (hrest hbyte)
          exact ⟨r, hr, hout.cons hhu hhp hcut hbyte⟩
        · rw [if_neg hbyte]
          refine ⟨0, rfl, .inr ⟨rfl, ?_⟩⟩
          rw [hhp.decode, hhu.begins_cons hcut]
          exact fun hand => hbyte hand.1

end

/-- The result is the length of a prefix of the URL that denotes the bytes of the pattern, or zero
if there is none or the pattern is empty; nothing is read past a terminator. -/
def Matched (url pat : List UInt8) (result : Option Nat) : Prop :=
  ∃ n, result = some n ∧ (0 < n ↔ pat ≠ [] ∧ Begins url (decode pat)) ∧
    (0 < n → n ≤ url.length ∧ decode (url.take n) = decode pat)

/-- The matcher gives a prefix of equal bytes, unless it meets tokens that it cannot compare. -/
theorem url_strstrX_matched (url pat : List UInt8) (hz : 0 ∉ pat)
    (hclean : Clean (tokens url) (tokens pat)) : Matched url pat (url_strstrX url pat false) := by
  obtain ⟨r, hr, hout⟩ := loop_outcome (pat.length + 1) (Nat.lt_succ_self _)
    (⟨Nat.zero_le _, rfl⟩ : From url 0 url) (⟨Nat.zero_le _, rfl⟩ : From pat 0 pat) hz hclean
  refine ⟨r, hr, ?_⟩
  rcases hout with ⟨n, hn, rfl, hdec, hpos⟩ | ⟨rfl, hno⟩
  · rw [Nat.zero_add]
    refine ⟨⟨fun h => ⟨?_, n, hn, hdec⟩, fun h => hpos h.1⟩, fun _ => ⟨hn, hdec⟩⟩
    rintro rfl
    have hlen := congrArg List.length (decode_eq_nil.mp hdec)
    rw [List.length_take, List.length_nil] at hlen
    omega
  · exact ⟨⟨fun h => absurd h (Nat.lt_irrefl _), fun h => absurd h.2 hno⟩,
      fun h => absurd h (Nat.lt_irrefl _)⟩

/-- `/a%2Fb` begins with `/%61/`. -/
theorem url_strstrX_matched_slash :
    Matched [47, 97, 37, 50, 70, 98] [47, 37, 54, 49, 47]
      (url_strstrX [47, 97, 37, 50, 70, 98] [47, 37, 54, 49, 47] false) :=
  url_strstrX_matched _ _ (by decide) (by decide)

/-- `%25` does not match itself: its escape is compared with the first character of the pattern's
escape. -/
theorem url_strstrX_percent : ¬Matched [37, 50, 53] [37, 50, 53]
    (url_strstrX [37, 50, 53] [37, 50, 53] false) := by
  have hrun : url_strstrX [37, 50, 53] [37, 50, 53] false = some 0 := by rfl
  rintro ⟨n, hn, hiff, -⟩
  rw [hrun, Option.some.injEq] at hn
  subst hn
  exact absurd (hiff.mpr ⟨List.cons_ne_nil _ _, 3, Nat.le_refl _, rfl⟩) (Nat.lt_irrefl _)

end delegate.urlmatch
