-- The powers of credhy.cpp: powmod32 takes them from a table of squares, which
-- may come from the cache file, and is the power modulo P.
import Delegate.Bignum
import Mathlib.Data.Nat.ModEq
import Mathlib.Data.Nat.Prime.Basic

open words

namespace delegate.credhy

/-! ## The power -/

abbrev KWIDTH : Nat := 4

abbrev Int128 := Fin KWIDTH → Word

instance neZero_KWIDTH : NeZero KWIDTH := ⟨Nat.succ_ne_zero 3⟩

/-- The exponent in an `intArray`. -/
def Int128.wide (pow : Int128) : IntArray := List.replicate (IWIDTH - KWIDTH) 0 ++ List.ofFn pow

def Int128.toNat (pow : Int128) : Nat := value (List.ofFn pow)

/-- The table of `G`, `G**2`, `G**4` and so on, up to the entry `t_maxi`. -/
structure Tbuf where
  t_maxi : Nat
  t_Tb : List IntArray

/-- The loop of `prepow32f`: the entries after `G`. -/
def prepowLoop (junk : Word) (P : IntArray) : Nat → IntArray → List IntArray
  | 0, _ => []
  | n + 1, G =>
      let (T, carry) := mul32 junk G G
      if carry ≠ 0 then []
      else mod32 T P :: prepowLoop junk P n (mod32 T P)

/-- `prepow32f`; `P` is always given. -/
def prepow32f (junk : Word) (G P : IntArray) (pow : Int128) : Tbuf :=
  let bits := IWIDTH * 32 - zerobits pow.wide
  let Tb := prepowLoop junk P (bits - 1) G
  ⟨Tb.length, G :: Tb⟩

/-- The part of the cache file for the group. -/
structure Cache where
  credhy_cache_on : Bool
  tb : Option Tbuf

def Cache.getcache (c : Cache) : Option Tbuf := if c.credhy_cache_on then c.tb else none

def Cache.putcache (c : Cache) (t : Tbuf) : Cache :=
  if c.credhy_cache_on then { c with tb := some t } else c

/-- `prepow32`; `isG` says that it is called for `DH_G` and `DH_P`. -/
def prepow32 (junk : Word) (c : Cache) (isG : Bool) (G P : IntArray) (pow : Int128) :
    Tbuf × Cache :=
  if isG then
    let Tb := prepow32f junk G P fun _ => 0xFFFFFFFF
    match c.getcache with
    | some t => if 0 < t.t_maxi then (t, c) else (Tb, c.putcache Tb)
    | none => (Tb, c.putcache Tb)
  else (prepow32f junk G P pow, c)

/-- The inner loop of `powmod32`, on `M` and `R`. Each turn takes `N` from `R`. -/
def powWhile (junk : Word) (P N T : IntArray) : Nat → IntArray × IntArray → IntArray × IntArray
  | 0, st => st
  | n + 1, (M, R) =>
      if cmp32 N R ≤ 0 then powWhile junk P N T n (mod32 (mul32 junk M T).1 P, sub32 R N)
      else (M, R)

/-- The outer loop of `powmod32`. -/
def powLoop (junk : Word) (P : IntArray) (Tb : List IntArray) :
    Nat → IntArray → IntArray × IntArray → IntArray
  | 0, _, (M, _) => M
  | i + 1, N, (M, R) =>
      powLoop junk P Tb i (shiftR32 N 1) (powWhile junk P N (Tb.getD i []) (value R) (M, R))

def one : IntArray := List.replicate (IWIDTH - 1) 0 ++ [1]

/-- `powmod32`. -/
def powmod32 (junk : Word) (c : Cache) (isG : Bool) (G P : IntArray) (pow : Int128) :
    IntArray × Cache :=
  let (Tb, c) := prepow32 junk c isG G P pow
  let M := powLoop junk P Tb.t_Tb (Tb.t_maxi + 1) (shiftL32N one Tb.t_maxi) (one, pow.wide)
  (mod32 M P, c)

theorem value_wide (pow : Int128) : value pow.wide = pow.toNat := by
  unfold Int128.wide Int128.toNat
  rw [value_append, value_replicate_zero]
  simp

theorem length_wide (pow : Int128) : pow.wide.length = IWIDTH := by
  unfold Int128.wide
  rw [List.length_append, List.length_replicate, List.length_ofFn]
  rfl

theorem toNat_int128_lt (pow : Int128) : pow.toNat < 2 ^ 128 := by
  have hlt := value_lt (List.ofFn pow)
  rwa [List.length_ofFn] at hlt

theorem value_one : value one = 1 := by
  unfold one
  rw [value_append, value_replicate_zero, value_singleton]
  rfl

/-- A cache file that only this program has written, for `G` and `P`. -/
inductive Cache.made (G P : IntArray) : Cache → Prop
  | absent (on : Bool) : made G P ⟨on, none⟩
  | zeros (on : Bool) (t : Tbuf) : t.t_maxi = 0 → made G P ⟨on, some t⟩
  | put (junk : Word) (pow : Int128) (c : Cache) :
      made G P c → made G P (prepow32 junk c true G P pow).2

/-- The table is one of powers modulo `p`, each small enough to be multiplied. -/
def Tbuf.powers (t : Tbuf) (g p : Nat) : Prop :=
  ∀ i ≤ t.t_maxi, ∃ a, t.t_Tb[i]? = some a ∧ a.length = IWIDTH ∧ value a < 2 ^ 1024 ∧
    value a ≡ g ^ 2 ^ i [MOD p]

theorem prepow32_cases (junk : Word) (c : Cache) (G P : IntArray) (pow : Int128) :
    (∃ t, c.getcache = some t ∧ 0 < t.t_maxi ∧ prepow32 junk c true G P pow = (t, c)) ∨
      prepow32 junk c true G P pow = (prepow32f junk G P fun _ => 0xFFFFFFFF,
        c.putcache (prepow32f junk G P fun _ => 0xFFFFFFFF)) := by
  unfold prepow32
  rw [if_pos rfl]
  dsimp only
  cases hget : c.getcache with
  | none => exact .inr rfl
  | some t =>
    dsimp only
    by_cases hpos : 0 < t.t_maxi
    · rw [if_pos hpos]
      exact .inl ⟨t, rfl, hpos, rfl⟩
    · rw [if_neg hpos]
      exact .inr rfl

section
variable {G P : IntArray} {p : Nat} (hP : P.length = IWIDTH) (hp : value P = p)
  (hpos : 0 < p) (hsmall : p < 2 ^ 1024)
include hP hp hpos

/-- The product of two small numbers modulo `P`. -/
theorem mulmod_spec (junk : Word) {M T : IntArray} (hM : value M < 2 ^ 1024)
    (hT : value T < 2 ^ 1024) :
    value (mod32 (mul32 junk M T).1 P) = value M * value T % p ∧
      (mod32 (mul32 junk M T).1 P).length = IWIDTH ∧
      (0 < value M * value T → (mul32 junk M T).2 = 0) := by
  have hfit : value M * value T < 2 ^ (32 * IWIDTH) := by
    have hpow : 2 ^ (32 * IWIDTH) = 2 ^ 1024 * 2 ^ 1024 := by
      rw [← pow_add]
      congr 1
    rw [hpow]
    exact Nat.mul_lt_mul'' hM hT
  obtain ⟨hval, hlen, hcarry⟩ := mul32_spec junk hfit
  obtain ⟨hmod, hmodlen⟩ := mod32_spec hlen hP (by omega)
  rw [hval, hp] at hmod
  exact ⟨hmod, hmodlen, hcarry⟩

include hsmall

/-- The square of a power in the table is the next power. -/
theorem square_spec (junk : Word) {g k : Nat} {A : IntArray} (hA : value A < 2 ^ 1024)
    (hmod : value A ≡ g ^ 2 ^ k [MOD p]) :
    (mod32 (mul32 junk A A).1 P).length = IWIDTH ∧
      value (mod32 (mul32 junk A A).1 P) < 2 ^ 1024 ∧
      value (mod32 (mul32 junk A A).1 P) ≡ g ^ 2 ^ (k + 1) [MOD p] := by
  obtain ⟨hval, hlen, -⟩ := mulmod_spec hP hp hpos junk hA hA
  refine ⟨hlen, ?_, ?_⟩
  · rw [hval]
    exact (Nat.mod_lt _ hpos).trans hsmall
  · rw [hval, pow_succ 2, pow_mul, pow_two (g ^ 2 ^ k)]
    exact (Nat.mod_modEq _ _).trans (hmod.mul hmod)

/-- The entries of the table are powers, as far as it goes: it ends early
where a square is 0 and `carry` was never set. -/
theorem prepowLoop_entries (junk : Word) {g : Nat} (n k : Nat) (A : IntArray)
    (hA : value A < 2 ^ 1024) (hmod : value A ≡ g ^ 2 ^ k [MOD p]) :
    (prepowLoop junk P n A).length ≤ n ∧
      ∀ i < (prepowLoop junk P n A).length, ∃ a, (prepowLoop junk P n A)[i]? = some a ∧
        a.length = IWIDTH ∧ value a < 2 ^ 1024 ∧ value a ≡ g ^ 2 ^ (k + 1 + i) [MOD p] := by
  induction n generalizing k A with
  | zero => exact ⟨le_refl _, fun i hi => absurd hi (Nat.not_lt_zero i)⟩
  | succ n ih =>
    obtain ⟨hlen, hlt, hsq⟩ := square_spec hP hp hpos hsmall junk hA hmod
    obtain ⟨hrest, hentries⟩ := ih (k + 1) _ hlt hsq
    unfold prepowLoop
    dsimp only
    split
    · exact ⟨Nat.zero_le _, fun i hi => absurd hi (Nat.not_lt_zero i)⟩
    · rw [List.length_cons]
      refine ⟨by omega, fun i hi => ?_⟩
      cases i with
      | zero => exact ⟨_, rfl, hlen, hlt, hsq⟩
      | succ i =>
        obtain ⟨a, ha, halen, halt, hamod⟩ := hentries i (by omega)
        refine ⟨a, ha, halen, halt, ?_⟩
        have hexp : k + 1 + (i + 1) = k + 1 + 1 + i := by omega
        rw [hexp]
        exact hamod

theorem prepow32f_powers (junk : Word) {g : Nat} (hG : G.length = IWIDTH)
    (hval : value G = g) (hgsmall : g < 2 ^ 1024) (pow : Int128) :
    (prepow32f junk G P pow).powers g p ∧
      (prepow32f junk G P pow).t_maxi ≤ IWIDTH * 32 - zerobits pow.wide - 1 := by
  obtain ⟨hlen, hentries⟩ := prepowLoop_entries hP hp hpos hsmall junk
    (IWIDTH * 32 - zerobits pow.wide - 1) 0 G (by omega) (by rw [hval, pow_zero, pow_one])
  refine ⟨fun i hi => ?_, hlen⟩
  cases i with
  | zero => exact ⟨G, rfl, hG, by omega, by rw [hval, pow_zero, pow_one]⟩
  | succ i =>
    obtain ⟨a, ha, halen, halt, hamod⟩ := hentries i hi
    refine ⟨a, ha, halen, halt, ?_⟩
    rwa [Nat.zero_add, Nat.add_comm] at hamod

/-- The inner loop takes `N` from `R` as often as it can, and multiplies `M`
by the power for `N` each time. -/
theorem powWhile_spec (junk : Word) {N T : IntArray} {i t : Nat} (hN : value N = 2 ^ i)
    (hT : value T < 2 ^ 1024) (hTmod : value T ≡ t [MOD p]) (n : Nat) {M R : IntArray}
    (hlen : N.length = R.length) (hM : value M < 2 ^ 1024) (hMlen : M.length = IWIDTH)
    (hn : value R ≤ n) :
    ∃ M' R', powWhile junk P N T n (M, R) = (M', R') ∧ value M' < 2 ^ 1024 ∧
      M'.length = IWIDTH ∧ R'.length = R.length ∧ value R' = value R % 2 ^ i ∧
      value M' ≡ value M * t ^ (value R / 2 ^ i) [MOD p] := by
  have hpow : 0 < 2 ^ i := Nat.two_pow_pos i
  induction n generalizing M R with
  | zero =>
    have hzero : value R = 0 := by omega
    refine ⟨M, R, rfl, hM, hMlen, rfl, ?_, ?_⟩
    · rw [hzero, Nat.zero_mod]
    · rw [hzero, Nat.zero_div, pow_zero, Nat.mul_one]
  | succ n ih =>
    obtain ⟨-, -, hcmp⟩ := cmp32_spec N R hlen
    unfold powWhile
    by_cases hle : 2 ^ i ≤ value R
    · have hsub := value_sub32 hlen.symm (by rw [hN]; exact hle)
      have hsublen := length_sub32 hlen.symm
      obtain ⟨hval, hvallen, -⟩ := mulmod_spec hP hp hpos junk hM hT
      have hlt : value (mod32 (mul32 junk M T).1 P) < 2 ^ 1024 := by
        rw [hval]
        exact (Nat.mod_lt _ hpos).trans hsmall
      rw [hN] at hsub
      rw [if_pos (hcmp.mpr (by rw [hN]; exact hle))]
      obtain ⟨M', R', hrun, hM', hMlen', hlen', hR', hmod⟩ :=
        @ih (mod32 (mul32 junk M T).1 P) (sub32 R N) (by rw [hsublen, hlen]) hlt hvallen (by omega)
      refine ⟨M', R', hrun, hM', hMlen', hlen'.trans hsublen, ?_, ?_⟩
      · rw [hR', hsub, ← Nat.mod_eq_sub_mod hle]
      · have hdiv : value R / 2 ^ i = value (sub32 R N) / 2 ^ i + 1 := by
          rw [hsub, Nat.div_eq_sub_div hpow hle]
        rw [hdiv, pow_succ', ← Nat.mul_assoc]
        refine hmod.trans (Nat.ModEq.mul_right _ ?_)
        rw [hval]
        exact (Nat.mod_modEq _ _).trans (Nat.ModEq.mul_left _ hTmod)
    · rw [if_neg (fun h => hle (by rw [← hN]; exact hcmp.mp h))]
      refine ⟨M, R, rfl, hM, hMlen, rfl, ?_, ?_⟩
      · rw [Nat.mod_eq_of_lt (by omega)]
      · rw [Nat.div_eq_of_lt (by omega), pow_zero, Nat.mul_one]

/-- The outer loop. Whatever `R` is before the first turn, the turn for `N`
leaves it below `N`, and it is 0 after the turn for 1. -/
theorem powLoop_spec (junk : Word) {g e : Nat} {t : Tbuf} (ht : t.powers g p) (n : Nat)
    (N M R : IntArray) (hn : n ≤ t.t_maxi + 1) (hN : n ≠ 0 → value N = 2 ^ (n - 1))
    (hlen : N.length = R.length) (hM : value M < 2 ^ 1024) (hMlen : M.length = IWIDTH)
    (hR : n = 0 → value R = 0) (hinv : value M * g ^ value R ≡ g ^ e [MOD p]) :
    value (powLoop junk P t.t_Tb n N (M, R)) ≡ g ^ e [MOD p] ∧
      (powLoop junk P t.t_Tb n N (M, R)).length = IWIDTH := by
  induction n generalizing N M R with
  | zero =>
    rw [hR rfl, pow_zero, Nat.mul_one] at hinv
    exact ⟨hinv, hMlen⟩
  | succ i ih =>
    obtain ⟨a, ha, -, hasmall, hamod⟩ := ht i (by omega)
    have hN := hN (Nat.succ_ne_zero i)
    rw [Nat.add_sub_cancel] at hN
    obtain ⟨M', R', hturn, hM', hMlen', hlen', hR', hMmod⟩ :=
      powWhile_spec hP hp hpos hsmall junk hN hasmall hamod (value R) hlen hM hMlen (le_refl _)
    unfold powLoop
    rw [List.getD_eq_getElem?_getD, ha, Option.getD_some, hturn]
    apply ih (shiftR32 N 1) M' R' (by omega) _ (by rw [length_shiftR32, hlen, hlen']) hM' hMlen'
    · rintro rfl
      rw [hR', pow_zero, Nat.mod_one]
    · have hsplit : g ^ value R = (g ^ 2 ^ i) ^ (value R / 2 ^ i) * g ^ value R' := by
        rw [hR', ← pow_mul, ← pow_add, Nat.div_add_mod]
      rw [hsplit, ← Nat.mul_assoc] at hinv
      exact (hMmod.mul_right _).trans hinv
    · intro hne
      rw [value_shiftR32 (by decide), hN, pow_one]
      obtain ⟨k, rfl⟩ := Nat.exists_eq_succ_of_ne_zero hne
      rw [Nat.succ_sub_one, pow_succ, Nat.mul_div_cancel _ (by decide)]

/-- With a table of powers `powmod32` is the power modulo `P`. -/
theorem powmod32_of_powers (junk : Word) {g : Nat} {c : Cache} {isG : Bool} (pow : Int128)
    (hpowers : (prepow32 junk c isG G P pow).1.powers g p)
    (hmaxi : (prepow32 junk c isG G P pow).1.t_maxi ≤ 127) :
    value (powmod32 junk c isG G P pow).1 = g ^ pow.toNat % p ∧
      (powmod32 junk c isG G P pow).1.length = IWIDTH := by
  unfold powmod32
  dsimp only
  generalize (prepow32 junk c isG G P pow).1 = t at *
  have honelen : one.length = IWIDTH := rfl
  have hone : value one < 2 ^ 1024 := by
    rw [value_one]
    exact one_lt_pow₀ (by decide) (by decide)
  have hN : value (shiftL32N one t.t_maxi) = 2 ^ t.t_maxi := by
    rw [value_shiftL32N honelen (by unfold IWIDTH; omega), value_one, Nat.one_mul]
    rw [value_one, Nat.one_mul]
    exact Nat.pow_lt_pow_right (by decide) (by unfold IWIDTH; omega)
  obtain ⟨hloop, hlen⟩ := powLoop_spec hP hp hpos hsmall junk hpowers (t.t_maxi + 1)
    (shiftL32N one t.t_maxi) one pow.wide (le_refl _) (fun _ => hN)
    (by rw [length_shiftL32N honelen, length_wide]) hone honelen (fun h => absurd h (by omega))
    (e := pow.toNat) (by rw [value_one, value_wide, Nat.one_mul])
  obtain ⟨hmod, hmodlen⟩ := mod32_spec hlen hP (by omega)
  rw [hmod, hp]
  exact ⟨hloop, hmodlen⟩

end

/-- An exponent has at most 128 bits. -/
theorem bits_wide_le (pow : Int128) : IWIDTH * 32 - zerobits pow.wide ≤ 128 := by
  obtain ⟨-, -, hge⟩ := zerobits_spec (length_wide pow)
  by_contra hmore
  have hge := hge (by omega)
  have hbound := toNat_int128_lt pow
  rw [value_wide] at hge
  have hpow : 2 ^ 128 ≤ 2 ^ (32 * IWIDTH - zerobits pow.wide - 1) :=
    Nat.pow_le_pow_right (by decide) (by omega)
  omega

/-! ## The table from the cache -/

section
variable {G P : IntArray} {p : Nat} (hP : P.length = IWIDTH) (hp : value P = p)
  (hone : 1 < p) (hsmall : p < 2 ^ 1024)
include hP hp hone hsmall

/-- A power of a unit is not 0, so the squares have no carry and the table is complete. -/
theorem prepowLoop_length (junk : Word) {g : Nat} (hg : Nat.Coprime g p) (n k : Nat) (A : IntArray)
    (hA : value A < 2 ^ 1024) (hmod : value A ≡ g ^ 2 ^ k [MOD p]) :
    (prepowLoop junk P n A).length = n := by
  induction n generalizing k A with
  | zero => rfl
  | succ n ih =>
    have hpos : 0 < p := by omega
    obtain ⟨-, -, hcarry⟩ := mulmod_spec hP hp hpos junk hA hA
    obtain ⟨-, hlt, hsq⟩ := square_spec hP hp hpos hsmall junk hA hmod
    have hunit : 0 < value A := by
      apply Nat.pos_of_ne_zero
      intro hzero
      rw [hzero] at hmod
      have hdvd : p ∣ g ^ 2 ^ k := (Nat.modEq_zero_iff_dvd).mp hmod.symm
      exact hone.ne' (Nat.Coprime.eq_one_of_dvd (hg.symm.pow_right _) hdvd)
    unfold prepowLoop
    dsimp only
    rw [if_neg (fun hne => hne (hcarry (Nat.mul_pos hunit hunit))), List.length_cons,
      ih (k + 1) _ hlt hsq]

/-- The table for every exponent of 128 bits. -/
theorem prepow32f_full (junk : Word) {g : Nat} (hg : Nat.Coprime g p)
    (hval : value G = g) (hgsmall : g < 2 ^ 1024) :
    (prepow32f junk G P fun _ => 0xFFFFFFFF).t_maxi = 127 := by
  have hlen := prepowLoop_length hP hp hone hsmall junk hg
    (IWIDTH * 32 - zerobits (Int128.wide fun _ => 0xFFFFFFFF) - 1) 0 G (by omega)
    (by rw [hval, pow_zero, pow_one])
  refine hlen.trans ?_
  decide +kernel

/-- What is in the cache is the table. -/
theorem made_right {g : Nat} (hg : Nat.Coprime g p) (hG : G.length = IWIDTH)
    (hval : value G = g) (hgsmall : g < 2 ^ 1024) {c : Cache} (hc : c.made G P) {t : Tbuf}
    (ht : c.getcache = some t) (hpos : 0 < t.t_maxi) : t.t_maxi = 127 ∧ t.powers g p := by
  induction hc with
  | absent on => cases on <;> simp [Cache.getcache] at ht
  | zeros on t' hzero =>
    cases on with
    | false => simp [Cache.getcache] at ht
    | true =>
      have heq : t' = t := by simpa [Cache.getcache] using ht
      rw [heq] at hzero
      omega
  | put junk pow c _ ih =>
    rcases prepow32_cases junk c G P pow with ⟨t', -, -, heq⟩ | heq
    · rw [heq] at ht
      exact ih ht
    · rw [heq] at ht
      unfold Cache.putcache at ht
      split at ht
      · rename_i hon
        have heq : (prepow32f junk G P fun _ => 0xFFFFFFFF) = t := by
          simpa [Cache.getcache, hon] using ht
        rw [← heq]
        exact ⟨prepow32f_full hP hp hone hsmall junk hg hval hgsmall,
          (prepow32f_powers hP hp (by omega) hsmall junk hG hval hgsmall _).1⟩
      · exact ih ht

theorem prepow32_spec (junk : Word) {g : Nat} (hg : Nat.Coprime g p) (hG : G.length = IWIDTH)
    (hval : value G = g) (hgsmall : g < 2 ^ 1024) {c : Cache} {isG : Bool}
    (hc : isG = true → c.made G P) (pow : Int128) :
    (prepow32 junk c isG G P pow).1.powers g p ∧
      (prepow32 junk c isG G P pow).1.t_maxi ≤ 127 := by
  have hmade : ∀ pow : Int128, (prepow32f junk G P pow).powers g p ∧
      (prepow32f junk G P pow).t_maxi ≤ 127 := by
    intro pow
    obtain ⟨hpowers, hmaxi⟩ := prepow32f_powers hP hp (by omega) hsmall junk hG hval hgsmall pow
    have hbits := bits_wide_le pow
    exact ⟨hpowers, by omega⟩
  cases isG with
  | false => exact hmade pow
  | true =>
    rcases prepow32_cases junk c G P pow with ⟨t, hget, hpos, heq⟩ | heq
    · obtain ⟨hmaxi, hpowers⟩ := made_right hP hp hone hsmall hg hG hval hgsmall (hc rfl) hget hpos
      rw [heq]
      exact ⟨hpowers, hmaxi.le⟩
    · rw [heq]
      exact hmade _

/-- `powmod32` is the power modulo `P`. -/
theorem powmod32_spec (junk : Word) {g : Nat} (hg : Nat.Coprime g p) (hG : G.length = IWIDTH)
    (hval : value G = g) (hgsmall : g < 2 ^ 1024) {c : Cache} {isG : Bool}
    (hc : isG = true → c.made G P) (pow : Int128) :
    value (powmod32 junk c isG G P pow).1 = g ^ pow.toNat % p ∧
      (powmod32 junk c isG G P pow).1.length = IWIDTH := by
  obtain ⟨hpowers, hmaxi⟩ := prepow32_spec hP hp hone hsmall junk hg hG hval hgsmall hc pow
  exact powmod32_of_powers hP hp (by omega) hsmall junk pow hpowers hmaxi

end

/-! ## Exact numbers -/

/-- A number in an array. -/
structure Holds (X : IntArray) (x : Nat) : Prop where
  length : X.length = IWIDTH
  value : value X = x

/-- What the operations on arrays do to the numbers in them. -/
structure Exact (junk : Word) : Prop where
  mul : ∀ X Y x y, Holds X x → Holds Y y → x < 2 ^ 1024 → y < 2 ^ 1024 →
    Holds (mul32 junk X Y).1 (x * y)
  mod : ∀ X Y x y, Holds X x → Holds Y y → 0 < y → Holds (mod32 X Y) (x % y)
  sub : ∀ X Y x y, Holds X x → Holds Y y →
    Holds (sub32 X Y) ((x + 2 ^ 2048 - y) % 2 ^ 2048)

theorem exact_operations (junk : Word) : Exact junk where
  mul X Y x y hX hY hx hy := by
    have hfit : value X * value Y < 2 ^ (32 * IWIDTH) := by
      have hpow : 2 ^ (32 * IWIDTH) = 2 ^ 1024 * 2 ^ 1024 := by
        rw [← pow_add]
        congr 1
      rw [hpow, hX.value, hY.value]
      exact Nat.mul_lt_mul'' hx hy
    obtain ⟨hval, hlen, -⟩ := mul32_spec junk hfit
    exact ⟨hlen, by rw [hval, hX.value, hY.value]⟩
  mod X Y x y hX hY hy := by
    obtain ⟨hval, hlen⟩ := mod32_spec hX.length hY.length (by rw [hY.value]; exact hy)
    exact ⟨hlen, by rw [hval, hX.value, hY.value]⟩
  sub X Y x y hX hY := by
    have hlen : X.length = Y.length := hX.length.trans hY.length.symm
    obtain ⟨hval, hcarry, hlenZ⟩ := subLoop_spec X Y hlen
    have hZ := value_lt (subLoop X Y).1
    have hexp : 32 * IWIDTH = 2048 := rfl
    rw [hlenZ, hX.length, hexp] at hZ
    rw [hX.length, hexp, hX.value, hY.value] at hval
    refine ⟨hlenZ.trans hX.length, ?_⟩
    change value (subLoop X Y).1 = _
    have hborrow : (subLoop X Y).2.toNat = 0 ∨ (subLoop X Y).2.toNat = 1 := by omega
    rcases hborrow with h | h
    · rw [h] at hval
      have hsplit : x + 2 ^ 2048 - y = value (subLoop X Y).1 + 2 ^ 2048 := by omega
      rw [hsplit, Nat.add_mod_right, Nat.mod_eq_of_lt hZ]
    · rw [h] at hval
      have hsplit : x + 2 ^ 2048 - y = value (subLoop X Y).1 := by omega
      rw [hsplit, Nat.mod_eq_of_lt hZ]

/-- There is no table in the cache. -/
def Cache.empty (c : Cache) : Prop := ∀ t, c.getcache = some t → t.t_maxi = 0

/-- Modular exponentiation is exact for every modulus, and so are the
operations that it rests on. -/
theorem powmod32_exact (junk : Word) (c : Cache) (isG : Bool) (G P : IntArray) (g p : Nat)
    (pow : Int128) (hG : Holds G g) (hP : Holds P p) (hg : g < p) (hsmall : p < 2 ^ 1024)
    (hc : c.empty) :
    Holds (powmod32 junk c isG G P pow).1 (g ^ pow.toNat % p) ∧ Exact junk := by
  refine ⟨?_, exact_operations junk⟩
  have hpos : 0 < p := by omega
  have hmade : ∀ pow : Int128, (prepow32f junk G P pow).powers g p ∧
      (prepow32f junk G P pow).t_maxi ≤ 127 := by
    intro pow
    obtain ⟨hpowers, hmaxi⟩ := prepow32f_powers hP.length hP.value hpos hsmall junk hG.length
      hG.value (by omega) pow
    have hbits := bits_wide_le pow
    exact ⟨hpowers, by omega⟩
  have htable : (prepow32 junk c isG G P pow).1.powers g p ∧
      (prepow32 junk c isG G P pow).1.t_maxi ≤ 127 := by
    cases isG with
    | false => exact hmade pow
    | true =>
      rcases prepow32_cases junk c G P pow with ⟨t, hget, hpos, -⟩ | heq
      · have := hc t hget
        omega
      · rw [heq]
        exact hmade _
  obtain ⟨hval, hlen⟩ := powmod32_of_powers hP.length hP.value hpos hsmall junk pow htable.1 htable.2
  exact ⟨hlen, hval⟩

/-- A number of one word. -/
def small (n : Word) : IntArray := List.replicate (IWIDTH - 1) 0 ++ [n]

theorem holds_small (n : Word) : Holds (small n) n.toNat := by
  refine ⟨rfl, ?_⟩
  unfold small
  rw [value_append, value_replicate_zero, value_singleton]
  simp

/-- A base whose square is 0 modulo 9: its table may end early. -/
theorem powmod32_exact_three :
    (Holds (small 3) 3 ∧ Holds (small 9) 9 ∧ 3 < 9 ∧ 9 < 2 ^ 1024 ∧ Cache.empty ⟨false, none⟩) ∧
      Holds (powmod32 1 ⟨false, none⟩ false (small 3) (small 9) fun _ => 5).1
        (3 ^ (Int128.toNat fun _ => 5) % 9) ∧ Exact 1 := by
  have hc : Cache.empty ⟨false, none⟩ := by
    intro t ht
    simp [Cache.getcache] at ht
  have hsmall : 9 < 2 ^ 1024 := lt_of_lt_of_le (by decide : 9 < 2 ^ 4)
    (pow_le_pow_right₀ (by decide) (by decide))
  exact ⟨⟨holds_small 3, holds_small 9, by decide, hsmall, hc⟩,
    powmod32_exact 1 ⟨false, none⟩ false (small 3) (small 9) 3 9 _ (holds_small 3) (holds_small 9)
      (by decide) hsmall hc⟩

end delegate.credhy
