-- Lines of uuencoded text: `uudec_body` decodes one line, and `uudec_main` writes as many
-- bytes of each as the line announces (rary/uu.cpp).
import Mathlib

namespace delegate.uu

/-! ## The pure model -/

def CR : UInt8 := 13

def LF : UInt8 := 10

/-- The value of a character, which is signed. -/
def schar (c : UInt8) : Int := if c < 128 then c.toNat else c.toNat - 256

/-- The characters that end a line. -/
def ends (c : UInt8) : Bool := c == 0 || c == CR || c == LF

/-- The loop of `uudec_body` for at most `n` characters: whether all of them are legal, and the
bytes that are stored. -/
def uudec_body.loop : Nat → Nat → Nat → List UInt8 → List UInt8 → Bool × List UInt8
  | 0, _, _, dst, _ => (true, dst)
  | _ + 1, _, _, dst, [] => (true, dst)
  | n + 1, cx, co, dst, sc :: sp =>
    if ends sc then (true, dst)
    else if schar sc - 32 < 0 ∨ 64 < schar sc - 32 then (false, dst)
    else
      let scb := (schar sc - 32).toNat
      match cx with
      | 0 => loop n 1 (scb <<< 2) dst sp
      | 1 => loop n 2 (scb <<< 4) (dst ++ [UInt8.ofNat (co ||| (0x03 &&& (scb >>> 4)))]) sp
      | 2 => loop n 3 (scb <<< 6) (dst ++ [UInt8.ofNat (co ||| (0x0F &&& (scb >>> 2)))]) sp
      | _ => loop n 0 co (dst ++ [UInt8.ofNat (co ||| (0x3F &&& scb))]) sp

/-- The number that the first character of a line announces. -/
def announced (src : List UInt8) : Int := schar (src.headD 0) - 32

/-- `uudec_body`: what is returned, and the bytes that are stored. -/
def uudec_body (src : List UInt8) : Int × List UInt8 :=
  let len := announced src
  if len = 64 then (0, [])
  else if len < 0 ∨ 64 < len then (-1, [])
  else
    let (legal, dst) := uudec_body.loop 64 0 0 [] src.tail
    if legal then (len, dst) else (-1, dst)

/-- `fgets` for at most `n` bytes: the line, what is left, and whether the end was met. -/
def fgets.line : Nat → List UInt8 → List UInt8 × List UInt8 × Bool
  | 0, s => ([], s, false)
  | _ + 1, [] => ([], [], true)
  | n + 1, c :: s =>
    if c = LF then ([c], s, false)
    else
      let (line, rest, eof) := fgets.line n s
      (c :: line, rest, eof)

/-- `fgets` into 64 bytes. -/
def fgets : List UInt8 → Option (List UInt8 × List UInt8 × Bool)
  | [] => none
  | s => some (fgets.line 63 s)

theorem length_line (n : Nat) (s : List UInt8) : (fgets.line n s).2.1.length ≤ s.length := by
  induction n generalizing s with
  | zero => exact le_rfl
  | succ n ih =>
    cases s with
    | nil => exact le_rfl
    | cons c s =>
      rw [fgets.line]
      split
      · exact Nat.le_succ _
      · exact Nat.le_succ_of_le (ih s)

theorem length_fgets {s line rest : List UInt8} {eof : Bool}
    (h : fgets s = some (line, rest, eof)) : rest.length < s.length := by
  cases s with
  | nil => cases h
  | cons c s =>
    have hline := Option.some.inj h
    rw [fgets.line] at hline
    split at hline
    · cases hline
      exact Nat.lt_succ_self _
    · cases hline
      exact Nat.lt_succ_of_le (length_line 62 s)

/-- `begin` with a blank. -/
def isBegin (line : List UInt8) : Bool := [98, 101, 103, 105, 110, 32].isPrefixOf line

/-- `end` -/
def isEnd (line : List UInt8) : Bool := [101, 110, 100].isPrefixOf line

/-- `uudec_main`: the lines that are decoded. `inside` is the loop between `begin` and `end`. -/
def uudec_main (inside : Bool) (stdin : List UInt8) : List (List UInt8) :=
  match _h : fgets stdin with
  | none => []
  | some (line, rest, eof) =>
    if inside then
      if isEnd line then if eof then [] else uudec_main false rest
      else line :: uudec_main true rest
    else if isBegin line then if eof then [] else uudec_main true rest
    else uudec_main false rest
termination_by stdin.length
decreasing_by all_goals exact length_fgets _h

/-- `fwrite(dst,1,len,stdout)` writes bytes of the line that was decoded, and no others. A
length of -1 is the greatest of all sizes. -/
def Decoded (r : Int × List UInt8) : Prop := 0 ≤ r.1 ∧ r.1 ≤ r.2.length

/-! ## Encoded lines -/

/-- The sextets of bytes, three by three. -/
def sextets : List UInt8 → List Nat
  | a :: b :: c :: x =>
    a.toNat / 4 :: (a.toNat % 4 * 16 + b.toNat / 16) :: (b.toNat % 16 * 4 + c.toNat / 64) ::
      c.toNat % 64 :: sextets x
  | _ => []

/-- A sextet as a character. A zero is written as a blank or as a backquote. -/
def Writes (v : Nat) (c : UInt8) : Prop := c.toNat = v + 32 ∨ v = 0 ∧ c = 96

/-- A line for `x`: its length, the sextets of `x` and of what the last group is padded with, and
the end of the line. -/
structure Line (x line : List UInt8) : Prop where
  encoded : ∃ pad chars eol, pad.length < 3 ∧ (x ++ pad).length % 3 = 0 ∧
    List.Forall₂ Writes (sextets (x ++ pad)) chars ∧ (∀ c ∈ eol.head?, ends c = true) ∧
    line = UInt8.ofNat (x.length + 32) :: (chars ++ eol)

/-- The characters of a line that are decoded. -/
def body (src : List UInt8) : List UInt8 := (src.tail.takeWhile fun c => !ends c).take 64

/-- A character of an encoded line, from the blank to the backquote. -/
def Legal (c : UInt8) : Prop := 0 ≤ schar c - 32 ∧ schar c - 32 ≤ 64

/-- The line is accepted: its characters are legal. -/
def Accepted (src : List UInt8) : Prop :=
  announced src = 64 ∨ (0 ≤ announced src ∧ announced src < 64 ∧ ∀ c ∈ body src, Legal c)

/-- The characters of the line hold the bytes that it announces. -/
def Holds (src : List UInt8) : Prop :=
  announced src = 64 ∨ announced src ≤ 3 * (body src).length / 4

/-! ## The bytes that are stored -/

section
variable {n cx co w : Nat} {dst sp : List UInt8} {sc : UInt8}

/-- One legal character. -/
theorem loop_cons (hend : ends sc = false) (hw : schar sc - 32 = w) (hle : w ≤ 64) :
    uudec_body.loop (n + 1) cx co dst (sc :: sp) =
      match cx with
      | 0 => uudec_body.loop n 1 (w <<< 2) dst sp
      | 1 => uudec_body.loop n 2 (w <<< 4)
          (dst ++ [UInt8.ofNat (co ||| (0x03 &&& (w >>> 4)))]) sp
      | 2 => uudec_body.loop n 3 (w <<< 6)
          (dst ++ [UInt8.ofNat (co ||| (0x0F &&& (w >>> 2)))]) sp
      | _ => uudec_body.loop n 0 co (dst ++ [UInt8.ofNat (co ||| (0x3F &&& w))]) sp := by
  rw [uudec_body.loop, if_neg (by rw [hend]; decide), hw, if_neg (by omega), Int.toNat_natCast]

/-- A legal character moves on to the next place of its group, and stores a byte unless it is the
first. -/
theorem loop_legal_cons (hend : ends sc = false) (hlegal : Legal sc) (hcx : cx < 4) :
    ∃ co' dst', uudec_body.loop (n + 1) cx co dst (sc :: sp) =
        uudec_body.loop n ((cx + 1) % 4) co' dst' sp ∧
      dst'.length = dst.length + if cx = 0 then 0 else 1 := by
  obtain ⟨w, hw⟩ : ∃ w : Nat, schar sc - 32 = w := ⟨_, (Int.toNat_of_nonneg hlegal.1).symm⟩
  have hstep := @loop_cons n cx co w dst sp sc hend hw (by have := hlegal.2; omega)
  rw [hstep]
  match cx, hcx with
  | 0, _ => exact ⟨_, _, rfl, rfl⟩
  | 1, _ => exact ⟨_, _, rfl, by simp⟩
  | 2, _ => exact ⟨_, _, rfl, by simp⟩
  | 3, _ => exact ⟨_, _, rfl, by simp⟩

theorem loop_illegal_cons (hend : ends sc = false) (hlegal : ¬Legal sc) :
    uudec_body.loop (n + 1) cx co dst (sc :: sp) = (false, dst) := by
  have hrange : schar sc - 32 < 0 ∨ 64 < schar sc - 32 := by
    unfold Legal at hlegal
    omega
  rw [uudec_body.loop, if_neg (by rw [hend]; decide), if_pos hrange]

theorem loop_ends (hend : ends sc = true) :
    uudec_body.loop n cx co dst (sc :: sp) = (true, dst) := by
  cases n with
  | zero => rfl
  | succ n => rw [uudec_body.loop, if_pos hend]

end

/-- The characters before the end of the line, `n` at most. -/
def upto (n : Nat) (s : List UInt8) : List UInt8 := (s.takeWhile fun c => !ends c).take n

theorem upto_ends {c : UInt8} (h : ends c = true) (n : Nat) (s : List UInt8) :
    upto n (c :: s) = [] := by
  unfold upto
  rw [List.takeWhile_cons, h]
  exact List.take_nil

theorem upto_cons {c : UInt8} (h : ends c = false) (n : Nat) (s : List UInt8) :
    upto (n + 1) (c :: s) = c :: upto n s := by
  unfold upto
  rw [List.takeWhile_cons, h]
  rfl

/-- Every group of four characters stores three bytes, and what is begun of a group stores one byte
less than its characters. -/
theorem loop_stores (n cx co : Nat) (dst s : List UInt8) (hcx : cx < 4)
    (hlegal : ∀ c ∈ upto n s, Legal c) :
    ∃ d, uudec_body.loop n cx co dst s = (true, d) ∧
      d.length + 3 * cx / 4 = dst.length + 3 * (cx + (upto n s).length) / 4 := by
  induction n generalizing cx co dst s with
  | zero => exact ⟨dst, rfl, rfl⟩
  | succ n ih =>
    cases s with
    | nil => exact ⟨dst, rfl, rfl⟩
    | cons c s =>
      cases hend : ends c with
      | true => exact ⟨dst, loop_ends hend, by rw [upto_ends hend]; rfl⟩
      | false =>
        rw [upto_cons hend] at hlegal ⊢
        obtain ⟨co', dst', hstep, hlen⟩ := @loop_legal_cons n cx co dst s c hend
          (hlegal c List.mem_cons_self) hcx
        obtain ⟨d, hrun, hcount⟩ := ih ((cx + 1) % 4) co' dst' s (Nat.mod_lt _ (by decide))
          (fun x hx => hlegal x (List.mem_cons_of_mem _ hx))
        refine ⟨d, by rw [hstep, hrun], ?_⟩
        have hplace : cx = 0 ∨ cx = 1 ∨ cx = 2 ∨ cx = 3 := by omega
        rw [List.length_cons]
        rcases hplace with rfl | rfl | rfl | rfl
        · rw [if_pos rfl] at hlen
          omega
        · rw [if_neg (by decide)] at hlen
          omega
        · rw [if_neg (by decide)] at hlen
          omega
        · rw [if_neg (by decide)] at hlen
          omega

theorem loop_rejects (n cx co : Nat) (dst s : List UInt8) (hcx : cx < 4)
    (hlegal : ¬∀ c ∈ upto n s, Legal c) : (uudec_body.loop n cx co dst s).1 = false := by
  induction n generalizing cx co dst s with
  | zero => exact absurd (by simp [upto]) hlegal
  | succ n ih =>
    cases s with
    | nil => exact absurd (by simp [upto]) hlegal
    | cons c s =>
      cases hend : ends c with
      | true =>
        rw [upto_ends hend] at hlegal
        exact absurd (by simp) hlegal
      | false =>
        rw [upto_cons hend] at hlegal
        by_cases hc : Legal c
        · obtain ⟨co', dst', hstep, -⟩ := @loop_legal_cons n cx co dst s c hend hc hcx
          rw [hstep]
          refine ih _ co' dst' s (Nat.mod_lt _ (by decide)) fun hall => hlegal ?_
          intro x hx
          rcases List.mem_cons.mp hx with rfl | hx
          · exact hc
          · exact hall x hx
        · rw [loop_illegal_cons hend hc]

/-- The four outcomes of a line. -/
theorem uudec_body_cases (src : List UInt8) :
    (announced src = 64 ∧ uudec_body src = (0, [])) ∨
      (¬Accepted src ∧ (uudec_body src).1 = -1) ∨
      (announced src ≠ 64 ∧ 0 ≤ announced src ∧ (uudec_body src).1 = announced src ∧
        (uudec_body src).2.length = 3 * (body src).length / 4 ∧ Accepted src) := by
  by_cases h64 : announced src = 64
  · left
    refine ⟨h64, ?_⟩
    unfold uudec_body
    dsimp only
    rw [if_pos h64]
  · right
    by_cases hrange : announced src < 0 ∨ 64 < announced src
    · left
      refine ⟨?_, ?_⟩
      · rintro (h | ⟨h0, hlt, -⟩)
        · exact h64 h
        · omega
      · unfold uudec_body
        dsimp only
        rw [if_neg h64, if_pos hrange]
    · by_cases hlegal : ∀ c ∈ body src, Legal c
      · right
        obtain ⟨d, hrun, hlen⟩ := loop_stores 64 0 0 [] src.tail (by decide) hlegal
        have hbody : uudec_body src = (announced src, d) := by
          unfold uudec_body
          dsimp only
          rw [if_neg h64, if_neg hrange, hrun]
          rfl
        rw [hbody]
        refine ⟨h64, by omega, rfl, ?_, .inr ⟨by omega, by omega, hlegal⟩⟩
        have hcount : (upto 64 src.tail).length = (body src).length := rfl
        rw [hcount, List.length_nil] at hlen
        dsimp only
        omega
      · left
        refine ⟨?_, ?_⟩
        · rintro (h | ⟨-, -, h⟩)
          · exact h64 h
          · exact hlegal h
        · have hrun := loop_rejects 64 0 0 [] src.tail (by decide) hlegal
          unfold uudec_body
          dsimp only
          rw [if_neg h64, if_neg hrange, if_neg (by rw [hrun]; decide)]

/-- No more is reported than is stored, if and only if the line is rejected or its characters hold
the bytes that it announces. -/
theorem reported_iff (src : List UInt8) :
    (0 ≤ (uudec_body src).1 → (uudec_body src).1 ≤ (uudec_body src).2.length) ↔
      ¬Accepted src ∨ Holds src := by
  rcases uudec_body_cases src with ⟨h64, hbody⟩ | ⟨hno, hret⟩ | ⟨h64, h0, hret, hlen, hacc⟩
  · rw [hbody]
    exact iff_of_true (fun _ => le_rfl) (.inr (.inl h64))
  · rw [hret]
    exact iff_of_true (fun h => absurd h (by decide)) (.inl hno)
  · rw [hret, hlen]
    unfold Holds
    constructor
    · intro h
      right
      right
      have hle := h h0
      push_cast at hle
      exact hle
    · rintro (hno | h | h) _
      · exact absurd hacc hno
      · exact absurd h h64
      · push_cast
        exact h

/-- Only bytes of the line are written, if and only if the line is accepted and its characters hold
the bytes that it announces. -/
theorem decoded_iff (src : List UInt8) :
    Decoded (uudec_body src) ↔ Accepted src ∧ Holds src := by
  unfold Decoded
  rcases uudec_body_cases src with ⟨h64, hbody⟩ | ⟨hno, hret⟩ | ⟨h64, h0, hret, hlen, hacc⟩
  · rw [hbody]
    exact iff_of_true ⟨le_rfl, le_rfl⟩ ⟨.inl h64, .inl h64⟩
  · rw [hret]
    exact iff_of_false (fun h => absurd h.1 (by decide)) fun h => hno h.1
  · rw [hret, hlen]
    unfold Holds
    push_cast
    constructor
    · rintro ⟨-, hle⟩
      exact ⟨hacc, .inr hle⟩
    · rintro ⟨-, h | h⟩
      · exact absurd h h64
      · exact ⟨h0, h⟩

/-! ## Encoded lines are decoded -/

/-- Bits that are put below others. -/
theorem or_below {m k : Nat} (hmk : m ≤ k) (w x : Nat) :
    (w <<< k ||| ((2 ^ m - 1) &&& x)) = w * 2 ^ k + x % 2 ^ m := by
  have hlt : x % 2 ^ m < 2 ^ k := lt_of_lt_of_le (Nat.mod_lt _ (by positivity))
    (Nat.pow_le_pow_right (by decide) hmk)
  rw [Nat.and_comm, Nat.and_two_pow_sub_one_eq_mod, ← Nat.shiftLeft_add_eq_or_of_lt hlt,
    Nat.shiftLeft_eq]

/-- What `uudec_body` reads for a sextet: a backquote is 64. -/
def Reads (v w : Nat) : Prop := w = v ∨ v = 0 ∧ w = 64

theorem reads_of_writes {v : Nat} (hv : v < 64) {c : UInt8} (h : Writes v c) :
    ends c = false ∧ ∃ w : Nat, schar c - 32 = w ∧ w ≤ 64 ∧ Reads v w := by
  have hnat : (c.toNat = v + 32 ∧ v < 64) ∨ (v = 0 ∧ c.toNat = 96) := by
    rcases h with h | ⟨h, rfl⟩
    · exact .inl ⟨h, hv⟩
    · exact .inr ⟨h, rfl⟩
  have hne : ∀ d : UInt8, d.toNat < 32 → c ≠ d := by
    rintro d hd rfl
    omega
  refine ⟨?_, c.toNat - 32, ?_, by omega, ?_⟩
  · unfold ends
    rw [beq_false_of_ne (hne 0 (by decide)), beq_false_of_ne (hne CR (by decide)),
      beq_false_of_ne (hne LF (by decide))]
    rfl
  · have hlt : c < 128 := by
      rw [UInt8.lt_iff_toNat_lt]
      change c.toNat < 128
      omega
    unfold schar
    rw [if_pos hlt]
    omega
  · unfold Reads
    omega

theorem ofNat_eq {k : Nat} {c : UInt8} (h : k % 256 = c.toNat) : UInt8.ofNat k = c := by
  apply UInt8.toNat_inj.mp
  rw [UInt8.toNat_ofNat']
  exact h

/-- A group of four characters is decoded to its three bytes. -/
theorem loop_group {a b c c0 c1 c2 c3 : UInt8} (h0 : Writes (a.toNat / 4) c0)
    (h1 : Writes (a.toNat % 4 * 16 + b.toNat / 16) c1)
    (h2 : Writes (b.toNat % 16 * 4 + c.toNat / 64) c2) (h3 : Writes (c.toNat % 64) c3)
    (n co : Nat) (dst sp : List UInt8) :
    ∃ co', uudec_body.loop (n + 4) 0 co dst (c0 :: c1 :: c2 :: c3 :: sp) =
      uudec_body.loop n 0 co' (dst ++ [a, b, c]) sp := by
  have ha := a.toNat_lt
  have hb := b.toNat_lt
  have hc := c.toNat_lt
  obtain ⟨e0, w0, hw0, hle0, hr0⟩ := reads_of_writes (by omega) h0
  obtain ⟨e1, w1, hw1, hle1, hr1⟩ := reads_of_writes (by omega) h1
  obtain ⟨e2, w2, hw2, hle2, hr2⟩ := reads_of_writes (by omega) h2
  obtain ⟨e3, w3, hw3, hle3, hr3⟩ := reads_of_writes (by omega) h3
  unfold Reads at hr0 hr1 hr2 hr3
  have first : UInt8.ofNat (w0 <<< 2 ||| (0x03 &&& (w1 >>> 4))) = a := by
    apply ofNat_eq
    have hor := @or_below 2 2 le_rfl w0 (w1 >>> 4)
    rw [Nat.shiftRight_eq_div_pow] at hor
    rw [Nat.shiftRight_eq_div_pow]
    norm_num at hor ⊢
    omega
  have second : UInt8.ofNat (w1 <<< 4 ||| (0x0F &&& (w2 >>> 2))) = b := by
    apply ofNat_eq
    have hor := @or_below 4 4 le_rfl w1 (w2 >>> 2)
    rw [Nat.shiftRight_eq_div_pow] at hor
    rw [Nat.shiftRight_eq_div_pow]
    norm_num at hor ⊢
    omega
  have third : UInt8.ofNat (w2 <<< 6 ||| (0x3F &&& w3)) = c := by
    apply ofNat_eq
    have hor := @or_below 6 6 le_rfl w2 w3
    norm_num at hor ⊢
    omega
  refine ⟨w2 <<< 6, ?_⟩
  calc uudec_body.loop (n + 4) 0 co dst (c0 :: c1 :: c2 :: c3 :: sp)
      = uudec_body.loop (n + 3) 1 (w0 <<< 2) dst (c1 :: c2 :: c3 :: sp) :=
        loop_cons e0 hw0 hle0
    _ = uudec_body.loop (n + 2) 2 (w1 <<< 4) (dst ++ [a]) (c2 :: c3 :: sp) := by
        rw [← first]
        exact loop_cons e1 hw1 hle1
    _ = uudec_body.loop (n + 1) 3 (w2 <<< 6) (dst ++ [a] ++ [b]) (c3 :: sp) := by
        rw [← second]
        exact loop_cons e2 hw2 hle2
    _ = uudec_body.loop n 0 (w2 <<< 6) (dst ++ [a] ++ [b] ++ [c]) sp := by
        rw [← third]
        exact loop_cons e3 hw3 hle3
    _ = uudec_body.loop n 0 (w2 <<< 6) (dst ++ [a, b, c]) sp := by
        rw [List.append_assoc, List.append_assoc]
        rfl

/-- The characters of bytes, three by three, are decoded to the bytes. -/
theorem loop_encoded (y : List UInt8) (hy : y.length % 3 = 0) {chars : List UInt8}
    (hchars : List.Forall₂ Writes (sextets y) chars) (n co : Nat) (dst eol : List UInt8)
    (hn : 4 * y.length ≤ 3 * n) (heol : ∀ c ∈ eol.head?, ends c = true) :
    uudec_body.loop n 0 co dst (chars ++ eol) = (true, dst ++ y) := by
  induction y using sextets.induct generalizing chars n co dst with
  | case1 a b c x ih =>
    rw [sextets] at hchars
    obtain ⟨c0, chars₁, h0, hchars₁, rfl⟩ := List.forall₂_cons_left_iff.mp hchars
    obtain ⟨c1, chars₂, h1, hchars₂, rfl⟩ := List.forall₂_cons_left_iff.mp hchars₁
    obtain ⟨c2, chars₃, h2, hchars₃, rfl⟩ := List.forall₂_cons_left_iff.mp hchars₂
    obtain ⟨c3, chars₄, h3, hchars₄, rfl⟩ := List.forall₂_cons_left_iff.mp hchars₃
    simp only [List.length_cons] at hy hn
    obtain ⟨m, rfl⟩ : ∃ m, n = m + 4 := ⟨n - 4, by omega⟩
    obtain ⟨co', hgroup⟩ := loop_group h0 h1 h2 h3 m co dst (chars₄ ++ eol)
    simp only [List.cons_append]
    rw [hgroup, ih (by omega) hchars₄ m co' _ (by omega), List.append_assoc]
    rfl
  | case2 y hno =>
    have hnil : y = [] := by
      match y, hno, hy with
      | [], _, _ => rfl
      | [_], _, hy => cases hy
      | [_, _], _, hy => cases hy
      | a :: b :: c :: x, hno, _ => exact absurd rfl (hno a b c x)
    subst hnil
    have hnone : sextets [] = [] := rfl
    rw [hnone] at hchars
    cases hchars
    rw [List.nil_append, List.append_nil]
    cases eol with
    | nil => cases n <;> rfl
    | cons c eol => exact loop_ends (heol c rfl)

/-- A line of 1 to 45 bytes is decoded to a text that begins with them, and their number is
returned. -/
theorem uudec_body_line {x line : List UInt8} (hx : 1 ≤ x.length ∧ x.length ≤ 45)
    (h : Line x line) :
    (uudec_body line).1 = x.length ∧ x <+: (uudec_body line).2 := by
  obtain ⟨pad, chars, eol, hpad, hgroups, hchars, heol, rfl⟩ := h.encoded
  have hfirst : announced (UInt8.ofNat (x.length + 32) :: (chars ++ eol)) = x.length := by
    unfold announced schar
    rw [List.headD_cons]
    have hnat : (UInt8.ofNat (x.length + 32)).toNat = x.length + 32 := by
      rw [UInt8.toNat_ofNat']
      omega
    have hlt : UInt8.ofNat (x.length + 32) < 128 := by
      rw [UInt8.lt_iff_toNat_lt, hnat]
      change x.length + 32 < 128
      omega
    rw [if_pos hlt, hnat]
    omega
  have hlen : (x ++ pad).length ≤ 45 := by
    rw [List.length_append] at hgroups ⊢
    omega
  have hrun := loop_encoded (x ++ pad) hgroups hchars 64 0 [] eol (by omega) heol
  have hbody : uudec_body (UInt8.ofNat (x.length + 32) :: (chars ++ eol)) =
      ((x.length : Int), x ++ pad) := by
    unfold uudec_body
    dsimp only
    rw [hfirst, if_neg (by omega), if_neg (by omega), List.tail_cons, hrun]
    rfl
  rw [hbody]
  exact ⟨rfl, List.prefix_append _ _⟩

/-- The line of 1 to 45 bytes is decoded; a line is not reported to hold more than is stored, if and
only if it is rejected or holds what it announces; and in a whole run only bytes that were decoded
are written, if and only if every line is accepted and holds what it announces. -/
theorem uudec_iff (src stdin : List UInt8) :
    (∀ x, 1 ≤ x.length ∧ x.length ≤ 45 → Line x src →
        (uudec_body src).1 = x.length ∧ x <+: (uudec_body src).2) ∧
      ((0 ≤ (uudec_body src).1 → (uudec_body src).1 ≤ (uudec_body src).2.length) ↔
        ¬Accepted src ∨ Holds src) ∧
      ((∀ line ∈ uudec_main false stdin, Decoded (uudec_body line)) ↔
        ∀ line ∈ uudec_main false stdin, Accepted line ∧ Holds line) := by
  refine ⟨fun x hx h => uudec_body_line hx h, reported_iff src, ?_⟩
  constructor
  · intro h line hline
    exact (decoded_iff line).mp (h line hline)
  · intro h line hline
    exact (decoded_iff line).mpr (h line hline)

/-- The line `#86)C` is that of `abc`. -/
theorem uudec_iff_abc :
    (uudec_body [35, 56, 54, 41, 67]).1 = 3 ∧
      [97, 98, 99] <+: (uudec_body [35, 56, 54, 41, 67]).2 :=
  (uudec_iff [35, 56, 54, 41, 67] []).1 [97, 98, 99] (by decide)
    ⟨[], [56, 54, 41, 67], [], by decide, by decide,
      .cons (.inl rfl) (.cons (.inl rfl) (.cons (.inl rfl) (.cons (.inl rfl) .nil))), by simp, rfl⟩

/-- The line `M` announces 45 bytes and has none. -/
theorem uudec_overreports :
    uudec_body [77, 10] = (45, []) ∧
      ¬(0 ≤ (uudec_body [77, 10]).1 →
        (uudec_body [77, 10]).1 ≤ (uudec_body [77, 10]).2.length) := by
  decide

end delegate.uu
