-- The QZ code of the teleport line (teleport/qzcode.cpp): `QZencode` spells bytes
-- in lines that end with "=QZ", and `QZdecode` reads such a line.
import Mathlib
import Delegate.Percent

open percent (hexDig ishex)

namespace delegate.qz

/-! ## The pure model -/

abbrev Byte := UInt8

abbrev LF : Byte := 10

abbrev CR : Byte := 13

/-- The sign that starts a quotation. -/
abbrev EQ : Byte := 61

abbrev Q : Byte := 81

abbrev W : Byte := 87

abbrev Z : Byte := 90

def QZM : List Byte := [EQ, Q, Z]

/-- The bits of a code. -/
structure Code where
  BASE : Bool
  PRINT : Bool
  ZERO : Bool
  WORD : Bool
  LENG : Bool
  deriving DecidableEq

def QZ1 : Code := ⟨true, true, true, true, true⟩

def QZ2 : Code := ⟨true, true, true, true, false⟩

def QZ3 : Code := ⟨true, false, true, false, false⟩

/-- The code of a context. It is `none` until it is set. -/
abbrev Ctx := Option Code

def QZswitch (ctx : Ctx) (code : Byte) : Ctx :=
  if code = 49 then some QZ1
  else if code = 50 then some QZ2
  else if code = 51 then some QZ3
  else ctx

/-- A store at the end of what a buffer of `size` bytes holds. In a full buffer it is
`XsetVStrEnd` that stores, a zero into the last byte. -/
def setVStrPtrInc (size : Nat) (bp : List Byte) (v : Byte) : List Byte :=
  if bp.length < size then bp ++ [v] else bp.set (size - 1) 0

def puts (size : Nat) (bp vs : List Byte) : List Byte := vs.foldl (setVStrPtrInc size) bp

/-- The zeros at the head, at most `n`. -/
def zeros : Nat → List Byte → Nat
  | n + 1, c :: s => if c = 0 then zeros n s + 1 else 0
  | _, _ => 0

/-- The two digits of a byte. -/
def hh (c : Byte) : List Byte := [hexDig (c.toNat / 16), hexDig (c.toNat % 16)]

/-- One turn of `QZencode` at `ch`: the text that is stored, and the bytes that are left. -/
def turn (code : Code) (ch : Byte) (s : List Byte) : List Byte × List Byte :=
  let nch := s.headD 0
  if ch = 0 ∧ code.WORD ∧ s ≠ [] ∧ nch ≠ 0 then (EQ :: W :: hh nch, s.tail)
  else if ch = 0 ∧ code.ZERO then
    let zlen := zeros 15 (ch :: s)
    ([EQ, Z, hexDig zlen], (ch :: s).drop zlen)
  else if ch = EQ ∨ ch = 0 ∨ ch = LF ∨ ch = CR ∨ code.PRINT ∧ (ch < 0x20 ∨ 0x7F ≤ ch) then
    (EQ :: hh ch, s)
  else ([ch], s)

/-- The loop of `QZencode` for at most `n` turns. The `strcpy` of the prefix keeps a byte for the
zero after it. -/
def QZencode.loop (size : Nat) (code : Code) (pfx : List Byte) :
    Nat → List Byte → Nat → List Byte → List Byte
  | 0, _, _, bp => bp
  | _ + 1, [], _, bp => bp
  | n + 1, ch :: ibuf, olen, bp =>
    let head := if olen = 0 then pfx.take (size - bp.length - 1) else []
    let (text, rest) := turn code ch ibuf
    let bp := puts size (bp ++ head) text
    let olen := olen + head.length + text.length
    if code.LENG ∧ 120 < olen ∧ rest ≠ [] then
      loop size code pfx n rest 0 (puts size bp (QZM ++ [LF]))
    else loop size code pfx n rest olen bp

/-- `QZencode` into a buffer of `size` bytes. After the text a zero is stored, into the last
byte if the text fills the buffer. -/
def QZencode (size : Nat) (ctx : Ctx) (pfx ibuf : List Byte) : List Byte :=
  let bp := QZencode.loop size (ctx.getD QZ1) pfx ibuf.length ibuf 0 []
  let bp := puts size bp (QZM ++ [LF])
  if bp.length < size then bp else bp.set (size - 1) 0

/-- The macro is used for characters, which are signed. -/
def FROMHEX (x : Byte) : Int :=
  if 48 ≤ x ∧ x ≤ 57 then x.toNat - 48
  else (if x < 128 then (x.toNat : Int) else x.toNat - 256) - 55

def hexByte (hi lo : Byte) : Byte :=
  UInt8.ofNat (((FROMHEX hi).toNat <<< 4) ||| (FROMHEX lo).toNat)

/-- The loop of `QZdecode` for at most `n` turns, over the bytes before the mark. `mark` is what
stands after them, which the look-ahead reads too. -/
def QZdecode.loop (osize : Nat) (mark : List Byte) :
    Nat → List Byte → Ctx → List Byte → List Byte × Ctx
  | 0, _, ctx, bp => (bp, ctx)
  | _ + 1, [], ctx, bp => (bp, ctx)
  | n + 1, ch :: buf, ctx, bp =>
    let look := fun i => (buf ++ mark).getD i 0
    if ch = LF ∨ ch = CR ∨ ch = 0 then loop osize mark n buf ctx bp
    else if ch = EQ ∧ look 0 = Q then
      loop osize mark n (buf.drop 2) (QZswitch ctx (look 1)) bp
    else if ch = EQ ∧ look 0 = Z then
      loop osize mark n (buf.drop 2) ctx
        (puts osize bp (List.replicate (FROMHEX (look 1)).toNat 0))
    else if ch = EQ ∧ look 0 = W ∧ ishex (look 1) ∧ ishex (look 2) then
      loop osize mark n (buf.drop 3) ctx (puts osize bp [0, hexByte (look 1) (look 2)])
    else if ch = EQ ∧ ishex (look 0) ∧ ishex (look 1) then
      loop osize mark n (buf.drop 2) ctx (puts osize bp [hexByte (look 0) (look 1)])
    else loop osize mark n buf ctx (puts osize bp [ch])

/-- The place of the last byte that is not of a line end, from `qpmx` on downwards. -/
def lastChar (buf : List Byte) : Nat → Nat
  | 0 => 0
  | qpmx + 1 =>
    if QZM.length ≤ qpmx + 1 ∧ (buf.getD (qpmx + 1) 0 = CR ∨ buf.getD (qpmx + 1) 0 = LF) then
      lastChar buf qpmx
    else qpmx + 1

/-- `QZdecode` into a buffer of `osize` bytes: `none` for a line without the mark at its end. -/
def QZdecode (osize : Nat) (ctx : Ctx) (buf : List Byte) : Option (List Byte) × Ctx :=
  let qpmx := lastChar buf (buf.length - 1)
  if qpmx < 2 then (none, ctx)
  else
    let len := qpmx - 2
    if (buf.drop len).take 3 = QZM then
      let (bp, ctx) := QZdecode.loop osize (buf.drop len) len (buf.take len) ctx []
      (some bp, ctx)
    else (none, ctx)

/-! ## Buffers -/

variable {size : Nat}

theorem puts_nil (bp : List Byte) : puts size bp [] = bp := rfl

theorem puts_cons (bp : List Byte) (v : Byte) (vs : List Byte) :
    puts size bp (v :: vs) = puts size (setVStrPtrInc size bp v) vs := rfl

theorem length_setVStrPtrInc {bp : List Byte} (h : bp.length ≤ size) (v : Byte) :
    (setVStrPtrInc size bp v).length = min size (bp.length + 1) := by
  rw [setVStrPtrInc]
  split
  · rw [List.length_append, List.length_singleton]
    omega
  · rw [List.length_set]
    omega

/-- What is stored into a buffer fills it at most. -/
theorem length_puts {bp : List Byte} (h : bp.length ≤ size) (vs : List Byte) :
    (puts size bp vs).length = min size (bp.length + vs.length) := by
  induction vs generalizing bp with
  | nil =>
    rw [puts_nil, List.length_nil]
    omega
  | cons v vs ih =>
    have hlen := length_setVStrPtrInc h v
    rw [puts_cons, ih (by omega), hlen, List.length_cons]
    omega

/-- What there is room for is appended. -/
theorem puts_eq {bp vs : List Byte} (h : bp.length + vs.length ≤ size) :
    puts size bp vs = bp ++ vs := by
  induction vs generalizing bp with
  | nil => rw [puts_nil, List.append_nil]
  | cons v vs ih =>
    rw [List.length_cons] at h
    have hroom : bp.length < size := by omega
    have hput : setVStrPtrInc size bp v = bp ++ [v] := if_pos hroom
    rw [puts_cons, hput, ih, List.append_assoc, List.singleton_append]
    rw [List.length_append, List.length_singleton]
    omega

/-- A buffer that is not full after the stores holds them all. -/
theorem puts_of_lt {bp vs : List Byte} (h : bp.length ≤ size)
    (hlt : (puts size bp vs).length < size) : puts size bp vs = bp ++ vs := by
  rw [length_puts h] at hlt
  exact puts_eq (by omega)

/-! ## What stands for what -/

/-- A text that one turn stores, and the bytes that it stands for. -/
inductive Unit : List Byte → List Byte → Prop
  | raw {c : Byte} : c ≠ EQ → c ≠ LF → c ≠ CR → c ≠ 0 → Unit [c] [c]
  | quoted (c : Byte) : Unit (EQ :: hh c) [c]
  | zero {n : Nat} : 0 < n → n ≤ 15 → Unit [EQ, Z, hexDig n] (List.replicate n 0)
  | word (c : Byte) : Unit (EQ :: W :: hh c) [0, c]

/-- A text that several turns store. -/
inductive Spelt : List Byte → List Byte → Prop
  | nil : Spelt [] []
  | cons {u t b s : List Byte} : Unit u b → Spelt t s → Spelt (u ++ t) (b ++ s)

theorem Spelt.snoc {t s u b : List Byte} (h : Spelt t s) (hu : Unit u b) :
    Spelt (t ++ u) (s ++ b) := by
  induction h with
  | nil =>
    have hone := Spelt.cons hu Spelt.nil
    rwa [List.append_nil, List.append_nil] at hone
  | cons hu' _ ih =>
    rw [List.append_assoc, List.append_assoc]
    exact .cons hu' ih

theorem Unit.text_ne_nil {u b : List Byte} (h : Unit u b) : u ≠ [] := by
  cases h <;> exact List.cons_ne_nil _ _

theorem Unit.bytes_ne_nil {u b : List Byte} (h : Unit u b) : b ≠ [] := by
  cases h with
  | zero hpos _ =>
    intro hnil
    rw [List.replicate_eq_nil_iff] at hnil
    omega
  | _ => exact List.cons_ne_nil _ _

theorem zeros_le (n : Nat) (s : List Byte) : zeros n s ≤ n := by
  induction n generalizing s with
  | zero => exact Nat.le_refl 0
  | succ n ih =>
    cases s with
    | nil => exact Nat.zero_le _
    | cons c s =>
      rw [zeros]
      split
      · exact Nat.succ_le_succ (ih s)
      · exact Nat.zero_le _

theorem zeros_eq (n : Nat) (s : List Byte) :
    s = List.replicate (zeros n s) 0 ++ s.drop (zeros n s) := by
  induction n generalizing s with
  | zero => rfl
  | succ n ih =>
    cases s with
    | nil => rfl
    | cons c s =>
      rw [zeros]
      split
      · rename_i hc
        rw [hc, List.replicate_succ, List.drop_succ_cons, List.cons_append, ← ih s]
      · rfl

/-- A turn stores a text for the bytes it takes. -/
theorem turn_unit (code : Code) (ch : Byte) (s : List Byte) :
    ∃ b, Unit (turn code ch s).1 b ∧ ch :: s = b ++ (turn code ch s).2 := by
  rw [turn]
  split
  · rename_i hword
    obtain ⟨rfl, -, hs, -⟩ := hword
    cases s with
    | nil => exact absurd rfl hs
    | cons nch s => exact ⟨[0, nch], .word nch, rfl⟩
  · split
    · rename_i _ hzero
      have hpos : 0 < zeros 15 (ch :: s) := by
        rw [zeros, if_pos hzero.1]
        exact Nat.succ_pos _
      exact ⟨_, .zero hpos (zeros_le _ _), zeros_eq 15 (ch :: s)⟩
    · split
      · exact ⟨[ch], .quoted ch, rfl⟩
      · rename_i _ _ hraw
        refine ⟨[ch], .raw ?_ ?_ ?_ ?_, rfl⟩
        · exact fun h => hraw (.inl h)
        · exact fun h => hraw (.inr (.inr (.inl h)))
        · exact fun h => hraw (.inr (.inr (.inr (.inl h))))
        · exact fun h => hraw (.inr (.inl h))

/-! ## The decoder undoes a turn -/

section

variable {osize : Nat} {mark : List Byte}

theorem hexByte_hh (c : Byte) :
    hexByte (hexDig (c.toNat / 16)) (hexDig (c.toNat % 16)) = c := by
  revert c
  decide +kernel

/-- The digits of a byte are digits, and none of the letters that follow the sign. -/
theorem hh_digits (c : Byte) :
    ishex (hexDig (c.toNat / 16)) = true ∧ ishex (hexDig (c.toNat % 16)) = true ∧
      hexDig (c.toNat / 16) ≠ Q ∧ hexDig (c.toNat / 16) ≠ Z ∧ hexDig (c.toNat / 16) ≠ W := by
  revert c
  decide +kernel

theorem FROMHEX_hexDig {n : Nat} (h : n ≤ 15) : (FROMHEX (hexDig n)).toNat = n := by
  interval_cases n <;> decide

/-- What a turn of the encoder stores, a turn of the decoder reads. -/
theorem Unit.decoded {u b : List Byte} (h : Unit u b) (n : Nat) (t : List Byte) (ctx : Ctx)
    (bp : List Byte) :
    QZdecode.loop osize mark (n + 1) (u ++ t) ctx bp =
      QZdecode.loop osize mark n t ctx (puts osize bp b) := by
  have hsign : ¬(EQ = LF ∨ EQ = CR ∨ EQ = 0) := by decide
  cases h with
  | raw heq hlf hcr hzero => simp [QZdecode.loop, heq, hlf, hcr, hzero]
  | quoted c =>
    obtain ⟨hhi, hlo, hq, hz, hw⟩ := hh_digits c
    simp [QZdecode.loop, hh, hhi, hlo, hq, hz, hw, hexByte_hh, hsign]
  | zero _ hn =>
    have hz : Z ≠ Q := by decide
    simp [QZdecode.loop, FROMHEX_hexDig hn, hsign, hz]
  | word c =>
    obtain ⟨hhi, hlo, -, -, -⟩ := hh_digits c
    have hw : W ≠ Q ∧ W ≠ Z := by decide
    simp [QZdecode.loop, hh, hhi, hlo, hexByte_hh, hsign, hw]

/-- What the encoder stores in several turns, the decoder reads in as many. -/
theorem Spelt.decoded {t s : List Byte} (h : Spelt t s) {n : Nat} (hn : t.length ≤ n) (ctx : Ctx)
    {bp : List Byte} (hroom : bp.length + s.length ≤ osize) :
    QZdecode.loop osize mark n t ctx bp = (bp ++ s, ctx) := by
  induction h generalizing n bp with
  | nil =>
    rw [List.append_nil]
    cases n <;> rfl
  | cons hu _ ih =>
    rw [List.length_append] at hn hroom
    have hpos := List.length_pos_of_ne_nil hu.text_ne_nil
    obtain ⟨m, rfl⟩ : ∃ m, n = m + 1 := ⟨n - 1, by omega⟩
    rw [hu.decoded, puts_eq (by omega), ih (by omega) (by rw [List.length_append]; omega),
      List.append_assoc]

end

/-! ## The lines of a text -/

/-- A line: what goes before it, the text of its bytes, and the mark. -/
def lineOf (pfx t : List Byte) : List Byte := pfx ++ t ++ QZM ++ [LF]

/-- Lines that stand for bytes together. -/
inductive Lines (pfx : List Byte) : List (List Byte) → List Byte → Prop
  | last {t s : List Byte} : Spelt t s → Lines pfx [lineOf pfx t] s
  | cons {t b s : List Byte} {ls : List (List Byte)} :
      Spelt t b → Lines pfx ls s → Lines pfx (lineOf pfx t :: ls) (b ++ s)

section

variable {code : Code} {pfx : List Byte}

/-- The prefix that is put, as much of it as there is room for, stays in the buffer. -/
theorem length_head {olen : Nat} {bp head : List Byte}
    (hhead : (if olen = 0 then pfx.take (size - bp.length - 1) else []) = head)
    (h : bp.length ≤ size) : (bp ++ head).length ≤ size := by
  rw [List.length_append, ← hhead]
  split
  · rw [List.length_take]
    omega
  · exact h

/-- The loop takes nothing back. -/
theorem le_length_loop (code : Code) (pfx : List Byte) (n : Nat) (s : List Byte) (olen : Nat)
    {bp : List Byte} (h : bp.length ≤ size) :
    bp.length ≤ (QZencode.loop size code pfx n s olen bp).length ∧
      (QZencode.loop size code pfx n s olen bp).length ≤ size := by
  induction n generalizing s olen bp with
  | zero => exact ⟨Nat.le_refl _, h⟩
  | succ n ih =>
    cases s with
    | nil => exact ⟨Nat.le_refl _, h⟩
    | cons ch s =>
      rw [QZencode.loop]
      generalize hhead : (if olen = 0 then pfx.take (size - bp.length - 1) else []) = head
      have hput := length_puts (length_head hhead h) (turn code ch s).1
      have happ : (bp ++ head).length = bp.length + head.length := List.length_append
      dsimp only
      generalize puts size (bp ++ head) (turn code ch s).1 = bp' at hput ⊢
      split
      · have hmark := length_puts (show bp'.length ≤ size by omega) (QZM ++ [LF])
        obtain ⟨hle, hsize⟩ := ih (turn code ch s).2 0
          (show (puts size bp' (QZM ++ [LF])).length ≤ size by omega)
        exact ⟨by omega, hsize⟩
      · obtain ⟨hle, hsize⟩ := ih (turn code ch s).2
          (olen + head.length + (turn code ch s).1.length) (show bp'.length ≤ size by omega)
        exact ⟨by omega, hsize⟩

/-- What the buffer holds in the middle of a text: the lines before, and of the line that is
written `olen` characters. -/
inductive Written (pfx out : List Byte) : List Byte → Nat → List Byte → Prop
  | start : Written pfx out [] 0 out
  | line {t : List Byte} {olen : Nat} : olen ≠ 0 → Written pfx out t olen (out ++ pfx ++ t)

/-- A turn goes on with a line. -/
theorem Written.turn {out t u b bp : List Byte} {olen : Nat} (h : Written pfx out t olen bp)
    (hu : Unit u b) {head : List Byte}
    (hhead : (if olen = 0 then pfx.take (size - bp.length - 1) else []) = head)
    (hle : bp.length ≤ size) (hroom : (puts size (bp ++ head) u).length < size) :
    puts size (bp ++ head) u = out ++ pfx ++ (t ++ u) ∧ olen + head.length + u.length ≠ 0 := by
  have hpos := List.length_pos_of_ne_nil hu.text_ne_nil
  refine ⟨?_, by omega⟩
  have hput := length_puts (length_head hhead hle) u
  have hfits : (bp ++ head).length + u.length < size := by omega
  rw [puts_eq (Nat.le_of_lt hfits)]
  cases h with
  | start =>
    -- a prefix that is cut leaves no room for the text
    have hall : head = pfx := by
      rw [← hhead, if_pos rfl, List.take_eq_self_iff]
      rw [← hhead, if_pos rfl, List.length_append, List.length_take] at hfits
      omega
    rw [hall, List.nil_append]
  | line holen =>
    rw [if_neg holen] at hhead
    rw [← hhead, List.append_nil, List.append_assoc]

/-- The mark ends a line. -/
theorem Written.mark {out t bp : List Byte} {olen : Nat} (h : Written pfx out t olen bp)
    (holen : olen ≠ 0) (hle : bp.length ≤ size)
    (hroom : (puts size bp (QZM ++ [LF])).length < size) :
    puts size bp (QZM ++ [LF]) = out ++ lineOf pfx t := by
  rw [puts_of_lt hle hroom]
  cases h with
  | start => exact absurd rfl holen
  | line _ => simp only [lineOf, List.append_assoc]

/-- The last line of a text. -/
theorem Written.last {out t b bp : List Byte} {olen : Nat} (h : Written pfx out t olen bp)
    (ht : Spelt t b) (holen : olen ≠ 0) (hle : bp.length ≤ size)
    (hroom : (puts size bp (QZM ++ [LF])).length < size) :
    ∃ ls, Lines pfx ls (b ++ []) ∧ puts size bp (QZM ++ [LF]) = out ++ ls.flatten := by
  refine ⟨[lineOf pfx t], ?_, ?_⟩
  · rw [List.append_nil]
    exact .last ht
  · rw [List.flatten_singleton]
    exact h.mark holen hle hroom

/-- The rest of a text that is written so far is written in lines. -/
theorem loop_lines {n : Nat} {s : List Byte} (hn : s.length ≤ n) {out t b bp : List Byte}
    {olen : Nat} (hw : Written pfx out t olen bp) (ht : Spelt t b) (hne : s ≠ [] ∨ olen ≠ 0)
    (hle : bp.length ≤ size)
    (hroom : (puts size (QZencode.loop size code pfx n s olen bp) (QZM ++ [LF])).length < size) :
    ∃ ls, Lines pfx ls (b ++ s) ∧
      puts size (QZencode.loop size code pfx n s olen bp) (QZM ++ [LF]) = out ++ ls.flatten := by
  induction n generalizing s out t b bp olen with
  | zero =>
    obtain rfl := List.eq_nil_of_length_eq_zero (Nat.le_zero.mp hn)
    exact hw.last ht (hne.resolve_left fun h => h rfl) hle hroom
  | succ n ih =>
    cases s with
    | nil => exact hw.last ht (hne.resolve_left fun h => h rfl) hle hroom
    | cons ch s =>
      obtain ⟨b', hunit, hbytes⟩ := turn_unit code ch s
      have hrest : (turn code ch s).2.length ≤ n := by
        have hlen := congrArg List.length hbytes
        rw [List.length_append] at hlen
        have hpos := List.length_pos_of_ne_nil hunit.bytes_ne_nil
        omega
      rw [QZencode.loop] at hroom ⊢
      generalize hhead : (if olen = 0 then pfx.take (size - bp.length - 1) else []) = head
        at hroom ⊢
      dsimp only at hroom ⊢
      rw [hbytes, ← List.append_assoc]
      have hput := length_puts (length_head hhead hle) (turn code ch s).1
      have hturn := hw.turn hunit hhead hle
      generalize hbp : puts size (bp ++ head) (turn code ch s).1 = bp' at hput hroom hturn ⊢
      have hle' : bp'.length ≤ size := by omega
      split at hroom
      · rename_i hbreak
        rw [if_pos hbreak]
        have hmark := length_puts hle' (QZM ++ [LF])
        have hle'' : (puts size bp' (QZM ++ [LF])).length ≤ size := by omega
        have hloop := le_length_loop code pfx n (turn code ch s).2 0 hle''
        have hend := length_puts hloop.2 (QZM ++ [LF])
        obtain ⟨heq, holen⟩ := hturn (by omega)
        have hline : Written pfx out (t ++ (turn code ch s).1)
            (olen + head.length + (turn code ch s).1.length) bp' := heq ▸ .line holen
        have hfull := hline.mark holen hle' (by omega)
        rw [hfull] at hroom hle'' ⊢
        obtain ⟨ls, hls, htext⟩ := ih hrest .start .nil (.inl hbreak.2.2) hle'' hroom
        refine ⟨lineOf pfx (t ++ (turn code ch s).1) :: ls, ?_, ?_⟩
        · exact .cons (ht.snoc hunit) hls
        · rw [htext, List.flatten_cons, List.append_assoc]
      · rename_i hgo
        rw [if_neg hgo]
        have hloop := le_length_loop code pfx n (turn code ch s).2
          (olen + head.length + (turn code ch s).1.length) hle'
        have hend := length_puts hloop.2 (QZM ++ [LF])
        obtain ⟨heq, holen⟩ := hturn (by omega)
        exact ih hrest (heq ▸ .line holen) (ht.snoc hunit) (.inr holen) hle' hroom

/-- Bytes whose text the buffer has room for are encoded in lines. -/
theorem QZencode_lines {ctx : Ctx} {ibuf : List Byte} (hne : ibuf ≠ [])
    (hroom : (QZencode size ctx pfx ibuf).length < size) :
    ∃ ls, Lines pfx ls ibuf ∧ QZencode size ctx pfx ibuf = ls.flatten := by
  rw [QZencode] at hroom ⊢
  split at hroom
  · rename_i hlt
    rw [if_pos hlt]
    exact loop_lines (Nat.le_refl _) .start .nil (.inl hne) (Nat.zero_le _) hlt
  · rename_i hfull
    rw [List.length_set] at hroom
    exact absurd hroom hfull

end

/-! ## The lines are decoded -/

/-- The look for the mark passes over the end of the line. -/
theorem lastChar_line (body : List Byte) :
    lastChar (body ++ QZM ++ [LF]) ((body ++ QZM ++ [LF]).length - 1) = body.length + 2 := by
  have hlen : (body ++ QZM ++ [LF]).length - 1 = body.length + 2 + 1 := by
    simp only [List.length_append, QZM, List.length_cons, List.length_nil]
    omega
  have hend : (body ++ QZM ++ [LF]).getD (body.length + 2 + 1) 0 = LF := by
    rw [List.append_assoc, List.getD_append_right _ _ _ _ (by omega)]
    have hat : body.length + 2 + 1 - body.length = 3 := by omega
    rw [hat]
    rfl
  have hz : (body ++ QZM ++ [LF]).getD (body.length + 2) 0 = Z := by
    rw [List.append_assoc, List.getD_append_right _ _ _ _ (by omega)]
    have hat : body.length + 2 - body.length = 2 := by omega
    rw [hat]
    rfl
  have hne : ¬(Z = CR ∨ Z = LF) := by decide
  have hmin : QZM.length ≤ body.length + 2 + 1 := by
    change 3 ≤ body.length + 2 + 1
    omega
  rw [hlen, lastChar, if_pos ⟨hmin, .inr hend⟩, lastChar, hz, if_neg fun h => hne h.2]

theorem QZdecode_line (osize : Nat) (ctx : Ctx) (body : List Byte) :
    QZdecode osize ctx (body ++ QZM ++ [LF]) =
      (some (QZdecode.loop osize (QZM ++ [LF]) body.length body ctx []).1,
        (QZdecode.loop osize (QZM ++ [LF]) body.length body ctx []).2) := by
  have hmark : ¬body.length + 2 < 2 := by omega
  have hlen : body.length + 2 - 2 = body.length := by omega
  rw [QZdecode]
  dsimp only
  rw [lastChar_line, if_neg hmark, hlen, List.append_assoc, List.drop_left, List.take_left]
  exact if_pos rfl

/-- The text of bytes is decoded to these bytes. -/
theorem Spelt.QZdecode {t s : List Byte} (h : Spelt t s) {osize : Nat} (hroom : s.length ≤ osize)
    (ctx : Ctx) : QZdecode osize ctx (t ++ QZM ++ [LF]) = (some s, ctx) := by
  rw [QZdecode_line, h.decoded (Nat.le_refl _) ctx (by rwa [List.length_nil, Nat.zero_add]),
    List.nil_append]

/-- A code that is told in front of the text is switched to. -/
theorem Spelt.QZdecode_told {t s : List Byte} (h : Spelt t s) {osize : Nat}
    (hroom : s.length ≤ osize) (ctx : Ctx) (code : Byte) :
    qz.QZdecode osize ctx ([EQ, Q, code] ++ t ++ QZM ++ [LF]) = (some s, QZswitch ctx code) := by
  have htold : QZdecode.loop osize (QZM ++ [LF]) ([EQ, Q, code] ++ t).length ([EQ, Q, code] ++ t)
      ctx [] = QZdecode.loop osize (QZM ++ [LF]) (t.length + 2) t (QZswitch ctx code) [] := by
    have hsign : ¬(EQ = LF ∨ EQ = CR ∨ EQ = 0) := by decide
    simp [QZdecode.loop, hsign]
  rw [QZdecode_line, htold, h.decoded (by omega) _ (by rwa [List.length_nil, Nat.zero_add]),
    List.nil_append]

end delegate.qz
