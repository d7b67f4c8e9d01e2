-- A URL is unescaped before its characters are converted, and escaped again
-- after that (`URL_unescape` and `URL_reescape`, rary/urlesc.cpp). Reserved
-- characters change places with their escapes in between.
import Delegate.Percent

open percent

namespace delegate.urlreescape

/-! ## The two passes -/

/-- `strchr(":/@.?&=+#",ch) != 0`. The search finds the terminator too. -/
def isRESERVED (ch : UInt8) : Bool := [58, 47, 64, 46, 63, 38, 61, 43, 35, 0].contains ch

def isalnum (ch : UInt8) : Bool :=
  (48 ≤ ch && ch ≤ 57) || (65 ≤ ch && ch ≤ 90) || (97 ≤ ch && ch ≤ 122)

/-- `dec2X(sp)` where two digits stand at `sp`. -/
def dec2X (sp : List UInt8) : UInt8 := (Tok.esc (sp.getD 0 0) (sp.getD 1 0)).byte

/-- `isHEX(sp[0]) && isHEX(sp[1])` -/
def hex2 (sp : List UInt8) : Bool := ishex (sp.getD 0 0) && ishex (sp.getD 1 0)

/-- `set2B(src,sp,in2byte)`. The characters before `sp` are given from the last on. -/
def set2B (past : List UInt8) (in2byte : Bool) : Bool :=
  match past with
  | _ :: b :: c :: _ =>
    if c = 27 then
      if b = 36 then true else if b = 40 then false else in2byte
    else in2byte
  | _ => in2byte

/-- The loop of `URL_unescape`. The characters before `sp` and those before `dp` are given from the
last on. -/
def URL_unescape.loop (isform escrsvd : Bool) (past out : List UInt8) (in2byte out2byte : Bool)
    (nesc : Nat) : List UInt8 → List UInt8 × Nat
  | [] => (out.reverse, nesc)
  | ch :: sp =>
    let in2byte := set2B past in2byte
    let out2byte := set2B out out2byte
    if ch = 0 then (out.reverse, nesc)
    else if in2byte then loop isform escrsvd (ch :: past) (ch :: out) in2byte out2byte nesc sp
    else if ch = 37 ∧ hex2 sp then
      if escrsvd = true ∧ dec2X sp = 37 then
        loop isform escrsvd (ch :: past) (37 :: out) in2byte out2byte nesc sp
      else
        loop isform escrsvd ((sp.take 2).reverse ++ ch :: past) (dec2X sp :: out) in2byte out2byte
          (nesc + 1) (sp.drop 2)
    else if out2byte then loop isform escrsvd (ch :: past) (ch :: out) in2byte out2byte nesc sp
    else if escrsvd = true ∧ (ch = 37 ∨ isRESERVED ch) then
      loop isform escrsvd (ch :: past) ((enc ch).text.reverse ++ out) in2byte out2byte (nesc + 1) sp
    else if escrsvd = false ∧ ch = 43 ∧ isform = true then
      loop isform escrsvd (ch :: past) (32 :: out) in2byte out2byte (nesc + 1) sp
    else loop isform escrsvd (ch :: past) (ch :: out) in2byte out2byte nesc sp
termination_by sp => sp.length
decreasing_by
  all_goals
    simp only [List.length_cons, List.length_drop]
    omega

/-- `URL_unescape(src,dst,isform,escrsvd)`: what it leaves in `dst`, and its result. -/
def URL_unescape (src : List UInt8) (isform escrsvd : Bool) : List UInt8 × Nat :=
  URL_unescape.loop isform escrsvd [] [] false false 0 src

/-- What `URL_reescape` writes for a character that is no escape, and how many it counts. -/
def reescape1 (isform rstrsvd in2byte : Bool) (ch : UInt8) : List UInt8 × Nat :=
  if rstrsvd = false ∧ in2byte = false ∧ isRESERVED ch then ([ch], 0)
  else if isalnum ch ∨ ch = 95 ∨ ch = 45 then ([ch], 0)
  else if rstrsvd = false ∧ in2byte = false ∧ ch = 32 ∧ isform = true then ([43], 1)
  else ((enc ch).text, 1)

/-- The loop of `URL_reescape`. -/
def URL_reescape.loop (isform rstrsvd : Bool) (past out : List UInt8) (in2byte : Bool) (nesc : Nat) :
    List UInt8 → List UInt8 × Nat
  | [] => (out.reverse, nesc)
  | ch :: sp =>
    let in2byte := set2B past in2byte
    let one := reescape1 isform rstrsvd in2byte ch
    if ch = 0 then (out.reverse, nesc)
    else if in2byte = false ∧ rstrsvd = true ∧ ch = 37 ∧ hex2 sp ∧ isRESERVED (dec2X sp) then
      loop isform rstrsvd ((sp.take 2).reverse ++ ch :: past) (dec2X sp :: out) in2byte nesc
        (sp.drop 2)
    else if in2byte = false ∧ rstrsvd = true ∧ ch = 37 ∧ hex2 sp ∧ dec2X sp = 37 then
      loop isform rstrsvd (ch :: past) (ch :: out) in2byte nesc sp
    else
      loop isform rstrsvd (ch :: past) (one.1.reverse ++ out) in2byte (nesc + one.2) sp
termination_by sp => sp.length
decreasing_by
  all_goals
    simp only [List.length_cons, List.length_drop]
    omega

/-- `URL_reescape(src,dst,isform,rstrsvd)` -/
def URL_reescape (src : List UInt8) (isform rstrsvd : Bool) : List UInt8 × Nat :=
  URL_reescape.loop isform rstrsvd [] [] false 0 src

/-! ## One token -/

/-- The token between the two passes. -/
def mid : Tok → Tok
  | .raw b => if b = 37 ∨ isRESERVED b then enc b else .raw b
  | .esc hi lo => if (Tok.esc hi lo).byte = 37 then .esc hi lo else .raw (Tok.esc hi lo).byte

/-- The token after the second pass, of a token between the passes. -/
def fin : Tok → Tok
  | .raw b => if isalnum b ∨ b = 95 ∨ b = 45 then .raw b else enc b
  | .esc hi lo => if isRESERVED (Tok.esc hi lo).byte then .raw (Tok.esc hi lo).byte else .esc hi lo

def isRaw : Tok → Bool
  | .raw _ => true
  | .esc _ _ => false

theorem mid_byte (t : Tok) : (mid t).byte = t.byte := by
  cases t with
  | raw b =>
    rw [mid]
    split
    · exact enc_byte b
    · rfl
  | esc hi lo =>
    rw [mid]
    split
    · rfl
    · rfl

theorem fin_byte (t : Tok) : (fin t).byte = t.byte := by
  cases t with
  | raw b =>
    rw [fin]
    split
    · rfl
    · exact enc_byte b
  | esc hi lo =>
    rw [fin]
    split
    · rfl
    · rfl

theorem not_alnum_of_reserved (b : UInt8) :
    isRESERVED b = true → ¬(isalnum b = true ∨ b = 95 ∨ b = 45) := by
  revert b
  decide +kernel

/-- A reserved character is raw in the end if it was raw in the beginning. -/
theorem isRaw_fin_mid (t : Tok) (h : isRESERVED t.byte = true) : isRaw (fin (mid t)) = isRaw t := by
  cases t with
  | raw b =>
    change isRESERVED b = true at h
    have henc : mid (.raw b) = enc b := if_pos (.inr h)
    have hfin : fin (enc b) = .raw (enc b).byte := if_pos (by rw [← h]; exact congrArg _ (enc_byte b))
    rw [henc, hfin]
    rfl
  | esc hi lo =>
    have hne : (Tok.esc hi lo).byte ≠ 37 := by
      intro heq
      rw [heq] at h
      cases h
    have hmid : mid (.esc hi lo) = .raw (Tok.esc hi lo).byte := if_neg hne
    have hfin : fin (.raw (Tok.esc hi lo).byte) = enc (Tok.esc hi lo).byte :=
      if_neg (not_alnum_of_reserved _ h)
    rw [hmid, hfin]
    rfl

/-- A token of a text: the digits of its escape are digits. -/
def Digits : Tok → Prop
  | .raw _ => True
  | .esc hi lo => ishex hi = true ∧ ishex lo = true

theorem Head.digits {cs rest : List UInt8} {t : Tok} (h : Head cs t rest) : Digits t := by
  cases h with
  | esc hhi hlo => exact ⟨hhi, hlo⟩
  | bare hno => trivial
  | raw hc => trivial

theorem mid_wf {t : Tok} (h : Digits t) : (mid t).Wf := by
  cases t with
  | raw b =>
    rw [mid]
    split
    · exact enc_wf b
    · rename_i hno
      exact fun hb => hno (.inl hb)
  | esc hi lo =>
    rw [mid]
    split
    · exact h
    · rename_i hno
      exact hno

theorem Wf.digits {t : Tok} (h : t.Wf) : Digits t := by
  cases t with
  | raw b => trivial
  | esc hi lo => exact h

theorem fin_wf {t : Tok} (h : t.Wf) : (fin t).Wf := by
  cases t with
  | raw b =>
    rw [fin]
    split
    · exact h
    · exact enc_wf b
  | esc hi lo =>
    rw [fin]
    split
    · rename_i hres
      intro hb
      rw [hb] at hres
      cases hres
    · exact h

/-! ## No escape sequence -/

/-- Without the ESC character the text never turns to two bytes a character. -/
theorem set2B_false {past : List UInt8} (h : 27 ∉ past) : set2B past false = false := by
  unfold set2B
  split
  · rename_i a b c past
    rw [if_neg]
    rintro rfl
    exact h (by simp)
  · rfl

theorem text_no_esc {t : Tok} (hd : Digits t) (h : t.byte ≠ 27) : 27 ∉ t.text := by
  cases t with
  | raw b => simpa [Tok.text, Tok.byte] using h.symm
  | esc hi lo =>
    have hhi : hi ≠ 27 := by
      rintro rfl
      cases hd.1
    have hlo : lo ≠ 27 := by
      rintro rfl
      cases hd.2
    simp [Tok.text, hhi.symm, hlo.symm]

/-! ## The first pass -/

section
variable (isform : Bool) (nesc : Nat) {past out sp rest : List UInt8} {ch : UInt8} {t : Tok}

theorem unescape_raw (hpast : 27 ∉ past) (hout : 27 ∉ out) (hz : ch ≠ 0)
    (hraw : ¬(ch = 37 ∧ hex2 sp = true)) :
    ∃ n, URL_unescape.loop isform true past out false false nesc (ch :: sp) =
      URL_unescape.loop isform true (ch :: past) ((mid (.raw ch)).text.reverse ++ out) false false n
        sp := by
  rw [URL_unescape.loop]
  simp only [set2B_false hpast, set2B_false hout, Bool.false_eq_true, if_false, if_neg hz,
    if_neg hraw, true_and]
  by_cases hres : ch = 37 ∨ isRESERVED ch = true
  · have hmid : mid (.raw ch) = enc ch := if_pos hres
    exact ⟨nesc + 1, by rw [if_pos hres, hmid]⟩
  · have hmid : mid (.raw ch) = .raw ch := if_neg hres
    exact ⟨nesc, by rw [if_neg hres, hmid]; rfl⟩

theorem digit_plain (c : UInt8) : ishex c = true → ¬(c = 37 ∨ isRESERVED c = true) ∧
    (isalnum c = true ∨ c = 95 ∨ c = 45) := by
  revert c
  decide +kernel

theorem unescape_digit (hpast : 27 ∉ past) (hout : 27 ∉ out) (hch : ishex ch = true) :
    ∃ n, URL_unescape.loop isform true past out false false nesc (ch :: sp) =
      URL_unescape.loop isform true (ch :: past) (ch :: out) false false n sp := by
  have hmid : mid (.raw ch) = .raw ch := if_neg (digit_plain ch hch).1
  obtain ⟨hz, hpct⟩ := ishex_ne ch hch
  obtain ⟨n, hn⟩ := unescape_raw isform nesc hpast hout hz fun hand => hpct hand.1
  rw [hmid] at hn
  exact ⟨n, hn⟩

/-- An escape of the percent sign goes through, character by character. -/
theorem unescape_percent (hpast : 27 ∉ past) (hout : 27 ∉ out) {hi lo : UInt8}
    (hd : Digits (.esc hi lo)) (hbyte : (Tok.esc hi lo).byte = 37) :
    ∃ n, URL_unescape.loop isform true past out false false nesc (37 :: hi :: lo :: sp) =
      URL_unescape.loop isform true (lo :: hi :: 37 :: past) (lo :: hi :: 37 :: out) false false n
        sp := by
  obtain ⟨hhi, hlo⟩ := hd
  have hne : hi ≠ 27 := by
    rintro rfl
    cases hhi
  have hstep : URL_unescape.loop isform true past out false false nesc (37 :: hi :: lo :: sp) =
      URL_unescape.loop isform true (37 :: past) (37 :: out) false false nesc (hi :: lo :: sp) := by
    have hhex : hex2 (hi :: lo :: sp) = true := by simp [hex2, hhi, hlo]
    have hdec : dec2X (hi :: lo :: sp) = 37 := hbyte
    rw [URL_unescape.loop]
    simp [set2B_false hpast, set2B_false hout, hhex, hdec]
  have hpast1 : 27 ∉ (37 : UInt8) :: past := by simp [hpast]
  have hout1 : 27 ∉ (37 : UInt8) :: out := by simp [hout]
  have hpast2 : 27 ∉ hi :: 37 :: past := by simp [hpast, hne.symm]
  have hout2 : 27 ∉ hi :: 37 :: out := by simp [hout, hne.symm]
  obtain ⟨n1, h1⟩ := unescape_digit isform nesc hpast1 hout1 hhi
  obtain ⟨n2, h2⟩ := unescape_digit isform n1 hpast2 hout2 hlo
  exact ⟨n2, by rw [hstep, h1, h2]⟩

/-- The first pass takes a token. -/
theorem unescape_head {cs : List UInt8} (h : Head cs t rest) (hpast : 27 ∉ past) (hout : 27 ∉ out)
    (hz : t.byte ≠ 0) :
    ∃ n, URL_unescape.loop isform true past out false false nesc cs =
      URL_unescape.loop isform true (t.text.reverse ++ past) ((mid t).text.reverse ++ out) false
        false n rest := by
  cases h with
  | @esc hi lo _ hhi hlo =>
    by_cases hbyte : (Tok.esc hi lo).byte = 37
    · have hmid : mid (.esc hi lo) = .esc hi lo := if_pos hbyte
      rw [hmid]
      exact unescape_percent isform nesc hpast hout ⟨hhi, hlo⟩ hbyte
    · have hmid : mid (.esc hi lo) = .raw (Tok.esc hi lo).byte := if_neg hbyte
      have hhex : hex2 (hi :: lo :: rest) = true := by simp [hex2, hhi, hlo]
      have hdec : dec2X (hi :: lo :: rest) = (Tok.esc hi lo).byte := rfl
      refine ⟨nesc + 1, ?_⟩
      rw [hmid, URL_unescape.loop]
      simp [set2B_false hpast, set2B_false hout, hhex, hdec, hbyte, Tok.text]
  | bare hno =>
    apply unescape_raw isform nesc hpast hout (by decide)
    rintro ⟨-, hhex⟩
    apply hno
    simpa [hex2] using hhex
  | raw hc => exact unescape_raw isform nesc hpast hout hz fun hand => hc hand.1

theorem unescape_loop {cs : List UInt8} (hpast : 27 ∉ past) (hout : 27 ∉ out)
    (h : ∀ t ∈ tokens cs, t.byte ≠ 27 ∧ t.byte ≠ 0) :
    (URL_unescape.loop isform true past out false false nesc cs).1 =
      out.reverse ++ ((tokens cs).map mid).flatMap Tok.text := by
  induction hn : cs.length using Nat.strong_induction_on generalizing cs past out nesc with
  | _ n ih =>
    cases cs with
    | nil => rw [URL_unescape.loop]; simp [tokens]
    | cons c cs =>
      obtain ⟨t, rest, hhead⟩ := exists_head c cs
      rw [hhead.tokens] at h ⊢
      obtain ⟨hesc, hz⟩ := h t List.mem_cons_self
      have hd := Head.digits hhead
      have hlt : rest.length < n := by
        rw [← hn, hhead.text_append, List.length_append]
        cases t <;> simp [Tok.text]
      obtain ⟨m, hm⟩ := unescape_head isform nesc hhead hpast hout hz
      rw [hm, ih rest.length hlt _ _ _ (fun t' ht' => h t' (List.mem_cons_of_mem _ ht')) rfl]
      · simp
      · simpa [hpast] using text_no_esc hd hesc
      · simpa [hout] using text_no_esc (Wf.digits (mid_wf hd)) (by rwa [mid_byte])

/-! ## The second pass -/

/-- The tokens between the passes: an escape is of a reserved character or of the percent sign. -/
def Mid : Tok → Prop
  | .raw b => b ≠ 37
  | .esc hi lo => Digits (.esc hi lo) ∧
      (isRESERVED (Tok.esc hi lo).byte = true ∨ (Tok.esc hi lo).byte = 37)

theorem mid_mid (h : Digits t) : Mid (mid t) := by
  cases t with
  | raw b =>
    rw [mid]
    split
    · rename_i hb
      refine ⟨enc_wf b, ?_⟩
      have henc : (Tok.esc (hexDig (b.toNat / 16)) (hexDig (b.toNat % 16))).byte = b := enc_byte b
      rw [henc]
      exact hb.symm
    · rename_i hb
      exact fun heq => hb (.inl heq)
  | esc hi lo =>
    rw [mid]
    split
    · rename_i hb
      exact ⟨h, .inr hb⟩
    · rename_i hb
      exact hb

theorem reescape_raw (hpast : 27 ∉ past) (hz : ch ≠ 0) (hch : ch ≠ 37) :
    ∃ n, URL_reescape.loop isform true past out false nesc (ch :: sp) =
      URL_reescape.loop isform true (ch :: past) ((fin (.raw ch)).text.reverse ++ out) false n
        sp := by
  have hone : (reescape1 isform true false ch).1 = (fin (.raw ch)).text := by
    unfold reescape1
    rw [fin, if_neg (fun hand => absurd hand.1 (by decide))]
    split
    · rfl
    · rw [if_neg (fun hand => absurd hand.1 (by decide))]
  refine ⟨nesc + (reescape1 isform true false ch).2, ?_⟩
  rw [URL_reescape.loop]
  simp [set2B_false hpast, hz, hch, hone]

theorem reescape_digit (hpast : 27 ∉ past) (hch : ishex ch = true) :
    ∃ n, URL_reescape.loop isform true past out false nesc (ch :: sp) =
      URL_reescape.loop isform true (ch :: past) (ch :: out) false n sp := by
  have hfin : fin (.raw ch) = .raw ch := if_pos (digit_plain ch hch).2
  obtain ⟨hz, hpct⟩ := ishex_ne ch hch
  obtain ⟨n, hn⟩ := reescape_raw isform nesc hpast hz hpct
  rw [hfin] at hn
  exact ⟨n, hn⟩

theorem reescape_percent (hpast : 27 ∉ past) {hi lo : UInt8} (hd : Digits (.esc hi lo))
    (hbyte : (Tok.esc hi lo).byte = 37) :
    ∃ n, URL_reescape.loop isform true past out false nesc (37 :: hi :: lo :: sp) =
      URL_reescape.loop isform true (lo :: hi :: 37 :: past) (lo :: hi :: 37 :: out) false n sp := by
  obtain ⟨hhi, hlo⟩ := hd
  have hne : hi ≠ 27 := by
    rintro rfl
    cases hhi
  have hstep : URL_reescape.loop isform true past out false nesc (37 :: hi :: lo :: sp) =
      URL_reescape.loop isform true (37 :: past) (37 :: out) false nesc (hi :: lo :: sp) := by
    have hhex : hex2 (hi :: lo :: sp) = true := by simp [hex2, hhi, hlo]
    have hdec : dec2X (hi :: lo :: sp) = 37 := hbyte
    have hres : isRESERVED 37 = false := rfl
    rw [URL_reescape.loop]
    simp [set2B_false hpast, hhex, hdec, hres]
  have hpast1 : 27 ∉ (37 : UInt8) :: past := by simp [hpast]
  have hpast2 : 27 ∉ hi :: 37 :: past := by simp [hpast, hne.symm]
  obtain ⟨n1, h1⟩ := reescape_digit isform nesc hpast1 hhi
  obtain ⟨n2, h2⟩ := reescape_digit isform n1 hpast2 hlo
  exact ⟨n2, by rw [hstep, h1, h2]⟩

/-- The second pass takes a token. -/
theorem reescape_text (h : Mid t) (hpast : 27 ∉ past) (hz : t.byte ≠ 0) :
    ∃ n, URL_reescape.loop isform true past out false nesc (t.text ++ rest) =
      URL_reescape.loop isform true (t.text.reverse ++ past) ((fin t).text.reverse ++ out) false n
        rest := by
  cases t with
  | raw b => exact reescape_raw isform nesc hpast hz h
  | esc hi lo =>
    obtain ⟨⟨hhi, hlo⟩, hbyte⟩ := h
    by_cases hres : isRESERVED (Tok.esc hi lo).byte = true
    · have hfin : fin (.esc hi lo) = .raw (Tok.esc hi lo).byte := if_pos hres
      have hhex : hex2 (hi :: lo :: rest) = true := by simp [hex2, hhi, hlo]
      have hdec : dec2X (hi :: lo :: rest) = (Tok.esc hi lo).byte := rfl
      refine ⟨nesc, ?_⟩
      rw [hfin]
      change URL_reescape.loop isform true past out false nesc (37 :: hi :: lo :: rest) = _
      rw [URL_reescape.loop]
      simp [set2B_false hpast, hhex, hdec, hres, Tok.text]
    · have hfin : fin (.esc hi lo) = .esc hi lo := if_neg hres
      rw [hfin]
      exact reescape_percent isform nesc hpast ⟨hhi, hlo⟩ (hbyte.resolve_left hres)

theorem reescape_loop {ts : List Tok} (hpast : 27 ∉ past)
    (h : ∀ t ∈ ts, Mid t ∧ t.byte ≠ 27 ∧ t.byte ≠ 0) :
    (URL_reescape.loop isform true past out false nesc (ts.flatMap Tok.text)).1 =
      out.reverse ++ (ts.map fin).flatMap Tok.text := by
  induction ts generalizing past out nesc with
  | nil =>
    rw [List.flatMap_nil, URL_reescape.loop]
    simp
  | cons t ts ih =>
    obtain ⟨hmid, hesc, hz⟩ := h t List.mem_cons_self
    have hd : Digits t := by
      cases t with
      | raw b => trivial
      | esc hi lo => exact hmid.1
    obtain ⟨n, hn⟩ := reescape_text isform nesc hmid hpast hz
    rw [List.flatMap_cons, hn, ih _ _ (fun t' ht' => h t' (List.mem_cons_of_mem _ ht'))]
    · simp
    · simpa [hpast] using text_no_esc hd hesc

end

/-! ## Both passes -/

theorem digits_of_mem {u : List UInt8} {t : Tok} (h : t ∈ tokens u) : Digits t := by
  induction hn : u.length using Nat.strong_induction_on generalizing u with
  | _ n ih =>
    cases u with
    | nil => cases h
    | cons c cs =>
      obtain ⟨t', rest, hhead⟩ := exists_head c cs
      have hlt : rest.length < n := by
        rw [← hn, hhead.text_append, List.length_append]
        cases t' <;> simp [Tok.text]
      rw [hhead.tokens, List.mem_cons] at h
      rcases h with rfl | h
      · exact Head.digits hhead
      · exact ih rest.length hlt h rfl

/-- The tokens of a URL that went through both passes. -/
theorem tokens_reescape (u : List UInt8) (h : ∀ t ∈ tokens u, t.byte ≠ 27 ∧ t.byte ≠ 0) :
    tokens (URL_reescape (URL_unescape u false true).1 false true).1 =
      (tokens u).map fun t => fin (mid t) := by
  have hnil : (27 : UInt8) ∉ ([] : List UInt8) := List.not_mem_nil
  have hmids : ∀ t ∈ (tokens u).map mid, Mid t ∧ t.byte ≠ 27 ∧ t.byte ≠ 0 := by
    intro t ht
    obtain ⟨t', ht', rfl⟩ := List.mem_map.mp ht
    rw [mid_byte]
    exact ⟨mid_mid (digits_of_mem ht'), h t' ht'⟩
  have hwf : ∀ t ∈ ((tokens u).map mid).map fin, t.Wf := by
    intro t ht
    rw [List.map_map] at ht
    obtain ⟨t', ht', rfl⟩ := List.mem_map.mp ht
    exact fin_wf (mid_wf (digits_of_mem ht'))
  unfold URL_unescape URL_reescape
  rw [unescape_loop false 0 hnil hnil h, List.reverse_nil, List.nil_append,
    reescape_loop false 0 hnil hmids, List.reverse_nil, List.nil_append, tokens_flatMap hwf,
    List.map_map]
  rfl

/-- A URL that is unescaped and escaped again means the same: it has the same bytes, and its
reserved characters are raw where they were. -/
theorem reescape_unescape (u : List UInt8) (h : ∀ t ∈ tokens u, t.byte ≠ 27 ∧ t.byte ≠ 0) :
    List.Forall₂ (fun t t' => t'.byte = t.byte ∧ (isRESERVED t.byte = true → isRaw t' = isRaw t))
      (tokens u) (tokens (URL_reescape (URL_unescape u false true).1 false true).1) := by
  rw [tokens_reescape u h, List.forall₂_map_right_iff, List.forall₂_same]
  intro t ht
  exact ⟨by rw [fin_byte, mid_byte], isRaw_fin_mid t⟩

/-- `/a%2Fb%` -/
theorem reescape_unescape_slash :
    List.Forall₂ (fun t t' => t'.byte = t.byte ∧ (isRESERVED t.byte = true → isRaw t' = isRaw t))
      (tokens [47, 97, 37, 50, 70, 98, 37])
      (tokens (URL_reescape (URL_unescape [47, 97, 37, 50, 70, 98, 37] false true).1 false true).1) :=
  reescape_unescape _ (by decide)

end delegate.urlreescape
