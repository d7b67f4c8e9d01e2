-- The replies of SOCKS5 (rary/socks5.cpp): `send_resp` writes one, and
-- `recv_mssg` reads it, ten bytes first and then the rest of the address.
import Delegate.Socks5
import Delegate.CText

open delegate.dns (Octet Bytes)
open ctext

namespace delegate.socks.reply

/-! ## Addresses -/

/-- A socket address, of `AF_INET` or of `AF_INET6`. -/
inductive VSAddr
  | sin (addr : Vector Octet 4)
  | sin6 (addr : Vector Octet 16)

/-- `VSA_decomp`: the bytes of the address, and if it is of `AF_INET6`. -/
def VSA_decomp : VSAddr → Bytes × Bool
  | .sin addr => (addr.toList, false)
  | .sin6 addr => (addr.toList, true)

/-- What the functions of addresses say of a text. -/
structure AddrEnv where
  VSA_strisaddr : Bytes → Nat
  VSA_atosa : Int → Bytes → VSAddr

/-! ## Writing a reply -/

def stob (s : Int) : Bytes := [UInt8.ofNat (s / 256 % 256).toNat, UInt8.ofNat (s % 256).toNat]

/-- The host of a bound text, and its port. The text is cut where `bhost[256]` is full. -/
def hostport (bound : Bytes) : Bytes × Int :=
  let bhost := bound.take 255
  match bhost.reverse.dropWhile (· ≠ 58) with
  | [] => (bhost, -1)
  | _ :: host =>
    (host.reverse, atoi ((bhost.drop (host.length + 1)).map fun b => Char.ofNat b.toNat))

/-- The text `__FFFF_` of the IPv6 addresses that are mapped from IPv4. -/
def mapped : Bytes := [95, 95, 70, 70, 70, 70, 95]

def lower (b : Octet) : Octet := if 65 ≤ b ∧ b ≤ 90 then b + 32 else b

def send_resp (env : AddrEnv) (rep : Octet) (bound : Bytes) : Bytes :=
  let (bhost, port) := hostport bound
  if env.VSA_strisaddr bhost ≠ 0 then
    let bhost :=
      if (bhost.take 7).map lower = mapped.map lower ∧ env.VSA_strisaddr (bhost.drop 7) = 1 then
        bhost.drop 7
      else bhost
    let (baddr, inet6) := VSA_decomp (env.VSA_atosa port bhost)
    [5, rep, 0, if inet6 then 4 else 1] ++ baddr ++ stob port
  else [5, rep, 0, 3, UInt8.ofNat bhost.length] ++ bhost ++ stob port

/-! ## Reading a reply -/

/-- `Recv` of `len` bytes, which is a `size_t`. -/
def Recv (len : Int) (stream : Bytes) : Bytes × Bytes :=
  (stream.take (len % 2 ^ 64).toNat, stream.drop (len % 2 ^ 64).toNat)

/-- `recv_mssg`: what it returns, and what is left of the stream. -/
def recv_mssg (siz : Nat) (stream : Bytes) : Int × Bytes :=
  let (buf, stream) := Recv 10 stream
  let rcc : Int := buf.length
  if rcc < 10 then (rcc, stream)
  else if buf.getD 0 0 ≠ 5 then (rcc, stream)
  else
    let alen : Int :=
      if buf.getD 3 0 = 3 then 1 + (buf.getD 4 0).toNat - 4
      else if buf.getD 3 0 = 4 then 16 - 4
      else 0
    if siz < rcc + alen then (rcc, stream)
    else if alen ≠ 0 then
      let (rest, stream) := Recv alen stream
      (rcc + rest.length, stream)
    else (rcc, stream)

/-! ## Frames -/

theorem Recv_append {len : Nat} (hlen : len < 2 ^ 64) {a b : Bytes} (ha : a.length = len) :
    Recv len (a ++ b) = (a, b) := by
  have hmod : ((len : Int) % 2 ^ 64).toNat = len := by omega
  unfold Recv
  rw [hmod, ← ha, List.take_left, List.drop_left]

/-- A frame of at least ten bytes, with the length that its address type tells, is read exactly. -/
theorem recv_mssg_frame {siz : Nat} {first rest more : Bytes} (hfirst : first.length = 10)
    (hver : first.getD 0 0 = 5)
    (halen : (if first.getD 3 0 = 3 then 1 + ((first.getD 4 0).toNat : Int) - 4
      else if first.getD 3 0 = 4 then 16 - 4 else 0) = rest.length)
    (hsiz : 10 + rest.length ≤ siz) (hsmall : siz < 2 ^ 64) :
    recv_mssg siz (first ++ rest ++ more) = (((first ++ rest).length : Int), more) := by
  unfold recv_mssg
  have hrecv : Recv 10 (first ++ (rest ++ more)) = (first, rest ++ more) :=
    @Recv_append 10 (by omega) _ _ hfirst
  rw [List.append_assoc, hrecv]
  dsimp only
  rw [hfirst, if_neg (by omega), if_neg (not_not.mpr hver), halen, if_neg (by omega)]
  split
  · rw [Recv_append (by omega) rfl, List.length_append, hfirst]
    norm_cast
  · rename_i hzero
    have hnil : rest = [] := by
      rw [← List.length_eq_zero_iff]
      omega
    rw [hnil, List.nil_append, List.append_nil, hfirst]

theorem length_stob (port : Int) : (stob port).length = 2 := rfl

theorem length_hostport (bound : Bytes) : (hostport bound).1.length ≤ 255 := by
  have hcut := List.length_take_le 255 bound
  have hsuffix := List.dropWhile_suffix (l := (bound.take 255).reverse) (· ≠ (58 : Octet))
  unfold hostport
  dsimp only
  split
  · exact hcut
  · rename_i colon host hhost
    have hlen := hsuffix.length_le
    rw [hhost, List.length_cons, List.length_reverse] at hlen
    rw [List.length_reverse]
    omega

/-- At least the first ten bytes are got. -/
theorem le_recv_mssg (siz : Nat) (stream : Bytes) :
    ((stream.take 10).length : Int) ≤ (recv_mssg siz stream).1 := by
  have hrecv : Recv 10 stream = (stream.take 10, stream.drop 10) := rfl
  unfold recv_mssg
  rw [hrecv]
  dsimp only
  generalize (if (stream.take 10).getD 3 0 = 3 then 1 + (((stream.take 10).getD 4 0).toNat : Int) - 4
    else if (stream.take 10).getD 3 0 = 4 then 16 - 4 else 0) = alen
  split_ifs
  · exact le_refl _
  · exact le_refl _
  · exact le_refl _
  · dsimp only
    omega
  · exact le_refl _

/-- A reply of less than ten bytes is read exactly if nothing follows it. -/
theorem recv_mssg_short {siz : Nat} {reply more : Bytes} (hshort : reply.length < 10) :
    recv_mssg siz (reply ++ more) = ((reply.length : Int), more) ↔ more = [] := by
  constructor
  · intro h
    have hle := le_recv_mssg siz (reply ++ more)
    rw [h, List.length_take, List.length_append] at hle
    rw [← List.length_eq_zero_iff]
    dsimp only at hle
    omega
  · rintro rfl
    have hrecv : Recv 10 (reply ++ []) = (reply, []) := by
      have hmod : ((10 : Int) % 2 ^ 64).toNat = 10 := rfl
      unfold Recv
      rw [hmod, List.append_nil, List.take_of_length_le (by omega), List.drop_eq_nil_of_le (by omega)]
    unfold recv_mssg
    rw [hrecv]
    dsimp only
    rw [if_pos (by omega)]

/-- The reply as its first ten bytes and the rest. -/
theorem recv_mssg_reply {siz : Nat} {reply more : Bytes} (hlong : 10 ≤ reply.length)
    (hver : reply.getD 0 0 = 5)
    (halen : (if reply.getD 3 0 = 3 then 1 + ((reply.getD 4 0).toNat : Int) - 4
      else if reply.getD 3 0 = 4 then 16 - 4 else 0) = reply.length - 10)
    (hsiz : reply.length ≤ siz) (hsmall : siz < 2 ^ 64) :
    recv_mssg siz (reply ++ more) = ((reply.length : Int), more) := by
  have hget : ∀ i < 10, (reply.take 10).getD i 0 = reply.getD i 0 := by
    intro i hi
    rw [List.getD_eq_getElem?_getD, List.getD_eq_getElem?_getD, List.getElem?_take_of_lt hi]
  have hfirst : (reply.take 10).length = 10 := by
    rw [List.length_take]
    omega
  have hrest : ((reply.drop 10).length : Int) = reply.length - 10 := by
    rw [List.length_drop]
    omega
  have hframe := @recv_mssg_frame siz (reply.take 10) (reply.drop 10) more hfirst
    (by rwa [hget 0 (by omega)])
    (by rw [hget 3 (by omega), hget 4 (by omega), halen, hrest]) (by omega) hsmall
  rwa [List.take_append_drop] at hframe

/-- A reply is read exactly, unless it is of a name that is too short and something follows it. -/
theorem reply_framed_iff (env : AddrEnv) (rep : Octet) (bound more : Bytes) :
    recv_mssg 512 (send_resp env rep bound ++ more) =
        (((send_resp env rep bound).length : Int), more) ↔
      (env.VSA_strisaddr (hostport bound).1 = 0 → 3 ≤ (hostport bound).1.length ∨ more = []) := by
  have hname := length_hostport bound
  unfold send_resp
  dsimp only
  by_cases haddr : env.VSA_strisaddr (hostport bound).1 = 0
  · have hlen : (UInt8.ofNat (hostport bound).1.length).toNat = (hostport bound).1.length :=
      UInt8.toNat_ofNat_of_lt' (Nat.lt_succ_of_le hname)
    rw [if_neg (by simpa using haddr)]
    by_cases hlong : 3 ≤ (hostport bound).1.length
    · refine ⟨fun _ _ => .inl hlong, fun _ => recv_mssg_reply ?_ rfl ?_ ?_ (by omega)⟩
      · simp [length_stob]
        omega
      · simp [length_stob, hlen]
        omega
      · simp [length_stob]
        omega
    · rw [recv_mssg_short (by simp [length_stob]; omega)]
      exact ⟨fun h _ => .inr h, fun h => (h haddr).resolve_left hlong⟩
  · rw [if_pos haddr]
    refine ⟨fun _ h => absurd h haddr, fun _ => ?_⟩
    generalize env.VSA_atosa _ _ = sa
    cases sa with
    | sin addr =>
      exact recv_mssg_reply (by simp [VSA_decomp, length_stob]) rfl
        (by simp [VSA_decomp, length_stob]) (by simp [VSA_decomp, length_stob]) (by omega)
    | sin6 addr =>
      exact recv_mssg_reply (by simp [VSA_decomp, length_stob]) rfl
        (by simp [VSA_decomp, length_stob]) (by simp [VSA_decomp, length_stob]) (by omega)

/-- No text is an address. -/
def noAddr : AddrEnv := ⟨fun _ => 0, fun _ _ => .sin (.replicate 4 0)⟩

/-- The reply for the name `a` takes two bytes of what follows it. -/
theorem short_name_overread :
    recv_mssg 512 (send_resp noAddr 0 [97, 58, 56, 48] ++ [1, 2, 3]) ≠
      (((send_resp noAddr 0 [97, 58, 56, 48]).length : Int), [1, 2, 3]) := by
  decide

end delegate.socks.reply
