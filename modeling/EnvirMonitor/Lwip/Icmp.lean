import EnvirMonitor.Lwip.Ip

/-! The echo replies of `icmp_input`, which changes the checksum of the request by what the type
contributes instead of adding up the message again. -/

namespace EnvirMonitor.Lwip
open Machine

def icmpEr : U8 := 0
def icmpEcho : U8 := 8
def icmpTtl : U8 := 255

/-- The adjustment of `iecho->chksum`, where `ICMP_ECHO << 8` is 0x800. -/
def adjustChksum (chksum : U16) : U16 :=
  if (htons (0xFFFF - 0x800)).toNat ≤ chksum.toNat then chksum + htons 0x800 + 1
  else chksum + htons 0x800

def wordBytes (w : U16) : List U8 := [lowByte w, highByte w]

/-- The stores of the reply into the first buffer, in their order. The message lies at `hlen`, and
the header checksum is over `IP_HLEN` bytes. -/
def echoReply (payload : U32) (hlen : ℕ) (iphdr : List U8) (src dest : U32) : List U8 :=
  let iphdr := memcpyAt iphdr 12 (addressBytes dest)
  let iphdr := memcpyAt iphdr 16 (addressBytes src)
  let iphdr := memcpyAt iphdr hlen [icmpEr]
  let iphdr := memcpyAt iphdr (hlen + 2) (wordBytes (adjustChksum (word16 iphdr (hlen + 2))))
  let iphdr := memcpyAt iphdr 8 [icmpTtl]
  let iphdr := memcpyAt iphdr 10 (wordBytes 0)
  memcpyAt iphdr 10 (wordBytes (inetChksum payload (iphdr.take ipHlen)))

/-- The reply that `icmp_input` sends. Without room for the link header in `p` the packet is first
copied into a buffer at `fresh`, if there is one. -/
def icmpInput (p : List Piece) (src dest : U32) (inp : Netif) (room : Bool) (fresh : Option U32) :
    Option (List Piece) :=
  match p with
  | [] => none
  | q :: rest =>
    let hlen := iphHl q.bytes * 4
    let icmp : List Piece := ⟨q.payload + BitVec.ofNat 32 hlen, q.bytes.drop hlen⟩ :: rest
    if q.bytes.length < hlen || (totLen icmp).toNat < 4 then none
    else if byteAt q.bytes hlen != icmpEcho then none
    else if ipAddrIsmulticast dest || ipAddrIsbroadcast dest inp then none
    else if (totLen icmp).toNat < 8 then none
    else if inetChksumPbuf icmp != 0 then none
    else if room then
      some ({ q with bytes := echoReply q.payload hlen q.bytes src dest } :: rest)
    else
      fresh.map fun payload => [⟨payload, echoReply payload hlen (chainBytes p) src dest⟩]

/-! ## The adjusted checksum -/

theorem adjustChksum_modEq (c : U16) : (adjustChksum c).toNat ≡ c.toNat + 8 [MOD wordMax] := by
  have hc := c.isLt
  have hlimit : (htons (0xFFFF - 0x800)).toNat = 0xFFF7 := by decide
  have height : htons 0x800 = 8 := by decide
  rw [adjustChksum, hlimit, height]
  split_ifs with hwrap
  · have hsum : c + 8 + 1 = c + 9 := BitVec.add_assoc c 8 1
    have hnine : (c + 9).toNat = c.toNat + 9 - 65536 := by
      rw [BitVec.toNat_add]
      have : (9 : U16).toNat = 9 := rfl
      omega
    have hback : c.toNat + 8 = (c + 9).toNat + 65535 := by omega
    rw [hsum, hback]
    exact (Nat.add_modEq_right).symm
  · have height' : (c + 8).toNat = c.toNat + 8 := by
      rw [BitVec.toNat_add]
      have : (8 : U16).toNat = 8 := rfl
      omega
    rw [height']

theorem echo_value {code lo hi : U8} {data : List U8}
    (hvalid : internetChecksum (icmpEcho :: code :: lo :: hi :: data) = 0) :
    wordMax ∣ leValue (icmpEr :: code :: lowByte (adjustChksum (ofBytes lo hi)) ::
      highByte (adjustChksum (ofBytes lo hi)) :: data) := by
  set c := ofBytes lo hi with hc
  have hrequest := ((internetChecksum_eq_zero_iff _).mp hvalid).2
  have hvalue (t l h : U8) : leValue (t :: code :: l :: h :: data) =
      t.toNat + 256 * code.toNat + 65536 * ((ofBytes l h).toNat + 65536 * leValue data) := by
    have haround := leValue_around [t, code] data l h
    simp only [leValue_cons, leValue_nil, List.length_cons, List.length_nil] at haround
    refine haround.trans ?_
    norm_num
  have hecho : icmpEcho.toNat = 8 := rfl
  have her : icmpEr.toNat = 0 := rfl
  have hmod := adjustChksum_modEq c
  rw [hvalue, hecho, ← hc] at hrequest
  rw [hvalue, her, low_high_eq]
  rw [← Nat.modEq_zero_iff_dvd] at hrequest ⊢
  refine Nat.ModEq.trans ?_ hrequest
  have hone : (65536 : ℕ) ≡ 1 [MOD wordMax] := rfl
  calc 0 + 256 * code.toNat + 65536 * ((adjustChksum c).toNat + 65536 * leValue data)
      ≡ 0 + 256 * code.toNat + 1 * (c.toNat + 8 + 65536 * leValue data) [MOD wordMax] :=
        (hone.mul (hmod.add_right _)).add_left _
    _ = 8 + 256 * code.toNat + 1 * (c.toNat + 65536 * leValue data) := by ring
    _ ≡ 8 + 256 * code.toNat + 65536 * (c.toNat + 65536 * leValue data) [MOD wordMax] :=
        (hone.symm.mul_right _).add_left _

/-- The reply's checksum is right unless nothing but the type of the request was nonzero. -/
theorem echo_checksum_iff {code lo hi : U8} {data : List U8}
    (hvalid : internetChecksum (icmpEcho :: code :: lo :: hi :: data) = 0) :
    internetChecksum (icmpEr :: code :: lowByte (adjustChksum (ofBytes lo hi)) ::
      highByte (adjustChksum (ofBytes lo hi)) :: data) = 0 ↔ ∃ b ∈ code :: data, b ≠ 0 := by
  have hdvd := echo_value hvalid
  rw [internetChecksum_eq_zero_iff, and_iff_left hdvd, ne_eq, leValue_eq_zero_iff]
  constructor
  · intro h
    by_contra hzero
    simp only [List.mem_cons, ne_eq, not_exists, not_and, not_not] at hzero
    have hcode : code = 0 := hzero code (.inl rfl)
    have hdata : ∀ b ∈ data, b = 0 := fun b hb => hzero b (.inr hb)
    -- then the checksum of the request is the one that the adjustment makes zero
    have hrequest := (internetChecksum_eq_zero_iff _).mp hvalid
    have hvalue : leValue (icmpEcho :: code :: lo :: hi :: data) =
        8 + 65536 * (ofBytes lo hi).toNat := by
      have haround := leValue_around [icmpEcho, code] data lo hi
      rw [(leValue_eq_zero_iff data).mpr hdata, hcode] at haround
      rw [hcode]
      exact haround
    have hlt := (ofBytes lo hi).isLt
    have hc : ofBytes lo hi = 0xFFF7 := by
      apply BitVec.eq_of_toNat_eq
      have hnum : (0xFFF7 : U16).toNat = 65527 := rfl
      have hdiv := hrequest.2
      rw [hvalue] at hdiv
      simp only [wordMax] at hdiv
      rw [hnum]
      omega
    apply h
    rw [hc, hcode]
    exact List.forall_mem_cons.mpr ⟨rfl, List.forall_mem_cons.mpr ⟨rfl, List.forall_mem_cons.mpr
      ⟨by decide, List.forall_mem_cons.mpr ⟨by decide, hdata⟩⟩⟩⟩
  · rintro ⟨b, hb, hne⟩ hzero
    refine hne (hzero b ?_)
    rcases List.mem_cons.mp hb with rfl | hb
    · simp
    · simp [hb]

/-! ## The stores of the reply -/

theorem memcpyAt_left {a b src : List U8} {offset : ℕ} (h : offset + src.length ≤ a.length) :
    memcpyAt (a ++ b) offset src = memcpyAt a offset src ++ b := by
  rw [memcpyAt, memcpyAt, List.take_append_of_le_length (by omega),
    List.drop_append_of_le_length h]
  simp only [List.append_assoc]

theorem memcpyAt_right {a b src : List U8} {n i : ℕ} (h : a.length = n) :
    memcpyAt (a ++ b) (n + i) src = a ++ memcpyAt b i src := by
  subst h
  rw [memcpyAt, memcpyAt, Nat.add_assoc, List.take_length_add_append, List.drop_length_add_append]
  simp only [List.append_assoc]

theorem byteAt_right {a b : List U8} {n : ℕ} (h : a.length = n) (i : ℕ) :
    byteAt (a ++ b) (n + i) = byteAt b i := by
  subst h
  rw [byteAt, byteAt, List.getElem?_append_right (Nat.le_add_right _ _), Nat.add_sub_cancel_left]

def replyFront (iphdr : List U8) : List U8 := iphdr.take 8 ++ [icmpTtl, byteAt iphdr 9]

theorem length_replyFront {iphdr : List U8} (h : 8 ≤ iphdr.length) :
    (replyFront iphdr).length = 10 := by
  rw [replyFront, List.length_append, List.length_take, Nat.min_eq_left h]
  rfl

theorem headerStores {iphdr : List U8} (h : iphdr.length = ipHlen) (src dest : U32) :
    memcpyAt (memcpyAt (memcpyAt iphdr 12 (addressBytes dest)) 16 (addressBytes src)) 8 [icmpTtl] =
      replyFront iphdr ++ (iphdr.drop 10).take 2 ++ (addressBytes dest ++ addressBytes src) := by
  simp only [ipHlen] at h
  have hdest (a : U32) : (addressBytes a).length = 4 := rfl
  have htake : (iphdr.take 12).length = 12 := by
    rw [List.length_take]
    omega
  have hfirst : memcpyAt iphdr 12 (addressBytes dest) =
      iphdr.take 12 ++ (addressBytes dest ++ iphdr.drop 16) := by
    rw [memcpyAt, hdest, List.append_assoc]
  have hlast : memcpyAt (iphdr.drop 16) 0 (addressBytes src) = addressBytes src := by
    have hnil : iphdr.drop (16 + (0 + 4)) = [] := List.drop_eq_nil_of_le (by omega)
    rw [memcpyAt, hdest, List.drop_drop, hnil, List.take_zero, List.nil_append, List.append_nil]
  have hsecond : memcpyAt (iphdr.take 12 ++ (addressBytes dest ++ iphdr.drop 16)) 16
      (addressBytes src) = iphdr.take 12 ++ (addressBytes dest ++ addressBytes src) := by
    rw [show 16 = 12 + (4 + 0) from rfl, memcpyAt_right htake, memcpyAt_right (hdest dest), hlast]
  have hlen : (iphdr.take 12).length = 12 := htake
  have hnine : (iphdr.drop 9).take 3 = byteAt iphdr 9 :: (iphdr.drop 10).take 2 := by
    have hlt : 9 < iphdr.length := by omega
    rw [byteAt, List.getElem?_eq_getElem hlt, Option.getD_some, List.drop_eq_getElem_cons hlt,
      List.take_succ_cons]
  have hback : (iphdr.take 12).drop 9 = byteAt iphdr 9 :: (iphdr.drop 10).take 2 := by
    rw [List.drop_take, ← hnine]
  rw [hfirst, hsecond, memcpyAt_left (by rw [hlen]; decide), replyFront, memcpyAt, List.take_take]
  simp only [List.length_cons, List.length_nil, hback, List.append_assoc, List.cons_append,
    List.nil_append]
  rfl

theorem memcpyAt_word {before old after : List U8} {n : ℕ} (hbefore : before.length = n)
    (hold : old.length = 2) (w : U16) :
    memcpyAt (before ++ old ++ after) n (wordBytes w) = before ++ wordBytes w ++ after := by
  have htake : (before ++ old ++ after).take n = before := by
    rw [List.append_assoc, List.take_left' hbefore]
  have hdrop : (before ++ old ++ after).drop (n + (wordBytes w).length) = after :=
    List.drop_left' (by rw [List.length_append, hbefore, hold]; rfl)
  rw [memcpyAt, htake, hdrop]

def replyChksum (iphdr : List U8) (src dest : U32) : U16 :=
  internetChecksum (replyFront iphdr ++ [0, 0] ++ (addressBytes dest ++ addressBytes src))

theorem echoReply_eq {payload : U32} {iphdr options data : List U8} {type code lo hi : U8}
    (h : iphdr.length = ipHlen) (src dest : U32) :
    echoReply payload (ipHlen + options.length) (iphdr ++ (options ++ type :: code :: lo :: hi :: data))
        src dest =
      replyFront iphdr ++ wordBytes (replyChksum iphdr src dest) ++
        (addressBytes dest ++ addressBytes src) ++
          (options ++ icmpEr :: code :: (wordBytes (adjustChksum (ofBytes lo hi)) ++ data)) := by
  have hlong (a : U32) : (addressBytes a).length = 4 := rfl
  have hone (b : U8) : [b].length = 1 := rfl
  have htwo (w : U16) : (wordBytes w).length = 2 := rfl
  have hlen := h
  simp only [ipHlen] at hlen
  have hfront : (replyFront iphdr).length = 10 := length_replyFront (by omega)
  set swapped := memcpyAt (memcpyAt iphdr 12 (addressBytes dest)) 16 (addressBytes src)
    with hswapped
  have hfirst : (memcpyAt iphdr 12 (addressBytes dest)).length = 20 := by
    rw [length_memcpyAt (by rw [hlong]; omega), hlen]
  have hstored : swapped.length = ipHlen := by
    rw [hswapped, length_memcpyAt (by rw [hlong]; omega)]
    exact hfirst
  -- the stores behind the header
  have hbehind (b src : List U8) (i : ℕ) : memcpyAt (swapped ++ (options ++ b)) (ipHlen + options.length + i)
      src = swapped ++ (options ++ memcpyAt b i src) := by
    rw [Nat.add_assoc, memcpyAt_right hstored, memcpyAt_right rfl]
  have htype (b : List U8) : memcpyAt (swapped ++ (options ++ type :: b)) (ipHlen + options.length)
      [icmpEr] = swapped ++ (options ++ icmpEr :: b) := hbehind (type :: b) [icmpEr] 0
  have hfetch (b : List U8) : word16 (swapped ++ (options ++ b)) (ipHlen + options.length + 2) =
      word16 b 2 := by
    rw [word16, word16, Nat.add_assoc, Nat.add_assoc, byteAt_right hstored, byteAt_right hstored,
      byteAt_right rfl, Nat.add_assoc options.length, byteAt_right rfl]
  have hword : word16 (icmpEr :: code :: lo :: hi :: data) 2 = ofBytes lo hi := rfl
  have hstore (w : U16) : memcpyAt (icmpEr :: code :: lo :: hi :: data) 2 (wordBytes w) =
      icmpEr :: code :: (wordBytes w ++ data) := rfl
  have hkept : ((iphdr.drop 10).take 2).length = 2 := by
    rw [List.length_take, List.length_drop]
    omega
  have hzeros : wordBytes 0 = [0, 0] := rfl
  have hheader (w : U16) : (replyFront iphdr ++ wordBytes w ++
      (addressBytes dest ++ addressBytes src)).length = ipHlen := by
    rw [List.length_append, List.length_append, hfront]
    rfl
  have hsum : inetChksum payload (replyFront iphdr ++ wordBytes 0 ++
      (addressBytes dest ++ addressBytes src)) = replyChksum iphdr src dest := by
    rw [inetChksum_eq _ (by rw [hheader]; decide), hzeros, replyChksum]
  have hswap (b : List U8) : memcpyAt (memcpyAt (iphdr ++ b) 12 (addressBytes dest)) 16
      (addressBytes src) = swapped ++ b := by
    rw [memcpyAt_left (by rw [hlong]; omega), memcpyAt_left (by rw [hlong]; omega)]
  simp only [echoReply, hswap, htype, hfetch, hword, hbehind, hstore]
  rw [memcpyAt_left (by rw [hone, hstored]; decide), headerStores h,
    memcpyAt_left (by rw [htwo, List.length_append, List.length_append, hfront]; omega),
    memcpyAt_word hfront hkept, List.take_left' (hheader 0), hsum,
    memcpyAt_left (by rw [htwo, hheader]; decide), memcpyAt_word hfront (htwo 0)]

theorem exists_message {bs : List U8} {hlen : ℕ} (hmin : ipHlen ≤ hlen) (h : hlen + 8 ≤ bs.length) :
    ∃ iphdr options type code lo hi tail, bs = iphdr ++ (options ++ type :: code :: lo :: hi :: tail) ∧
      iphdr.length = ipHlen ∧ hlen = ipHlen + options.length := by
  have hlen8 : 8 ≤ (bs.drop hlen).length := by
    rw [List.length_drop]
    omega
  obtain ⟨type, code, lo, hi, tail, htail⟩ : ∃ type code lo hi tail,
      bs.drop hlen = type :: code :: lo :: hi :: tail := by
    rcases hdrop : bs.drop hlen with _ | ⟨type, _ | ⟨code, _ | ⟨lo, _ | ⟨hi, tail⟩⟩⟩⟩ <;>
      rw [hdrop] at hlen8
    case cons.cons.cons.cons => exact ⟨type, code, lo, hi, tail, rfl⟩
    all_goals simp only [List.length_cons, List.length_nil] at hlen8; omega
  have hoptions : (bs.take hlen).drop ipHlen ++ type :: code :: lo :: hi :: tail = bs.drop ipHlen := by
    rw [← htail, List.drop_take]
    nth_rewrite 2 [← List.take_append_drop (hlen - ipHlen) (bs.drop ipHlen)]
    rw [List.drop_drop, Nat.add_sub_cancel' hmin]
  refine ⟨bs.take ipHlen, (bs.take hlen).drop ipHlen, type, code, lo, hi, tail, ?_, ?_, ?_⟩
  · rw [hoptions, List.take_append_drop]
  · rw [List.length_take]
    omega
  · rw [List.length_drop, List.length_take]
    omega

/-- The tests that an echo request passes before it is answered. -/
theorem icmpInput_some {q : Piece} {rest reply : List Piece} {src dest : U32} {inp : Netif}
    {room : Bool} {fresh : Option U32}
    (hreply : icmpInput (q :: rest) src dest inp room fresh = some reply) :
    byteAt q.bytes (iphHl q.bytes * 4) = icmpEcho ∧
      inetChksumPbuf (⟨q.payload + BitVec.ofNat 32 (iphHl q.bytes * 4),
        q.bytes.drop (iphHl q.bytes * 4)⟩ :: rest) = 0 ∧
      ∃ payload, chainBytes reply = echoReply payload (iphHl q.bytes * 4) q.bytes src dest ++
          chainBytes rest ∨
        chainBytes reply = echoReply payload (iphHl q.bytes * 4) (chainBytes (q :: rest)) src dest := by
  simp only [icmpInput] at hreply
  split_ifs at hreply with h1 h2 h3 h4 h5 hroom
  · obtain rfl := Option.some.inj hreply
    exact ⟨by simpa using h2, by simpa using h5, q.payload, .inl rfl⟩
  · obtain ⟨payload, -, rfl⟩ := Option.map_eq_some_iff.mp hreply
    exact ⟨by simpa using h2, by simpa using h5, payload, .inr (List.append_nil _)⟩

/-- A sum over 20 bytes that comes out right says nothing of the options behind them. -/
theorem header_checksum_iff {header options : List U8} (hlen : header.length = ipHlen)
    (hvalid : internetChecksum header = 0) :
    internetChecksum (header ++ options) = 0 ↔ wordMax ∣ leValue options := by
  obtain ⟨hne, hdvd⟩ := (internetChecksum_eq_zero_iff header).mp hvalid
  have hone : 256 ^ ipHlen * leValue options ≡ 1 * leValue options [MOD wordMax] :=
    Nat.ModEq.mul_right _ (by decide)
  rw [internetChecksum_eq_zero_iff, leValue_append, hlen, Nat.dvd_add_right hdvd, hone.dvd_iff dvd_rfl,
    one_mul]
  exact and_iff_right (by omega)

/-- What a station receives that sent an echo request: its addresses swapped, its options, its code,
its data and a header whose first 20 bytes add up. The whole header does only if the options add up
to nothing, and the message unless all that its checksum covers is zero. -/
def EchoReply (request reply : List U8) (src dest : U32) : Prop :=
  ∃ iphdr options code sum data, iphdr.length = ipHlen ∧ iphHl request * 4 = ipHlen + options.length ∧
    request = iphdr ++ (options ++ icmpEcho :: code :: (wordBytes sum ++ data)) ∧
    internetChecksum (icmpEcho :: code :: (wordBytes sum ++ data)) = 0 ∧
    reply = replyFront iphdr ++ wordBytes (replyChksum iphdr src dest) ++
      (addressBytes dest ++ addressBytes src) ++
        (options ++ icmpEr :: code :: (wordBytes (adjustChksum sum) ++ data)) ∧
    internetChecksum (reply.take ipHlen) = 0 ∧
    (internetChecksum (reply.take (ipHlen + options.length)) = 0 ↔ wordMax ∣ leValue options) ∧
    (internetChecksum (reply.drop (ipHlen + options.length)) = 0 ↔ ∃ b ∈ code :: data, b ≠ 0)

/-- A ping from 192.168.1.2 to 192.168.1.30 with two bytes of data, behind the header `iphdr`. -/
def ping (iphdr : List U8) : Piece :=
  ⟨0x20001000, iphdr ++ [8, 0, 0xE5, 0xCA, 0, 1, 0, 0, 0x12, 0x34]⟩

def samplePing : Piece :=
  ping [vHl, 0, 0, 30, 0, 1, 0, 0, 64, 1, 0xF7, 0x6D, 192, 168, 1, 2, 192, 168, 1, 30]

def samplePong : Piece :=
  ⟨0x20001000, echoReply 0x20001000 ipHlen samplePing.bytes 0x0201A8C0 0x1E01A8C0⟩

/-- A ping with four bytes of options, and the header of its reply, whose sum is 20 bytes long. -/
example : ∃ reply, icmpInput [ping [0x46, 0, 0, 34, 0, 1, 0, 0, 64, 1, 0xF4, 0x68, 192, 168, 1, 2,
      192, 168, 1, 30, 1, 1, 1, 0]] 0x0201A8C0 0x1E01A8C0 sampleNetif true none = some reply ∧
    internetChecksum ((chainBytes reply).take 24) ≠ 0 := ⟨_, rfl, by decide⟩

end EnvirMonitor.Lwip
