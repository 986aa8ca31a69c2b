import EnvirMonitor.Lwip.Segment

/-! The header that `ip_output_if` puts in front of a packet, with the checksum it adds up on
the way, and the tests of `ip_input` up to the upper layer. -/

namespace EnvirMonitor.Lwip
open Machine

structure Netif where
  ipAddr : U32
  netmask : U32
  broadcast : Bool
  up : Bool
  mtu : U16

def ipAddrIsbroadcast (addr : U32) (netif : Netif) : Bool :=
  if ~~~addr == 0 || addr == 0 then true
  else if !netif.broadcast then false
  else if addr == netif.ipAddr then false
  else addr &&& netif.netmask == netif.ipAddr &&& netif.netmask &&
    addr &&& ~~~netif.netmask == 0xFFFFFFFF &&& ~~~netif.netmask

/-- `ip_addr_ismulticast`, of an address in network order. -/
def ipAddrIsmulticast (addr : U32) : Bool := addr &&& 0x000000F0 == 0x000000E0

def ipHlen : ℕ := 20

def makeU16 (a b : U8) : U16 := a.setWidth 16 <<< 8 ||| b.setWidth 16

/-- `_v_hl` of a header without options. -/
def vHl : U8 := 0x45

/-- `chk_sum` at the end of `ip_output_if`. -/
def inlineChksum (ttl tos proto : U8) (len id : U16) (src dest : U32) : U16 :=
  let sum : U32 := (makeU16 proto ttl).setWidth 32
  let sum := sum + (dest &&& 0xFFFF)
  let sum := sum + (dest >>> 16)
  let sum := sum + (makeU16 tos vHl).setWidth 32
  let sum := sum + len.setWidth 32
  let sum := sum + id.setWidth 32
  let sum := sum + (src &&& 0xFFFF)
  let sum := sum + (src >>> 16)
  let sum := (sum >>> 16) + (sum &&& 0xFFFF)
  let sum := (sum >>> 16) + sum
  (~~~sum).setWidth 16

def ipHdr (ttl tos proto : U8) (len id chksum : U16) (src dest : U32) : List U8 :=
  [vHl, tos, lowByte len, highByte len, lowByte id, highByte id, 0, 0, ttl, proto] ++
    [lowByte chksum, highByte chksum] ++ (addressBytes src ++ addressBytes dest)

inductive IpOutput
  | errBuf
  | frag (p : List Piece)
  | output (p : List Piece)

/-- `pbuf_header` by a positive amount, which the header fills. -/
def pushHeader (header : List U8) : List Piece → List Piece
  | [] => []
  | q :: rest => ⟨q.payload - BitVec.ofNat 32 header.length, header ++ q.bytes⟩ :: rest

def sourceAddr (src : U32) (netif : Netif) : U32 := if src == 0 then netif.ipAddr else src

/-- `ip_output_if` with a header to generate; `room` tells whether `pbuf_header` finds space. -/
def ipOutputIf (room : Bool) (p : List Piece) (src dest : U32) (ttl tos proto : U8)
    (netif : Netif) (ipId : U16) : IpOutput :=
  if !room then .errBuf
  else
    let len := htons (totLen p + BitVec.ofNat 16 ipHlen)
    let src := sourceAddr src netif
    let chksum := inlineChksum ttl tos proto len (htons ipId) src dest
    let p := pushHeader (ipHdr ttl tos proto len (htons ipId) chksum src dest) p
    if netif.mtu != 0 && decide (netif.mtu.toNat < (totLen p).toNat) then .frag p else .output p

def word16 (bs : List U8) (i : ℕ) : U16 := ofBytes (byteAt bs i) (byteAt bs (i + 1))

def word32 (bs : List U8) (i : ℕ) : U32 := word16 bs (i + 2) ++ word16 bs i

def pbufRealloc : ℕ → List Piece → List Piece
  | _, [] => []
  | n, q :: rest =>
    if n ≤ q.bytes.length then [{ q with bytes := q.bytes.take n }]
    else q :: pbufRealloc (n - q.bytes.length) rest

inductive IpInput
  | drop
  /-- A fragment, which goes to `ip_reass`. -/
  | reass (p : List Piece)
  | upper (proto : U8) (src dest : U32) (p : List Piece)

def iphHl (iphdr : List U8) : ℕ := (byteAt iphdr 0 &&& 0x0F).toNat

/-- `ip_input` on the one interface of the firmware. With `IP_OPTIONS_ALLOWED` a header may be longer
than 20 bytes. -/
def ipInput (p : List Piece) (inp : Netif) : IpInput :=
  match p with
  | [] => .drop
  | q :: _ =>
    let iphdr := q.bytes
    if byteAt iphdr 0 >>> 4 != 4 then .drop
    else
      let iphdrHlen := iphHl iphdr * 4
      let iphdrLen := (htons (word16 iphdr 2)).toNat
      if q.bytes.length < iphdrHlen || (totLen p).toNat < iphdrLen then .drop
      else if inetChksum q.payload (iphdr.take iphdrHlen) != 0 then .drop
      else
        let p := pbufRealloc iphdrLen p
        let dest := word32 iphdr 16
        let src := word32 iphdr 12
        if ipAddrIsbroadcast src inp || ipAddrIsmulticast src then .drop
        else if !(inp.up && inp.ipAddr != 0 && (dest == inp.ipAddr || ipAddrIsbroadcast dest inp)) then
          .drop
        else if word16 iphdr 6 &&& htons 0x3FFF != 0 then .reass p
        else .upper (byteAt iphdr 9) src dest p

/-! ## The checksum of the header -/

/-- The fold that keeps the high half adds it twice, above the bits that are stored. -/
theorem inlineFold {sum : U32} (h : sum.toNat < 2 ^ 20) :
    (~~~(((sum >>> 16) + (sum &&& 0xFFFF)) >>> 16 + ((sum >>> 16) + (sum &&& 0xFFFF)))).setWidth 16 =
      ~~~((foldU32 (foldU32 sum)).setWidth 16) := by
  have hfold : (sum >>> 16) + (sum &&& 0xFFFF) = foldU32 sum := rfl
  have hlt : (foldU32 sum).toNat < 2 ^ 17 := by
    rw [foldU32_toNat]
    omega
  have hhigh : (foldU32 sum >>> 16).toNat = (foldU32 sum).toNat / 65536 := by
    rw [BitVec.toNat_ushiftRight, Nat.shiftRight_eq_div_pow]
  have hlow : (foldU32 sum >>> 16 + foldU32 sum).setWidth 16 =
      (foldU32 (foldU32 sum)).setWidth 16 := by
    rw [← BitVec.toNat_inj, BitVec.toNat_setWidth, BitVec.toNat_setWidth, foldU32_toNat (foldU32 sum),
      BitVec.toNat_add, hhigh]
    omega
  rw [hfold, ← hlow]
  ext i hi
  have h32 : i < 32 := by omega
  simp only [BitVec.getElem_setWidth, BitVec.getElem_not, BitVec.getLsbD_not, h32, decide_true,
    Bool.true_and]

def ipHdrFront (ttl tos proto : U8) (len id : U16) : List U8 :=
  [vHl, tos, lowByte len, highByte len, lowByte id, highByte id, 0, 0, ttl, proto]

theorem ipHdrFront_endAround (ttl tos proto : U8) (len id : U16) :
    EndAround wordMax ((makeU16 tos vHl).toNat + (len.toNat + (id.toNat + (makeU16 proto ttl).toNat)))
      (leValue (ipHdrFront ttl tos proto len id)) := by
  have hpack := endAround_pack (ipHdrFront ttl tos proto len id)
  have hzero : (ofBytes (0 : U8) 0).toNat = 0 := rfl
  simp only [ipHdrFront, pack, List.map_cons, List.map_nil, List.sum_cons, List.sum_nil, low_high_eq,
    hzero, Nat.zero_add, Nat.add_zero] at hpack
  exact hpack

theorem addresses_endAround (src dest : U32) :
    EndAround wordMax ((src &&& 0xFFFF).toNat + (src >>> 16).toNat +
        ((dest &&& 0xFFFF).toNat + (dest >>> 16).toNat))
      (leValue (addressBytes src ++ addressBytes dest)) := by
  have hhigh (a : U32) : ((a >>> 16) &&& 0xFFFF).toNat = (a >>> 16).toNat := by
    have := a.isLt
    rw [BitVec.toNat_and, BitVec.toNat_ushiftRight, Nat.shiftRight_eq_div_pow]
    refine (Nat.and_two_pow_sub_one_eq_mod (a.toNat / 2 ^ 16) 16).trans (Nat.mod_eq_of_lt ?_)
    omega
  have hsrc := addressBytes_endAround src
  have hdest := addressBytes_endAround dest
  rw [hhigh] at hsrc hdest
  rw [leValue_append]
  exact hsrc.add (hdest.trans (endAround_even (n := 4) rfl _).symm)

theorem toNat_add_fields {a b c d e f g h : U32} (ha : a.toNat ≤ wordMax) (hb : b.toNat ≤ wordMax)
    (hc : c.toNat ≤ wordMax) (hd : d.toNat ≤ wordMax) (he : e.toNat ≤ wordMax)
    (hf : f.toNat ≤ wordMax) (hg : g.toNat ≤ wordMax) (hh : h.toNat ≤ wordMax) :
    (a + b + c + d + e + f + g + h).toNat =
        d.toNat + (e.toNat + (f.toNat + a.toNat)) + (g.toNat + h.toNat + (b.toNat + c.toNat)) ∧
      (a + b + c + d + e + f + g + h).toNat < 2 ^ 20 := by
  simp only [wordMax] at *
  simp only [BitVec.toNat_add]
  omega

/-- The checksum added up on the way is the one of the finished header. -/
theorem inlineChksum_eq (ttl tos proto : U8) (len id : U16) (src dest : U32) :
    inlineChksum ttl tos proto len id src dest =
      internetChecksum (ipHdr ttl tos proto len id 0 src dest) := by
  have hlow (a : U32) : (a &&& 0xFFFF).toNat ≤ wordMax := by
    rw [BitVec.toNat_and]
    exact Nat.and_le_right
  have hhigh (a : U32) : (a >>> 16).toNat ≤ wordMax := by
    have := a.isLt
    rw [BitVec.toNat_ushiftRight, Nat.shiftRight_eq_div_pow]
    simp only [wordMax]
    omega
  have hword (w : U16) : (w.setWidth 32).toNat ≤ wordMax := by
    have := w.isLt
    rw [toNat_word32]
    simp only [wordMax]
    omega
  obtain ⟨hsum, hlt⟩ := toNat_add_fields (hword (makeU16 proto ttl)) (hlow dest) (hhigh dest)
    (hword (makeU16 tos vHl)) (hword len) (hword id) (hlow src) (hhigh src)
  rw [inlineChksum]
  refine (inlineFold hlt).trans (complement_eq ?_)
  rw [toNat_word16 (foldU32_twice_le _)]
  refine (foldU32_endAround _).trans ((foldU32_endAround _).trans ?_)
  have hzero : (ofBytes (lowByte 0) (highByte 0)).toNat = 0 := rfl
  have heven : (ipHdrFront ttl tos proto len id).length % 2 = 0 := by
    rw [show (ipHdrFront ttl tos proto len id).length = 10 from rfl]
  rw [hsum, toNat_word32, toNat_word32, toNat_word32, toNat_word32]
  have hvalue : leValue (ipHdr ttl tos proto len id 0 src dest) =
      leValue (ipHdrFront ttl tos proto len id) +
        256 ^ (ipHdrFront ttl tos proto len id).length *
          (65536 * leValue (addressBytes src ++ addressBytes dest)) := by
    rw [ipHdr, ← ipHdrFront, leValue_around, hzero, Nat.zero_add]
  rw [hvalue]
  refine (ipHdrFront_endAround ..).add ((addresses_endAround src dest).trans ?_)
  exact ((endAround_even heven _).trans
    (EndAround.mul_of_modEq_one (k := 65536) rfl (by decide))).symm

/-- `ip_input` finds no fault with the sum of a header from `ip_output_if`. -/
theorem internetChecksum_ipHdr (ttl tos proto : U8) (len id : U16) (src dest : U32) :
    internetChecksum (ipHdr ttl tos proto len id
      (inlineChksum ttl tos proto len id src dest) src dest) = 0 := by
  have heven : (ipHdrFront ttl tos proto len id).length % 2 = 0 := by
    rw [show (ipHdrFront ttl tos proto len id).length = 10 from rfl]
  have hfill := internetChecksum_fill (addressBytes src ++ addressBytes dest) heven
  rw [inlineChksum_eq]
  exact hfill

/-! ## From one station to the other -/

theorem chainBytes_pbufRealloc (n : ℕ) (p : List Piece) :
    chainBytes (pbufRealloc n p) = (chainBytes p).take n := by
  induction p generalizing n with
  | nil => exact List.take_nil.symm
  | cons q rest ih =>
    have hcons : chainBytes (q :: rest) = q.bytes ++ chainBytes rest := rfl
    rw [pbufRealloc, hcons, List.take_append]
    split_ifs with hshort
    · rw [Nat.sub_eq_zero_of_le hshort, List.take_zero, List.append_nil]
      exact List.append_nil _
    · rw [List.take_of_length_le (Nat.le_of_not_le hshort), ← ih]
      rfl

theorem ofBytes_address (a : U32) :
    ofBytes ((a >>> 16).setWidth 8) ((a >>> 24).setWidth 8) ++
      ofBytes (a.setWidth 8) ((a >>> 8).setWidth 8) = a := by
  ext i hi
  simp only [ofBytes, BitVec.getElem_append]
  interval_cases i <;> simp

theorem htons_htons (n : U16) : htons (htons n) = n := by
  ext i hi
  simp only [htons]
  interval_cases i <;> simp

theorem length_ipHdr (ttl tos proto : U8) (len id chksum : U16) (src dest : U32) :
    (ipHdr ttl tos proto len id chksum src dest).length = ipHlen := rfl

def Addressed (inp : Netif) (src dest : U32) : Prop :=
  inp.up = true ∧ inp.ipAddr ≠ 0 ∧ (dest = inp.ipAddr ∨ ipAddrIsbroadcast dest inp = true) ∧
    ipAddrIsbroadcast src inp = false ∧ ipAddrIsmulticast src = false

instance (inp : Netif) (src dest : U32) : Decidable (Addressed inp src dest) :=
  inferInstanceAs (Decidable (_ ∧ _))

theorem ipInput_ipHdr {q : Piece} {rest : List Piece} {tail : List U8} {ttl tos proto : U8}
    {len id : U16} {src dest : U32} (inp : Netif)
    (hq : q.bytes = ipHdr ttl tos proto len id (inlineChksum ttl tos proto len id src dest) src dest ++
      tail) (hlen : (htons len).toNat ≤ (totLen (q :: rest)).toNat) :
    ipInput (q :: rest) inp = if Addressed inp src dest then
      .upper proto src dest (pbufRealloc (htons len).toNat (q :: rest)) else .drop := by
  have hbyte : byteAt q.bytes 0 = vHl := by
    rw [hq]
    rfl
  have hversion : (byteAt q.bytes 0 >>> 4 != 4) = false := by
    rw [hbyte]
    decide
  have hhlen : iphHl q.bytes * 4 = ipHlen := by
    rw [iphHl, hbyte]
    decide
  have hword : word16 q.bytes 2 = len := by
    rw [hq]
    exact low_high_eq len
  have hproto : byteAt q.bytes 9 = proto := by
    rw [hq]
    rfl
  have hsrc : word32 q.bytes 12 = src := by
    rw [hq]
    exact ofBytes_address src
  have hdest : word32 q.bytes 16 = dest := by
    rw [hq]
    exact ofBytes_address dest
  have hzero : word16 q.bytes 6 = ofBytes 0 0 := by
    rw [hq]
    rfl
  have hoffset : (word16 q.bytes 6 &&& htons 0x3FFF != 0) = false := by
    rw [hzero]
    decide
  have hfirst : ¬ (q.bytes.length < ipHlen) := by
    rw [hq, List.length_append, length_ipHdr]
    omega
  have hchksum : inetChksum q.payload (q.bytes.take ipHlen) = 0 := by
    rw [hq, List.take_left' (length_ipHdr ..), inetChksum_eq _ (by rw [length_ipHdr]; decide)]
    exact internetChecksum_ipHdr ..
  have hshort : ¬ ((totLen (q :: rest)).toNat < (htons len).toNat) := Nat.not_lt.mpr hlen
  simp only [ipInput, hversion, hhlen, hword, hproto, hsrc, hdest, hoffset, hfirst, hchksum, hshort,
    Addressed, Bool.false_eq_true, if_false, decide_false, Bool.or_self, bne_self_eq_false]
  by_cases hbroadcast : ipAddrIsbroadcast src inp <;>
    by_cases hmulticast : ipAddrIsmulticast src <;> simp [hbroadcast, hmulticast]
  by_cases hup : inp.up <;> by_cases haddr : inp.ipAddr = 0#32 <;>
    by_cases hto : dest = inp.ipAddr <;> by_cases hall : ipAddrIsbroadcast dest inp <;>
    simp [hup, haddr, hto, hall]

/-- The interface of the board, at 192.168.1.30. -/
def sampleNetif : Netif := ⟨0x1E01A8C0, 0x00FFFFFF, true, true, 1500⟩

def samplePayload : List Piece := [⟨0x20001014, [0x11, 0x22]⟩, ⟨0x20003001, [0x33]⟩]

/-- `samplePayload` from 192.168.1.2 to the board, before and after the wire. -/
def samplePacket : List Piece :=
  let chksum := inlineChksum 255 0 6 (htons 23) (htons 7) 0x0201A8C0 0x1E01A8C0
  pushHeader (ipHdr 255 0 6 (htons 23) (htons 7) chksum 0x0201A8C0 0x1E01A8C0) samplePayload

def sampleArrived : List Piece :=
  let bytes := chainBytes samplePacket ++ [0, 0]
  [⟨0x20005002, bytes.take 21⟩, ⟨0x20006000, bytes.drop 21⟩]

end EnvirMonitor.Lwip
