import EnvirMonitor.Lwip.Ip

/-! Ethernet and ARP frames as `etharp.c` writes and reads them. -/

namespace EnvirMonitor.Arp
open Machine Lwip

structure EthAddr where
  addr0 : U8
  addr1 : U8
  addr2 : U8
  addr3 : U8
  addr4 : U8
  addr5 : U8
  deriving DecidableEq

def EthAddr.bytes (m : EthAddr) : List U8 := [m.addr0, m.addr1, m.addr2, m.addr3, m.addr4, m.addr5]

def ethAddrAt (bs : List U8) (i : ℕ) : EthAddr :=
  ⟨byteAt bs i, byteAt bs (i + 1), byteAt bs (i + 2), byteAt bs (i + 3), byteAt bs (i + 4),
    byteAt bs (i + 5)⟩

def ethbroadcast : EthAddr := ⟨0xFF, 0xFF, 0xFF, 0xFF, 0xFF, 0xFF⟩
def ethzero : EthAddr := ⟨0, 0, 0, 0, 0, 0⟩

structure EtharpNetif extends Netif where
  gw : U32
  hwaddr : EthAddr

def sizeofEthHdr : ℕ := 14
def sizeofEtharpPacket : ℕ := sizeofEthHdr + 28
def ethtypeArp : U16 := 0x0806
def ethtypeIp : U16 := 0x0800
def hwtypeEthernet : U16 := 1
def etharpHwaddrLen : U8 := 6
def arpRequest : U16 := 1
def arpReply : U16 := 2

def ethHdr (dest src : EthAddr) (type : U16) : List U8 :=
  dest.bytes ++ src.bytes ++ unpack [htons type]

def etharpPacket (ethsrc ethdst hwsrc : EthAddr) (ipsrc : U32) (hwdst : EthAddr) (ipdst : U32)
    (opcode : U16) : List U8 :=
  ethHdr ethdst ethsrc ethtypeArp ++ unpack [htons hwtypeEthernet, htons ethtypeIp] ++
    [etharpHwaddrLen, 4] ++ unpack [htons opcode] ++ (hwsrc.bytes ++ addressBytes ipsrc) ++
      (hwdst.bytes ++ addressBytes ipdst)

def requestPacket (netif : EtharpNetif) (ipaddr : U32) : List U8 :=
  etharpPacket netif.hwaddr ethbroadcast netif.hwaddr netif.ipAddr ethzero ipaddr arpRequest

/-- The fields that `etharp_arp_input` reads. -/
def ethType (bs : List U8) : U16 := word16 bs 12
def shwaddr (bs : List U8) : EthAddr := ethAddrAt bs 22
def sipaddr (bs : List U8) : U32 := word32 bs 28
def dipaddr (bs : List U8) : U32 := word32 bs 38
def opcode (bs : List U8) : U16 := word16 bs 20

/-- An Ethernet hardware type with addresses of 6 bytes, and IP with addresses of 4. -/
def headerRight (bs : List U8) : Bool :=
  word16 bs 14 == htons hwtypeEthernet && byteAt bs 18 == etharpHwaddrLen && byteAt bs 19 == 4 &&
    word16 bs 16 == htons ethtypeIp

def replyPacket (netif : EtharpNetif) (bs : List U8) : List U8 :=
  let bs := memcpyAt bs 20 (unpack [htons arpReply])
  let bs := memcpyAt bs 38 (addressBytes (sipaddr bs))
  let bs := memcpyAt bs 28 (addressBytes netif.ipAddr)
  let bs := memcpyAt bs 32 (shwaddr bs).bytes
  let bs := memcpyAt bs 0 (shwaddr bs).bytes
  let bs := memcpyAt bs 22 netif.hwaddr.bytes
  memcpyAt bs 6 netif.hwaddr.bytes

def ipFrame (netif : EtharpNetif) (dst : EthAddr) (data : List U8) : List U8 :=
  ethHdr dst netif.hwaddr ethtypeIp ++ data

/-! ## Reading what was written -/

theorem etharpPacket_fields (ethsrc ethdst hwsrc : EthAddr) (ipsrc : U32) (hwdst : EthAddr)
    (ipdst : U32) (op : U16) (back : List U8) :
    let bs := etharpPacket ethsrc ethdst hwsrc ipsrc hwdst ipdst op ++ back
    ethType bs = htons ethtypeArp ∧ headerRight bs = true ∧ shwaddr bs = hwsrc ∧
      sipaddr bs = ipsrc ∧ dipaddr bs = ipdst ∧ opcode bs = htons op := by
  intro bs
  have hhw : word16 bs 14 = htons hwtypeEthernet := low_high_eq _
  have hproto : word16 bs 16 = htons ethtypeIp := low_high_eq _
  have hlens : byteAt bs 18 = etharpHwaddrLen ∧ byteAt bs 19 = 4 := ⟨rfl, rfl⟩
  refine ⟨low_high_eq _, ?_, rfl, ofBytes_address ipsrc, ofBytes_address ipdst, low_high_eq _⟩
  rw [headerRight, hhw, hproto, hlens.1, hlens.2]
  rfl

theorem byteAt_left {bs : List U8} {i : ℕ} (h : i < bs.length) (back : List U8) :
    byteAt (bs ++ back) i = byteAt bs i := by
  rw [byteAt, byteAt, List.getElem?_append_left h]

theorem fields_append {bs : List U8} (h : sizeofEtharpPacket ≤ bs.length) (back : List U8) :
    ethType (bs ++ back) = ethType bs ∧ headerRight (bs ++ back) = headerRight bs ∧
      shwaddr (bs ++ back) = shwaddr bs ∧ sipaddr (bs ++ back) = sipaddr bs ∧
        dipaddr (bs ++ back) = dipaddr bs ∧ opcode (bs ++ back) = opcode bs := by
  have hbyte (i : ℕ) (hi : i < sizeofEtharpPacket) : byteAt (bs ++ back) i = byteAt bs i :=
    byteAt_left (hi.trans_le h) back
  refine ⟨?_, ?_, ?_, ?_, ?_, ?_⟩
  · simp only [ethType, word16, hbyte 12 (by decide), hbyte (12 + 1) (by decide)]
  · simp only [headerRight, word16, hbyte 14 (by decide), hbyte (14 + 1) (by decide),
      hbyte 16 (by decide), hbyte (16 + 1) (by decide), hbyte 18 (by decide), hbyte 19 (by decide)]
  · simp only [shwaddr, ethAddrAt, hbyte 22 (by decide), hbyte (22 + 1) (by decide),
      hbyte (22 + 2) (by decide), hbyte (22 + 3) (by decide), hbyte (22 + 4) (by decide),
      hbyte (22 + 5) (by decide)]
  · simp only [sipaddr, word32, word16, hbyte 28 (by decide), hbyte (28 + 1) (by decide),
      hbyte (28 + 2) (by decide), hbyte (28 + 2 + 1) (by decide)]
  · simp only [dipaddr, word32, word16, hbyte 38 (by decide), hbyte (38 + 1) (by decide),
      hbyte (38 + 2) (by decide), hbyte (38 + 2 + 1) (by decide)]
  · simp only [opcode, word16, hbyte 20 (by decide), hbyte (20 + 1) (by decide)]

theorem byteAt_store {n : ℕ} (hn : sizeofEtharpPacket ≤ n) (offset : ℕ) {buf src : List U8} {len : ℕ}
    (hbuf : buf.length = n) (hsrc : src.length = len) (hle : offset + len ≤ sizeofEtharpPacket) :
    (memcpyAt buf offset src).length = n ∧
      (∀ i, offset ≤ i ∧ i < offset + len →
        byteAt (memcpyAt buf offset src) i = byteAt src (i - offset)) ∧
      ∀ i, i < offset ∨ offset + len ≤ i → byteAt (memcpyAt buf offset src) i = byteAt buf i := by
  have hfits : offset + src.length ≤ buf.length := by omega
  refine ⟨(length_memcpyAt hfits).trans hbuf, fun i hi => ?_, fun i hi => ?_⟩
  · rw [byteAt, getElem?_memcpyAt hfits, hsrc, if_pos hi]
    rfl
  · rw [byteAt, getElem?_memcpyAt hfits, hsrc, if_neg (by omega)]
    rfl

theorem replyPacket_bytes (netif : EtharpNetif) {bs : List U8}
    (h : sizeofEtharpPacket ≤ bs.length) : (replyPacket netif bs).length = bs.length ∧
    (∀ i, 12 ≤ i ∧ i < 20 → byteAt (replyPacket netif bs) i = byteAt bs i) ∧
      (∀ i < 2, byteAt (replyPacket netif bs) (20 + i) = byteAt (unpack [htons arpReply]) i) ∧
      (∀ i < 6, byteAt (replyPacket netif bs) (22 + i) = byteAt netif.hwaddr.bytes i) ∧
      (∀ i < 4, byteAt (replyPacket netif bs) (28 + i) = byteAt (addressBytes netif.ipAddr) i) ∧
      ∀ i < 4, byteAt (replyPacket netif bs) (38 + i) = byteAt (addressBytes (sipaddr bs)) i := by
  obtain ⟨h1, new1, old1⟩ := byteAt_store h 20 rfl (length_unpack [htons arpReply]) (by decide)
  set b1 := memcpyAt bs 20 (unpack [htons arpReply])
  have hsip : sipaddr b1 = sipaddr bs := by
    rw [sipaddr, sipaddr, word32, word32, word16, word16, word16, word16, old1, old1, old1, old1]
    all_goals simp
  have hip (a : U32) : (addressBytes a).length = 4 := rfl
  have hmac (m : EthAddr) : m.bytes.length = 6 := rfl
  obtain ⟨h2, new2, old2⟩ := byteAt_store h 38 h1 (hip (sipaddr b1)) (by decide)
  set b2 := memcpyAt b1 38 (addressBytes (sipaddr b1))
  obtain ⟨h3, new3, old3⟩ := byteAt_store h 28 h2 (hip netif.ipAddr) (by decide)
  set b3 := memcpyAt b2 28 (addressBytes netif.ipAddr)
  obtain ⟨h4, -, old4⟩ := byteAt_store h 32 h3 (hmac (shwaddr b3)) (by decide)
  set b4 := memcpyAt b3 32 (shwaddr b3).bytes
  obtain ⟨h5, -, old5⟩ := byteAt_store h 0 h4 (hmac (shwaddr b4)) (by decide)
  set b5 := memcpyAt b4 0 (shwaddr b4).bytes
  obtain ⟨h6, new6, old6⟩ := byteAt_store h 22 h5 (hmac netif.hwaddr) (by decide)
  set b6 := memcpyAt b5 22 netif.hwaddr.bytes
  obtain ⟨h7, -, old7⟩ := byteAt_store h 6 h6 (hmac netif.hwaddr) (by decide)
  have hreply : replyPacket netif bs = memcpyAt b6 6 netif.hwaddr.bytes := rfl
  rw [hreply]
  refine ⟨h7, fun i hi => ?_, fun i hi => ?_, fun i hi => ?_, fun i hi => ?_, fun i hi => ?_⟩
  · rw [old7, old6, old5, old4, old3, old2, old1] <;> omega
  · rw [old7, old6, old5, old4, old3, old2, new1, Nat.add_sub_cancel_left] <;> simp <;> omega
  · rw [old7, new6, Nat.add_sub_cancel_left] <;> omega
  · rw [old7, old6, old5, old4, new3, Nat.add_sub_cancel_left] <;> omega
  · rw [old7, old6, old5, old4, old3, new2, Nat.add_sub_cancel_left, hsip] <;> omega

/-- The reply goes to the hardware address that asked, and speaks for the interface. -/
theorem replyPacket_fields (netif : EtharpNetif) {bs : List U8}
    (h : sizeofEtharpPacket ≤ bs.length) :
    let reply := replyPacket netif bs
    reply.length = bs.length ∧ ethType reply = ethType bs ∧ headerRight reply = headerRight bs ∧
      shwaddr reply = netif.hwaddr ∧ sipaddr reply = netif.ipAddr ∧
        dipaddr reply = sipaddr bs ∧ opcode reply = htons arpReply := by
  obtain ⟨hlen, hkept, hop, hmac, hsip, hdip⟩ := replyPacket_bytes netif h
  intro reply
  refine ⟨hlen, ?_, ?_, ?_, ?_, ?_, ?_⟩
  · rw [ethType, ethType, word16, word16, hkept, hkept] <;> omega
  · simp only [headerRight, word16]
    rw [hkept 14 (by omega), hkept 15 (by omega), hkept 16 (by omega), hkept 17 (by omega),
      hkept 18 (by omega), hkept 19 (by omega)]
  · simp only [shwaddr, ethAddrAt]
    rw [hmac 0 (by omega), hmac 1 (by omega), hmac 2 (by omega), hmac 3 (by omega),
      hmac 4 (by omega), hmac 5 (by omega)]
    rfl
  · simp only [sipaddr, word32, word16]
    rw [hsip 0 (by omega), hsip 1 (by omega), hsip 2 (by omega), hsip 3 (by omega)]
    exact ofBytes_address _
  · simp only [dipaddr, word32, word16]
    rw [hdip 0 (by omega), hdip 1 (by omega), hdip 2 (by omega), hdip 3 (by omega)]
    exact ofBytes_address _
  · simp only [opcode, word16]
    rw [hop 0 (by omega), hop 1 (by omega)]
    exact low_high_eq _

end EnvirMonitor.Arp
