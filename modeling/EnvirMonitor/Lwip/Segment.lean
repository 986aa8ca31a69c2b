import EnvirMonitor.Lwip.Chain
import EnvirMonitor.Lwip.Checksum

/-! The checksum of a TCP segment from the buffers of the sender to those of the receiver,
which cut the bytes at other places and hold them at other addresses. -/

namespace EnvirMonitor.Lwip
open Machine

def ipProtoTcp : U8 := 6

def totLen (p : List Piece) : U16 := BitVec.ofNat 16 (chainBytes p).length

def storeWord (offset : ℕ) (w : U16) : List Piece → List Piece
  | [] => []
  | q :: rest => { q with bytes := memcpyAt q.bytes offset [lowByte w, highByte w] } :: rest

/-- What `tcp_output_segment` does about the checksum, at offset 16 of the header. -/
def tcpOutputChksum (p : List Piece) (localIp remoteIp : U32) : List Piece :=
  let p := storeWord 16 0 p
  storeWord 16 (inetChksumPseudo p localIp remoteIp ipProtoTcp (totLen p)) p

def tcpInputAccepts (p : List Piece) (src dest : U32) : Bool :=
  inetChksumPseudo p src dest ipProtoTcp (totLen p) == 0

structure HoldsSegment (p : List Piece) : Prop where
  header : ∃ q rest, p = q :: rest ∧ 18 ≤ q.bytes.length
  total : (chainBytes p).length ≤ wordMax

theorem length_chainBytes_cons (q : Piece) (rest : List Piece) :
    (chainBytes (q :: rest)).length = q.bytes.length + (chainBytes rest).length := by
  rw [chainBytes, List.flatMap_cons, List.length_append]
  rfl

theorem shortPieces_of_total {p : List Piece} (h : (chainBytes p).length ≤ wordMax) :
    ShortPieces p := by
  induction p with
  | nil => exact List.forall_mem_nil _
  | cons q rest ih =>
    rw [length_chainBytes_cons] at h
    exact List.forall_mem_cons.mpr ⟨by omega, ih (by omega)⟩

theorem chainBytes_storeWord {p : List Piece} (h : HoldsSegment p) (w : U16) :
    chainBytes (storeWord 16 w p) = (chainBytes p).take 16 ++ [lowByte w, highByte w] ++
      (chainBytes p).drop 18 := by
  obtain ⟨⟨q, rest, rfl, hq⟩, -⟩ := h
  have hcons (bytes : List U8) (q : Piece) : chainBytes ({ q with bytes := bytes } :: rest) =
      bytes ++ chainBytes rest := rfl
  rw [storeWord, hcons, memcpyAt, hcons q.bytes q, List.take_append_of_le_length (by omega),
    List.drop_append_of_le_length (by omega), List.append_assoc]
  rfl

theorem length_storeWord {p : List Piece} (h : HoldsSegment p) (w : U16) :
    (chainBytes (storeWord 16 w p)).length = (chainBytes p).length := by
  obtain ⟨⟨q, rest, rfl, hq⟩, -⟩ := h
  rw [storeWord, length_chainBytes_cons, length_chainBytes_cons,
    length_memcpyAt (by simp only [List.length_cons, List.length_nil]; omega)]

theorem HoldsSegment.storeWord {p : List Piece} (h : HoldsSegment p) (w : U16) :
    HoldsSegment (storeWord 16 w p) := by
  have htotal := h.total
  refine ⟨?_, by rw [length_storeWord h]; exact htotal⟩
  obtain ⟨⟨q, rest, rfl, hq⟩, -⟩ := h
  exact ⟨_, rest, rfl, by
    rw [length_memcpyAt (by simp only [List.length_cons, List.length_nil]; omega)]; exact hq⟩

theorem take_around (before after : List U8) (lo hi : U8) {n : ℕ} (h : before.length = n) :
    (before ++ [lo, hi] ++ after).take n = before := by
  rw [List.append_assoc, List.take_left' h]

theorem drop_around (before after : List U8) (lo hi : U8) {n : ℕ} (h : before.length + 2 = n) :
    (before ++ [lo, hi] ++ after).drop n = after :=
  List.drop_left' (by rw [List.length_append]; exact h)

theorem leValue_around (before after : List U8) (lo hi : U8) :
    leValue (before ++ [lo, hi] ++ after) = leValue before +
      256 ^ before.length * ((ofBytes lo hi).toNat + 65536 * leValue after) := by
  have htwo : 256 ^ [lo, hi].length = 65536 := by norm_num
  rw [List.append_assoc, leValue_append, leValue_append, leValue_take_two, htwo]

/-- The word at an even offset that makes the checksum of all bytes zero. -/
theorem internetChecksum_fill {before : List U8} (after : List U8)
    (heven : before.length % 2 = 0) :
    internetChecksum (before ++ [lowByte (internetChecksum (before ++ [0, 0] ++ after)),
      highByte (internetChecksum (before ++ [0, 0] ++ after))] ++ after) = 0 := by
  set bs := before ++ [0, 0] ++ after
  set c := internetChecksum bs
  have hsum := onesSum_pack bs
  have hlt := (onesSum (pack bs)).isLt
  have hc : c.toNat = wordMax - (onesSum (pack bs)).toNat := toNat_complement _
  have hvalue : leValue (before ++ [lowByte c, highByte c] ++ after) =
      leValue bs + 256 ^ before.length * c.toNat := by
    have hzero : (ofBytes (0 : U8) 0).toNat = 0 := rfl
    rw [leValue_around, leValue_around, low_high_eq, hzero]
    ring
  have hall : EndAround wordMax (leValue (before ++ [lowByte c, highByte c] ++ after))
      ((onesSum (pack bs)).toNat + c.toNat) := by
    rw [hvalue]
    exact hsum.symm.add (endAround_even heven _)
  rw [hc, Nat.add_sub_cancel' (by simp only [wordMax]; omega)] at hall
  rw [internetChecksum_eq_zero_iff]
  refine ⟨fun h => absurd (hall.zero_iff.mp h) (by decide), ?_⟩
  exact (hall.modEq.dvd_iff dvd_rfl).mpr dvd_rfl

/-- Two words that a checksum does not tell apart. -/
def Confused (w w' : U16) : Prop := w = w' ∨ w = 0 ∧ w' = 0xFFFF ∨ w = 0xFFFF ∧ w' = 0

instance (w w' : U16) : Decidable (Confused w w') := inferInstanceAs (Decidable (_ ∨ _))

theorem modEq_iff_confused (w w' : U16) : w.toNat ≡ w'.toNat [MOD wordMax] ↔ Confused w w' := by
  have hw := w.isLt
  have hw' := w'.isLt
  have hzero (x : U16) : x = 0 ↔ x.toNat = 0 := by rw [← BitVec.toNat_inj]; rfl
  have hones (x : U16) : x = 0xFFFF ↔ x.toNat = 65535 := by rw [← BitVec.toNat_inj]; rfl
  rw [Confused, ← BitVec.toNat_inj, hzero, hzero, hones, hones, Nat.ModEq]
  simp only [wordMax]
  omega

theorem internetChecksum_replace {before after : List U8} {lo hi lo' hi' : U8}
    (hvalid : internetChecksum (before ++ [lo, hi] ++ after) = 0)
    (hne : leValue (before ++ [lo', hi'] ++ after) ≠ 0) :
    internetChecksum (before ++ [lo', hi'] ++ after) = 0 ↔
      Confused (ofBytes lo hi) (ofBytes lo' hi') := by
  have hold := ((internetChecksum_eq_zero_iff _).mp hvalid).2
  rw [leValue_around] at hold
  have hcoprime : Nat.Coprime wordMax (256 ^ before.length) :=
    Nat.Coprime.pow_right _ (by decide)
  rw [internetChecksum_eq_zero_iff, and_iff_right hne, leValue_around, ← modEq_iff_confused]
  set a := leValue before
  set k := 256 ^ before.length
  have hzero : a + k * ((ofBytes lo hi).toNat + 65536 * leValue after) ≡ 0 [MOD wordMax] :=
    (Nat.modEq_zero_iff_dvd).mpr hold
  rw [← Nat.modEq_zero_iff_dvd]
  constructor
  · intro hnew
    have hsame := hzero.trans hnew.symm
    have hword := Nat.ModEq.cancel_left_of_coprime hcoprime (Nat.ModEq.add_left_cancel' a hsame)
    exact Nat.ModEq.add_right_cancel' _ hword
  · intro hword
    exact ((((hword.add_right _).mul_left k).add_left a).symm).trans hzero

/-! ## From the sender to the receiver -/

def summed (bs : List U8) (src dest : U32) : List U8 :=
  pseudoHeader src dest ipProtoTcp (BitVec.ofNat 16 bs.length) ++ bs

theorem tcpInputAccepts_iff {p : List Piece} (h : (chainBytes p).length ≤ wordMax)
    (src dest : U32) :
    tcpInputAccepts p src dest = true ↔ internetChecksum (summed (chainBytes p) src dest) = 0 := by
  rw [tcpInputAccepts, beq_iff_eq, inetChksumPseudo_eq (shortPieces_of_total h)]
  rfl

/-- The protocol number keeps the sum away from zero. -/
theorem leValue_summed_ne (bs : List U8) (src dest : U32) : leValue (summed bs src dest) ≠ 0 := by
  intro h
  have hproto := (leValue_eq_zero_iff _).mp h ipProtoTcp (by simp [summed, pseudoHeader])
  exact absurd hproto (by decide)

theorem chainBytes_tcpOutputChksum {p : List Piece} (h : HoldsSegment p) (localIp remoteIp : U32) :
    ∃ c : U16, chainBytes (tcpOutputChksum p localIp remoteIp) =
        (chainBytes p).take 16 ++ [lowByte c, highByte c] ++ (chainBytes p).drop 18 ∧
      internetChecksum (summed (chainBytes (tcpOutputChksum p localIp remoteIp))
        localIp remoteIp) = 0 := by
  have hzero := h.storeWord 0
  have hbytes := chainBytes_storeWord h 0
  have hlength : 18 ≤ (chainBytes p).length := by
    obtain ⟨⟨q, rest, rfl, hq⟩, -⟩ := h
    rw [length_chainBytes_cons]
    omega
  set c := inetChksumPseudo (storeWord 16 0 p) localIp remoteIp ipProtoTcp
    (totLen (storeWord 16 0 p)) with hc
  have hsent : chainBytes (tcpOutputChksum p localIp remoteIp) =
      (chainBytes p).take 16 ++ [lowByte c, highByte c] ++ (chainBytes p).drop 18 := by
    have htake : ((chainBytes p).take 16).length = 16 := by
      rw [List.length_take]
      omega
    rw [tcpOutputChksum, chainBytes_storeWord hzero, hbytes, take_around _ _ _ _ htake,
      drop_around _ _ _ _ (by rw [htake])]
  refine ⟨c, hsent, ?_⟩
  have htotal : (chainBytes (tcpOutputChksum p localIp remoteIp)).length = (chainBytes p).length := by
    rw [tcpOutputChksum, length_storeWord hzero, length_storeWord h]
  have hheader : (pseudoHeader localIp remoteIp ipProtoTcp
      (BitVec.ofNat 16 (chainBytes p).length) ++ (chainBytes p).take 16).length = 28 := by
    have htwelve : (pseudoHeader localIp remoteIp ipProtoTcp
      (BitVec.ofNat 16 (chainBytes p).length)).length = 12 := rfl
    rw [List.length_append, List.length_take, htwelve]
    omega
  have hfill := internetChecksum_fill ((chainBytes p).drop 18) (by rw [hheader])
  have hfield : internetChecksum (pseudoHeader localIp remoteIp ipProtoTcp
      (BitVec.ofNat 16 (chainBytes p).length) ++ (chainBytes p).take 16 ++ [0, 0] ++
        (chainBytes p).drop 18) = c := by
    rw [hc, inetChksumPseudo_eq (shortPieces_of_total hzero.total), hbytes, totLen,
      length_storeWord h]
    simp only [List.append_assoc]
    rfl
  rw [hfield] at hfill
  rw [summed, htotal, hsent]
  simpa only [List.append_assoc] using hfill

/-- The receiver accepts what was sent, in any buffers, and a segment in which two adjacent
bytes were changed exactly when a word of zeros became one of ones or the reverse. -/
theorem tcp_checksum_exchange {p p' : List Piece} (h : HoldsSegment p) {localIp remoteIp : U32}
    (before after : List U8) {lo hi lo' hi' : U8}
    (hsent : chainBytes (tcpOutputChksum p localIp remoteIp) = before ++ [lo, hi] ++ after)
    (hreceived : chainBytes p' = before ++ [lo', hi'] ++ after) :
    tcpInputAccepts p' localIp remoteIp = true ↔ Confused (ofBytes lo hi) (ofBytes lo' hi') := by
  obtain ⟨c, -, hvalid⟩ := chainBytes_tcpOutputChksum h localIp remoteIp
  have htotal : (chainBytes (tcpOutputChksum p localIp remoteIp)).length ≤ wordMax := by
    rw [tcpOutputChksum, length_storeWord (h.storeWord 0), length_storeWord h]
    exact h.total
  have hsame : (before ++ [lo', hi'] ++ after).length = (before ++ [lo, hi] ++ after).length := by
    simp
  rw [hsent] at hvalid htotal
  rw [tcpInputAccepts_iff (by rw [hreceived, hsame]; exact htotal), hreceived]
  have hne := leValue_summed_ne (before ++ [lo', hi'] ++ after) localIp remoteIp
  rw [summed, hsame] at hne ⊢
  rw [summed] at hvalid
  simp only [List.append_assoc] at hvalid hne ⊢
  rw [← List.append_assoc, ← List.append_assoc] at hvalid hne ⊢
  exact internetChecksum_replace hvalid hne

/-- A header with two bytes of data, held in two buffers by the receiver. -/
def sampleSegment : List Piece :=
  [⟨0x20001000, List.replicate 16 0x11 ++ [0xAA, 0xBB, 0, 0]⟩, ⟨0x20003001, [0x12, 0x34]⟩]

def sampleReceived : List Piece :=
  [⟨0x20005001, List.replicate 16 0x11 ++ [0xE1, 0xB5, 0]⟩, ⟨0x20006000, [0, 0x12, 0x35]⟩]

theorem tcp_checksum_exchange_sample :
    tcpInputAccepts sampleReceived 0x1E01A8C0 0x0201A8C0 = true ↔
      Confused (ofBytes 0x12 0x34) (ofBytes 0x12 0x35) :=
  tcp_checksum_exchange (p := sampleSegment) ⟨⟨_, _, rfl, by decide⟩, by decide⟩
    (List.replicate 16 0x11 ++ [0xE1, 0xB5, 0, 0]) [] (by decide) (by decide)

end EnvirMonitor.Lwip
