import EnvirMonitor.Machine.EndAround

/-! The internet checksum as `inet_chksum.c` computes it: two bytes at a time from any
address, over a chain of buffers of any lengths, with the pseudo header of TCP and UDP. -/

namespace EnvirMonitor.Lwip
open Machine

def foldU32 (u : U32) : U32 := (u >>> 16) + (u &&& 0xFFFF)

def swapBytesInWord (w : U32) : U32 := (w &&& 0xFF) <<< 8 ||| (w &&& 0xFF00) >>> 8

def htons (n : U16) : U16 := (n &&& 0xFF) <<< 8 ||| (n &&& 0xFF00) >>> 8

/-- The loop that adds the bulk of the data, with the byte that it leaves over. -/
def addWords : U32 → List U8 → U32 × List U8
  | sum, lo :: hi :: data => addWords (sum + (ofBytes lo hi).setWidth 32) data
  | sum, data => (sum, data)

/-- `lwip_standard_chksum` of the bytes at an address. -/
def lwipStandardChksum (dataptr : U32) (data : List U8) : U16 :=
  let odd := dataptr &&& 1 != 0
  -- an odd first byte goes to the high half of `t`, a byte left over to its low half
  let high := if odd then data.headD 0 else 0
  let (sum, left) := addWords 0 (if odd then data.tail else data)
  let t := ofBytes (left.headD 0) high
  let sum := foldU32 (foldU32 (sum + t.setWidth 32))
  let sum := if odd then swapBytesInWord sum else sum
  sum.setWidth 16

/-- The payload of one buffer of a chain and its address. -/
structure Piece where
  payload : U32
  bytes : List U8

def chksumPieces : List Piece → U32 → Bool → U32 × Bool
  | [], acc, swapped => (acc, swapped)
  | q :: rest, acc, swapped =>
    let acc := foldU32 (acc + (lwipStandardChksum q.payload q.bytes).setWidth 32)
    if q.bytes.length % 2 ≠ 0 then chksumPieces rest (swapBytesInWord acc) (!swapped)
    else chksumPieces rest acc swapped

def chksumChain (p : List Piece) : U32 :=
  let (acc, swapped) := chksumPieces p 0 false
  if swapped then swapBytesInWord acc else acc

def inetChksumPbuf (p : List Piece) : U16 := ~~~((chksumChain p &&& 0xFFFF).setWidth 16)

/-- `inet_chksum_pseudo`, with the addresses as they lie in memory. -/
def inetChksumPseudo (p : List Piece) (src dest : U32) (proto : U8) (protoLen : U16) : U16 :=
  let acc := chksumChain p
  let acc := acc + (src &&& 0xFFFF)
  let acc := acc + ((src >>> 16) &&& 0xFFFF)
  let acc := acc + (dest &&& 0xFFFF)
  let acc := acc + ((dest >>> 16) &&& 0xFFFF)
  let acc := acc + (htons (proto.setWidth 16)).setWidth 32
  let acc := acc + (htons protoLen).setWidth 32
  ~~~((foldU32 (foldU32 acc) &&& 0xFFFF).setWidth 16)

def inetChksum (dataptr : U32) (data : List U8) : U16 := ~~~(lwipStandardChksum dataptr data)

/-! ## Words and their values -/

theorem foldU32_toNat (u : U32) : (foldU32 u).toNat = u.toNat / 65536 + u.toNat % 65536 := by
  have hlow : (u &&& 0xFFFF).toNat = u.toNat % 65536 := by
    rw [BitVec.toNat_and]
    exact Nat.and_two_pow_sub_one_eq_mod u.toNat 16
  have hhigh : (u >>> 16).toNat = u.toNat / 65536 := by
    rw [BitVec.toNat_ushiftRight, Nat.shiftRight_eq_div_pow]
  have := u.isLt
  rw [foldU32, BitVec.toNat_add, hlow, hhigh]
  omega

theorem foldU32_endAround (u : U32) : EndAround wordMax (foldU32 u).toNat u.toNat := by
  rw [foldU32_toNat]
  exact endAround_split u.toNat

theorem foldU32_le {u : U32} (h : u.toNat ≤ 2 * wordMax) : (foldU32 u).toNat ≤ wordMax := by
  rw [foldU32_toNat]
  simp only [wordMax] at *
  omega

theorem foldU32_twice_le (u : U32) : (foldU32 (foldU32 u)).toNat ≤ wordMax := by
  have := u.isLt
  apply foldU32_le
  rw [foldU32_toNat]
  simp only [wordMax]
  omega

theorem swapBytesInWord_toNat {w : U32} (h : w.toNat ≤ wordMax) :
    (swapBytesInWord w).toNat = w.toNat % 256 * 256 + w.toNat / 256 := by
  have hlow : (w &&& 0xFF).toNat = w.toNat % 256 := by
    rw [BitVec.toNat_and]
    exact Nat.and_two_pow_sub_one_eq_mod w.toNat 8
  have hhigh : ((w &&& 0xFF00) >>> 8).toNat = w.toNat / 256 := by
    have hbits : (w &&& 0xFF00) >>> 8 = (w >>> 8) &&& 0xFF := by
      ext i hi
      simp only [BitVec.getElem_ushiftRight, BitVec.getElem_and, BitVec.getLsbD_and]
      interval_cases i <;> simp
    rw [hbits, BitVec.toNat_and, BitVec.toNat_ushiftRight, Nat.shiftRight_eq_div_pow]
    refine (Nat.and_two_pow_sub_one_eq_mod (w.toNat / 2 ^ 8) 8).trans (Nat.mod_eq_of_lt ?_)
    simp only [wordMax] at h
    omega
  have hshift : ((w &&& 0xFF) <<< 8).toNat = (w.toNat % 256) <<< 8 := by
    rw [BitVec.toNat_shiftLeft, hlow, Nat.shiftLeft_eq]
    omega
  rw [swapBytesInWord, BitVec.toNat_or, hhigh, hshift,
    ← Nat.shiftLeft_add_eq_or_of_lt (by simp only [wordMax] at h; omega), Nat.shiftLeft_eq]

theorem swapBytesInWord_endAround {w : U32} (h : w.toNat ≤ wordMax) :
    EndAround wordMax (swapBytesInWord w).toNat (256 * w.toNat) := by
  rw [swapBytesInWord_toNat h]
  exact endAround_swap w.toNat

theorem swapBytesInWord_le {w : U32} (h : w.toNat ≤ wordMax) :
    (swapBytesInWord w).toNat ≤ wordMax := by
  rw [swapBytesInWord_toNat h]
  simp only [wordMax] at *
  omega

theorem htons_eq (n : U16) : htons n = ofBytes (highByte n) (lowByte n) := by
  ext i hi
  simp only [htons, ofBytes, highByte, lowByte]
  interval_cases i <;> simp

@[simp] theorem toNat_word32 (w : U16) : (w.setWidth 32).toNat = w.toNat := by
  have := w.isLt
  rw [BitVec.toNat_setWidth, Nat.mod_eq_of_lt (by omega)]

theorem toNat_word16 {w : U32} (h : w.toNat ≤ wordMax) : (w.setWidth 16).toNat = w.toNat := by
  rw [BitVec.toNat_setWidth]
  simp only [wordMax] at h
  omega

/-! ## One buffer -/

theorem addWords_spec (sum : U32) (data : List U8)
    (hfit : sum.toNat + wordMax * (data.length / 2) < 2 ^ 32) :
    (addWords sum data).1.toNat ≤ sum.toNat + wordMax * (data.length / 2) ∧
      (addWords sum data).2.length = data.length % 2 ∧
      EndAround wordMax ((addWords sum data).1.toNat + leValue (addWords sum data).2)
        (sum.toNat + leValue data) := by
  induction sum, data using addWords.induct with
  | case1 sum lo hi data ih =>
    have hlt := (ofBytes lo hi).isLt
    have hhalf : (lo :: hi :: data).length / 2 = data.length / 2 + 1 := by
      simp only [List.length_cons]
      omega
    rw [hhalf] at hfit ⊢
    simp only [wordMax] at hfit
    have hsum : (sum + (ofBytes lo hi).setWidth 32).toNat = sum.toNat + (ofBytes lo hi).toNat := by
      rw [BitVec.toNat_add, toNat_word32]
      omega
    obtain ⟨hle, hlen, hvalue⟩ := ih (by simp only [wordMax]; omega)
    rw [addWords]
    rw [hsum] at hle hvalue
    refine ⟨by simp only [wordMax] at *; omega, by rw [hlen]; simp only [List.length_cons]; omega,
      hvalue.trans ?_⟩
    have hcons : leValue (lo :: hi :: data) = leValue [lo, hi] + 256 ^ 2 * leValue data :=
      leValue_append [lo, hi] data
    rw [hcons, leValue_take_two, Nat.add_assoc]
    exact (EndAround.refl ..).add ((EndAround.refl ..).add (endAround_even rfl _).symm)
  | case2 sum data hshort =>
    have hlen : data.length < 2 := by
      rcases data with - | ⟨lo, - | ⟨hi, data⟩⟩
      · exact Nat.zero_lt_two
      · exact Nat.one_lt_two
      · exact absurd rfl (hshort lo hi data)
    rw [addWords.eq_2 _ _ hshort]
    exact ⟨Nat.le_add_right .., (Nat.mod_eq_of_lt hlen).symm, EndAround.refl ..⟩

theorem leValue_short {left : List U8} (h : left.length < 2) :
    leValue left = (left.headD 0).toNat := by
  rcases left with - | ⟨b, - | ⟨c, left⟩⟩
  · rfl
  · simp [leValue_cons]
  · simp at h

theorem sumWords_endAround (data : List U8) (hlen : data.length ≤ 0x20000) (high : U8)
    (hodd : high ≠ 0 → data.length < 0x20000) :
    EndAround wordMax (foldU32 (foldU32 ((addWords 0 data).1 +
      (ofBytes ((addWords 0 data).2.headD 0) high).setWidth 32))).toNat
        (256 * high.toNat + leValue data) := by
  have hzero : (0 : U32).toNat = 0 := rfl
  obtain ⟨hle, hleft, hvalue⟩ := addWords_spec 0 data (by
    rw [hzero]
    simp only [wordMax]
    omega)
  rw [hzero, Nat.zero_add] at hle hvalue
  have ht := leValue_take_two ((addWords 0 data).2.headD 0) high
  rw [leValue_cons, leValue_cons, leValue_nil, ← leValue_short (by omega)] at ht
  have hthigh := high.isLt
  have htlow : leValue (addWords 0 data).2 < 256 := by
    rw [leValue_short (by omega)]
    exact BitVec.isLt _
  have hshort : data.length % 2 = 0 → leValue (addWords 0 data).2 = 0 := by
    intro heven
    rw [List.eq_nil_of_length_eq_zero (hleft.trans heven), leValue_nil]
  have hhigh : data.length = 0x20000 → high.toNat = 0 := by
    intro hlast
    by_contra hne
    exact absurd (hodd fun h => hne (by rw [h]; rfl)) (by omega)
  have hsum : ((addWords 0 data).1 + (ofBytes ((addWords 0 data).2.headD 0) high).setWidth 32).toNat =
      (addWords 0 data).1.toNat + (256 * high.toNat + leValue (addWords 0 data).2) := by
    rw [BitVec.toNat_add, toNat_word32, ← ht, Nat.mul_zero, Nat.add_zero,
      Nat.add_comm (leValue _)]
    simp only [wordMax] at hle
    exact Nat.mod_eq_of_lt (by omega)
  refine (foldU32_endAround _).trans ((foldU32_endAround _).trans ?_)
  rw [hsum, ← Nat.add_assoc, Nat.add_comm _ (256 * high.toNat), Nat.add_assoc]
  exact (EndAround.refl ..).add hvalue

/-- `lwip_standard_chksum` gives the value of the bytes, whatever their address. -/
theorem lwipStandardChksum_endAround (dataptr : U32) (data : List U8)
    (hlen : data.length ≤ 0x20000) :
    EndAround wordMax (lwipStandardChksum dataptr data).toNat (leValue data) := by
  rw [lwipStandardChksum]
  by_cases hodd : dataptr &&& 1 != 0
  · simp only [hodd, if_true]
    have hrest : data.tail.length ≤ data.length := by simp
    have hsum := sumWords_endAround data.tail (by omega) (data.headD 0) (by
      intro hne
      cases data with
      | nil => exact absurd rfl hne
      | cons b data => simp only [List.tail_cons, List.length_cons] at *; omega)
    have hle := foldU32_twice_le ((addWords 0 data.tail).1 +
      (ofBytes ((addWords 0 data.tail).2.headD 0) (data.headD 0)).setWidth 32)
    rw [toNat_word16 (swapBytesInWord_le hle)]
    refine (swapBytesInWord_endAround hle).trans ((hsum.mul_left (by decide)).trans ?_)
    have hvalue : leValue data = (data.headD 0).toNat + 256 * leValue data.tail := by
      cases data with
      | nil => rfl
      | cons b data => exact leValue_cons b data
    rw [hvalue, Nat.mul_add, ← Nat.mul_assoc]
    exact (endAround_even (n := 2) rfl _).add (EndAround.refl ..)
  · simp only [hodd, if_false, Bool.false_eq_true]
    have hsum := sumWords_endAround data hlen 0 fun h => absurd rfl h
    rw [toNat_word16 (foldU32_twice_le _)]
    have hzero : 256 * (0 : U8).toNat + leValue data = leValue data := by
      show 256 * 0 + leValue data = _
      omega
    rwa [hzero] at hsum

/-! ## A chain of buffers -/

def chainBytes (p : List Piece) : List U8 := p.flatMap Piece.bytes

/-- The length of a buffer is a `u16_t`. -/
def ShortPieces (p : List Piece) : Prop := ∀ q ∈ p, q.bytes.length ≤ wordMax

instance (p : List Piece) : Decidable (ShortPieces p) := inferInstanceAs (Decidable (∀ q ∈ p, _))

/-- `acc` is the value of the bytes so far, shifted by a byte when they are odd in number. -/
theorem chksumPieces_endAround {p : List Piece} (hp : ShortPieces p) {acc : U32} {swapped : Bool}
    (before : List U8) (hacc : acc.toNat ≤ wordMax)
    (hvalue : EndAround wordMax acc.toNat (256 ^ before.length * leValue before))
    (hswapped : swapped = decide (before.length % 2 ≠ 0)) :
    (chksumPieces p acc swapped).1.toNat ≤ wordMax ∧
      EndAround wordMax (chksumPieces p acc swapped).1.toNat
        (256 ^ (before ++ chainBytes p).length * leValue (before ++ chainBytes p)) ∧
      (chksumPieces p acc swapped).2 = decide ((before ++ chainBytes p).length % 2 ≠ 0) := by
  induction p generalizing acc swapped before with
  | nil =>
    rw [chainBytes, List.flatMap_nil, List.append_nil]
    exact ⟨hacc, hvalue, hswapped⟩
  | cons q rest ih =>
    obtain ⟨hq, hrest⟩ := List.forall_mem_cons.mp hp
    have hbytes : before ++ chainBytes (q :: rest) = (before ++ q.bytes) ++ chainBytes rest := by
      rw [chainBytes, List.flatMap_cons, List.append_assoc]
      rfl
    have hchk := lwipStandardChksum_endAround q.payload q.bytes (hq.trans (by decide))
    have hword := (lwipStandardChksum q.payload q.bytes).isLt
    have hadd : (acc + (lwipStandardChksum q.payload q.bytes).setWidth 32).toNat =
        acc.toNat + (lwipStandardChksum q.payload q.bytes).toNat := by
      rw [BitVec.toNat_add, toNat_word32]
      simp only [wordMax] at hacc
      exact Nat.mod_eq_of_lt (by omega)
    set acc₁ := foldU32 (acc + (lwipStandardChksum q.payload q.bytes).setWidth 32) with hacc₁
    have hle : acc₁.toNat ≤ wordMax := foldU32_le (by
      rw [hadd]
      simp only [wordMax] at *
      omega)
    have hnew : EndAround wordMax acc₁.toNat
        (256 ^ before.length * leValue (before ++ q.bytes)) := by
      refine (foldU32_endAround _).trans ?_
      rw [hadd, leValue_append, Nat.mul_add, ← Nat.mul_assoc, ← Nat.pow_add]
      refine hvalue.add (hchk.trans (endAround_even (by omega) _).symm)
    have hlength : (before ++ q.bytes).length = q.bytes.length + before.length := by
      rw [List.length_append, Nat.add_comm]
    rw [chksumPieces, hbytes]
    split_ifs with hodd
    · refine ih hrest _ (swapBytesInWord_le hle) ?_ ?_
      · refine (swapBytesInWord_endAround hle).trans ((hnew.mul_left (by decide)).trans ?_)
        rw [hlength, Nat.pow_add, Nat.mul_assoc]
        obtain ⟨k, hk⟩ : ∃ k, q.bytes.length = 2 * k + 1 := ⟨q.bytes.length / 2, by omega⟩
        rw [hk, Nat.pow_succ, Nat.mul_comm _ 256, Nat.mul_assoc]
        exact ((endAround_even (Nat.mul_mod_right 2 k) _).symm).mul_left (by decide)
      · rw [hswapped, hlength]
        by_cases hbefore : before.length % 2 = 0 <;> simp [hbefore] <;> omega
    · refine ih hrest _ hle ?_ ?_
      · rw [hlength, Nat.pow_add, Nat.mul_assoc]
        exact hnew.trans (endAround_even (by omega) _).symm
      · rw [hswapped, hlength, Nat.add_mod, show q.bytes.length % 2 = 0 by omega]
        simp

theorem chksumChain_endAround {p : List Piece} (hp : ShortPieces p) :
    (chksumChain p).toNat ≤ wordMax ∧
      EndAround wordMax (chksumChain p).toNat (leValue (chainBytes p)) := by
  obtain ⟨hle, hvalue, hswapped⟩ := @chksumPieces_endAround p hp 0 false [] (by decide)
    (EndAround.refl ..) rfl
  rw [List.nil_append] at hvalue hswapped
  rw [chksumChain]
  simp only [hswapped]
  split_ifs with hodd
  · refine ⟨swapBytesInWord_le hle, (swapBytesInWord_endAround hle).trans ?_⟩
    refine (hvalue.mul_left (by decide)).trans ?_
    rw [← Nat.mul_assoc, ← Nat.pow_succ']
    exact endAround_even (by simp only [decide_eq_true_eq] at hodd; omega) _
  · exact ⟨hle, hvalue.trans (endAround_even (by simpa using hodd) _)⟩

/-! ## What the checksum says -/

def internetChecksum (bs : List U8) : U16 := ~~~(onesSum (pack bs))

theorem toNat_complement (w : U16) : (~~~w).toNat = wordMax - w.toNat := BitVec.toNat_not

theorem complement_eq {w : U16} {bs : List U8} (h : EndAround wordMax w.toNat (leValue bs)) :
    ~~~w = internetChecksum bs := by
  have hw := w.isLt
  have hsum := (onesSum (pack bs)).isLt
  rw [internetChecksum, BitVec.toNat_inj.mp ((h.trans (onesSum_pack bs).symm).eq_of_le
    (by simp only [wordMax]; omega) (by simp only [wordMax]; omega))]

/-- A checksum of zero: the bytes are not all zero and their value is a multiple. -/
theorem internetChecksum_eq_zero_iff (bs : List U8) :
    internetChecksum bs = 0 ↔ leValue bs ≠ 0 ∧ wordMax ∣ leValue bs := by
  have hlt := (onesSum (pack bs)).isLt
  rw [← (onesSum_pack bs).eq_top_iff (by simp only [wordMax]; omega) (by decide), internetChecksum,
    ← BitVec.toNat_inj, toNat_complement]
  have hzero : (0 : U16).toNat = 0 := rfl
  rw [hzero]
  simp only [wordMax]
  omega

theorem inetChksum_eq (dataptr : U32) {data : List U8} (hlen : data.length ≤ 0x20000) :
    inetChksum dataptr data = internetChecksum data :=
  complement_eq (lwipStandardChksum_endAround dataptr data hlen)

theorem low16_toNat {u : U32} (h : u.toNat ≤ wordMax) :
    ((u &&& 0xFFFF).setWidth 16).toNat = u.toNat := by
  have hmask : (u &&& 0xFFFF).setWidth 16 = u.setWidth 16 := by
    rw [BitVec.setWidth_and]
    exact BitVec.and_allOnes
  rw [hmask, toNat_word16 h]

theorem inetChksumPbuf_eq {p : List Piece} (hp : ShortPieces p) :
    inetChksumPbuf p = internetChecksum (chainBytes p) := by
  obtain ⟨hle, hvalue⟩ := chksumChain_endAround hp
  rw [inetChksumPbuf]
  apply complement_eq
  rw [low16_toNat hle]
  exact hvalue

/-! ## The pseudo header -/

/-- The four bytes of an address as they lie in memory. -/
def addressBytes (a : U32) : List U8 :=
  [a.setWidth 8, (a >>> 8).setWidth 8, (a >>> 16).setWidth 8, (a >>> 24).setWidth 8]

def pseudoHeader (src dest : U32) (proto : U8) (protoLen : U16) : List U8 :=
  addressBytes src ++ addressBytes dest ++ [0, proto, highByte protoLen, lowByte protoLen]

theorem addressBytes_value (a : U32) :
    leValue (addressBytes a) = a.toNat % 65536 + 65536 * (a.toNat / 65536) := by
  have := a.isLt
  simp only [addressBytes, leValue_cons, leValue_nil, BitVec.toNat_setWidth,
    BitVec.toNat_ushiftRight, Nat.shiftRight_eq_div_pow]
  omega

theorem addressBytes_endAround (a : U32) :
    EndAround wordMax ((a &&& 0xFFFF).toNat + ((a >>> 16) &&& 0xFFFF).toNat)
      (leValue (addressBytes a)) := by
  have := a.isLt
  have hlow : (a &&& 0xFFFF).toNat = a.toNat % 65536 := by
    rw [BitVec.toNat_and]
    exact Nat.and_two_pow_sub_one_eq_mod a.toNat 16
  have hhigh : ((a >>> 16) &&& 0xFFFF).toNat = a.toNat / 65536 := by
    rw [BitVec.toNat_and, BitVec.toNat_ushiftRight, Nat.shiftRight_eq_div_pow]
    refine (Nat.and_two_pow_sub_one_eq_mod (a.toNat / 2 ^ 16) 16).trans (Nat.mod_eq_of_lt ?_)
    omega
  rw [hlow, hhigh, addressBytes_value]
  exact (EndAround.refl ..).add (endAround_even (n := 2) rfl _).symm

theorem htons_value (n : U16) : (htons n).toNat = leValue [highByte n, lowByte n] := by
  rw [htons_eq, leValue_take_two]

theorem htons_proto (proto : U8) : (htons (proto.setWidth 16)).toNat = leValue [0, proto] := by
  rw [htons_value, lowByte_setWidth]
  congr 2
  ext i hi
  simp only [highByte]
  interval_cases i <;> simp

theorem toNat_add_words {x a b c d e f : U32} (hx : x.toNat ≤ wordMax) (ha : a.toNat ≤ wordMax)
    (hb : b.toNat ≤ wordMax) (hc : c.toNat ≤ wordMax) (hd : d.toNat ≤ wordMax)
    (he : e.toNat ≤ wordMax) (hf : f.toNat ≤ wordMax) : (x + a + b + c + d + e + f).toNat =
      a.toNat + b.toNat + (c.toNat + d.toNat) + (e.toNat + f.toNat) + x.toNat := by
  simp only [wordMax] at *
  simp only [BitVec.toNat_add]
  omega

/-- `inet_chksum_pseudo` is the checksum of the pseudo header and the bytes of the chain,
however these are cut into buffers and wherever the buffers lie. -/
theorem inetChksumPseudo_eq {p : List Piece} (hp : ShortPieces p) (src dest : U32) (proto : U8)
    (protoLen : U16) : inetChksumPseudo p src dest proto protoLen =
      internetChecksum (pseudoHeader src dest proto protoLen ++ chainBytes p) := by
  obtain ⟨hle, hvalue⟩ := chksumChain_endAround hp
  have hsrc := addressBytes_endAround src
  have hdest := addressBytes_endAround dest
  have hword (a : U32) : (a &&& 0xFFFF).toNat ≤ wordMax := by
    rw [BitVec.toNat_and]
    exact Nat.and_le_right
  have hsmall (w : U16) : (w.setWidth 32).toNat ≤ wordMax := by
    have := w.isLt
    rw [toNat_word32]
    simp only [wordMax]
    omega
  rw [inetChksumPseudo]
  apply complement_eq
  rw [low16_toNat (foldU32_twice_le _)]
  refine (foldU32_endAround _).trans ((foldU32_endAround _).trans ?_)
  rw [toNat_add_words hle (hword src) (hword _) (hword dest) (hword _) (hsmall _) (hsmall _),
    toNat_word32, toNat_word32, leValue_append]
  have hheader : (pseudoHeader src dest proto protoLen).length = 12 := rfl
  refine EndAround.add ?_ (hvalue.trans (endAround_even (by rw [hheader]) _).symm)
  rw [pseudoHeader, leValue_append, leValue_append]
  refine EndAround.add ?_ ?_
  · exact hsrc.add (hdest.trans (endAround_even (n := 4) rfl _).symm)
  · rw [htons_proto, htons_value]
    have hsplit : leValue [0, proto, highByte protoLen, lowByte protoLen] =
        leValue [0, proto] + 256 ^ 2 * leValue [highByte protoLen, lowByte protoLen] :=
      leValue_append [0, proto] _
    rw [hsplit]
    refine EndAround.trans ?_ (endAround_even (n := 8) rfl _).symm
    exact (EndAround.refl ..).add (endAround_even (n := 2) rfl _).symm

end EnvirMonitor.Lwip
