import EnvirMonitor.Machine.Words

/-! Bytes carried two at a time over a 16-bit port, low byte first. An odd last byte
travels alone in its word. -/

namespace EnvirMonitor.Machine

def lowByte (w : U16) : U8 := w.setWidth 8

def highByte (w : U16) : U8 := (w >>> 8).setWidth 8

def ofBytes (lo hi : U8) : U16 := hi.setWidth 16 <<< 8 ||| lo.setWidth 16

@[simp] theorem lowByte_ofBytes (lo hi : U8) : lowByte (ofBytes lo hi) = lo := by
  ext i h
  simp [lowByte, ofBytes]

@[simp] theorem highByte_ofBytes (lo hi : U8) : highByte (ofBytes lo hi) = hi := by
  ext i h
  have h16 : 8 + i < 16 := by omega
  have hi16 : i < 16 := by omega
  simp [highByte, ofBytes, h16, hi16, BitVec.getLsbD_eq_getElem h]

@[simp] theorem lowByte_setWidth (b : U8) : lowByte (b.setWidth 16) = b := by
  simp [lowByte]

def pack : List U8 → List U16
  | [] => []
  | [lo] => [lo.setWidth 16]
  | lo :: hi :: bs => ofBytes lo hi :: pack bs

def unpack (ws : List U16) : List U8 := ws.flatMap fun w => [lowByte w, highByte w]

theorem length_pack (bs : List U8) : (pack bs).length = (bs.length + 1) / 2 := by
  induction bs using pack.induct with
  | case1 => rfl
  | case2 lo => simp [pack]
  | case3 lo hi bs ih =>
    simp only [pack, List.length_cons, ih]
    omega

@[simp] theorem length_unpack (ws : List U16) : (unpack ws).length = 2 * ws.length := by
  simp [unpack, Nat.mul_comm]

theorem unpack_append (ws ws' : List U16) : unpack (ws ++ ws') = unpack ws ++ unpack ws' :=
  List.flatMap_append

theorem unpack_pack (bs : List U8) : (unpack (pack bs)).take bs.length = bs := by
  induction bs using pack.induct with
  | case1 => rfl
  | case2 lo => simp [pack, unpack]
  | case3 lo hi bs ih => simpa [pack, unpack] using ih

theorem lowByte_and_mask (w : U16) : lowByte (w &&& 0xFF) = lowByte w := by
  rw [lowByte, BitVec.setWidth_and]
  exact BitVec.and_allOnes

theorem low_high_eq (n : U16) : ofBytes (lowByte n) (highByte n) = n := by
  ext i h16
  by_cases h : i < 8
  · simp [ofBytes, lowByte, highByte, h, BitVec.getLsbD_eq_getElem h16]
  · have h8 : 8 + (i - 8) = i := by omega
    have hlt : i - 8 < 8 := by omega
    simp [ofBytes, lowByte, highByte, h, h8, hlt, BitVec.getLsbD_eq_getElem h16]

end EnvirMonitor.Machine
