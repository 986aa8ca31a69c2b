import EnvirMonitor.Machine.Words

/-! Sequence numbers of fixed width: the positions of an unbounded stream modulo a power of two,
compared by the sign of their difference. -/

namespace EnvirMonitor.Machine

variable {w : ℕ}

/-- The sequence number of position `p`, where `base` is that of position 0. -/
def place (base : BitVec w) (p : ℕ) : BitVec w := base + BitVec.ofNat w p

def Near (w p q : ℕ) : Prop := p < q + 2 ^ (w - 1) ∧ q < p + 2 ^ (w - 1)

theorem Near.symm {p q : ℕ} (h : Near w p q) : Near w q p := ⟨h.2, h.1⟩

theorem place_zero (base : BitVec w) : place base 0 = base := by
  exact BitVec.add_zero base

theorem place_add (base : BitVec w) (p n : ℕ) :
    place base p + BitVec.ofNat w n = place base (p + n) := by
  rw [place, place, BitVec.ofNat_add, BitVec.add_assoc]

theorem place_pred (base : BitVec w) {p : ℕ} (h : 0 < p) :
    place base p - BitVec.ofNat w 1 = place base (p - 1) := by
  have hadd : place base p = place base (p - 1) + BitVec.ofNat w 1 := by
    rw [place_add, Nat.sub_add_cancel h]
  rw [hadd, BitVec.add_sub_cancel]

theorem place_sub (base : BitVec w) {p q : ℕ} (h : q ≤ p) :
    place base p - place base q = BitVec.ofNat w (p - q) := by
  have hadd : place base p = place base q + BitVec.ofNat w (p - q) := by
    rw [place_add, Nat.add_sub_cancel' h]
  rw [hadd, BitVec.add_comm, BitVec.add_sub_cancel]

theorem toInt_ofNat_of_lt {n : ℕ} (h : 2 * n < 2 ^ w) : (BitVec.ofNat w n).toInt = n := by
  rw [BitVec.toInt_eq_toNat_of_lt (by rw [toNat_ofNat_of_lt (by omega)]; exact h),
    toNat_ofNat_of_lt (by omega)]

theorem two_pow_pred (hw : 0 < w) : 2 ^ w = 2 * 2 ^ (w - 1) := by
  obtain ⟨v, rfl⟩ : ∃ v, w = v + 1 := ⟨w - 1, by omega⟩
  rw [Nat.add_sub_cancel, pow_succ, Nat.mul_comm]

/-- The signed difference of two near positions is their distance. -/
theorem toInt_place_sub (base : BitVec w) {p q : ℕ} (hw : 0 < w) (h : Near w p q) :
    (place base p - place base q).toInt = (p : ℤ) - q := by
  have hpow := two_pow_pred hw
  obtain ⟨h₁, h₂⟩ := h
  rcases Nat.le_total q p with hle | hle
  · rw [place_sub base hle, toInt_ofNat_of_lt (by omega), Nat.cast_sub hle]
  · rcases Nat.eq_or_lt_of_le hle with rfl | hlt
    · rw [BitVec.sub_self, BitVec.toInt_zero, sub_self]
    have hneg : place base p - place base q = -BitVec.ofNat w (q - p) := by
      rw [← place_sub base hle, neg_sub]
    have hn : (BitVec.ofNat w (q - p)).toNat = q - p := toNat_ofNat_of_lt (by omega)
    rw [hneg, BitVec.toInt_eq_msb_cond, BitVec.toNat_neg, hn,
      Nat.mod_eq_of_lt (by omega), if_pos]
    · push_cast [Nat.sub_le_iff_le_add, show q - p ≤ 2 ^ w by omega, hle]
      ring
    · rw [BitVec.msb_eq_decide, decide_eq_true_eq, BitVec.toNat_neg, hn, Nat.mod_eq_of_lt (by omega)]
      omega

theorem place_inj (base : BitVec w) {p q : ℕ} (hw : 0 < w) (h : Near w p q) :
    place base p = place base q ↔ p = q := by
  constructor
  · intro heq
    have := toInt_place_sub base hw h
    rw [heq, BitVec.sub_self, BitVec.toInt_zero] at this
    omega
  · rintro rfl
    rfl

theorem toNat_place_sub (base : BitVec w) {p q : ℕ} (h : q ≤ p) (hlt : p - q < 2 ^ w) :
    (place base p - place base q).toNat = p - q := by
  rw [place_sub base h, toNat_ofNat_of_lt hlt]

end EnvirMonitor.Machine
