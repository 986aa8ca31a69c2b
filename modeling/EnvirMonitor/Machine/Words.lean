import Mathlib.Data.BitVec
import Mathlib.Algebra.BigOperators.Group.List.Basic
import Mathlib.Tactic

/-! The fixed-width integers of the target and sums of bytes modulo 256. -/

namespace EnvirMonitor.Machine

abbrev U8 := BitVec 8
abbrev U16 := BitVec 16
abbrev U32 := BitVec 32

theorem toNat_ofNat_of_lt {w n : ℕ} (h : n < 2 ^ w) : (BitVec.ofNat w n).toNat = n := by
  rw [BitVec.toNat_ofNat, Nat.mod_eq_of_lt h]

theorem ofNat_toNat_self {w : ℕ} (x : BitVec w) : BitVec.ofNat w x.toNat = x := by
  rw [BitVec.ofNat_toNat, BitVec.setWidth_eq]

theorem ofNat_add_one (w n : ℕ) : BitVec.ofNat w n + 1 = BitVec.ofNat w (n + 1) :=
  (BitVec.ofNat_add ..).symm

theorem toNat_add_one {w : ℕ} {x : BitVec w} (h : x.toNat + 1 < 2 ^ w) :
    (x + 1).toNat = x.toNat + 1 := by
  have hone : (1#w).toNat = 1 := toNat_ofNat_of_lt (by omega)
  show (x + 1#w).toNat = _
  rw [BitVec.toNat_add_of_lt (by rw [hone]; exact h), hone]

theorem toNat_sum {w : ℕ} (xs : List (BitVec w)) :
    xs.sum.toNat = (xs.map BitVec.toNat).sum % 2 ^ w := by
  induction xs with
  | nil => simp
  | cons x xs ih => simp [BitVec.toNat_add, ih]

/-- A wrapping sum is zero exactly when the true sum is a multiple of the modulus. -/
theorem sum_eq_zero_iff {w : ℕ} (xs : List (BitVec w)) :
    xs.sum = 0 ↔ (xs.map BitVec.toNat).sum % 2 ^ w = 0 := by
  rw [← toNat_sum, ← BitVec.toNat_inj]
  simp

theorem not_add_one_eq_iff {w : ℕ} (x y : BitVec w) : ~~~x + 1#w = y ↔ x + y = 0 := by
  rw [← BitVec.neg_eq_not_add, neg_eq_iff_add_eq_zero]

end EnvirMonitor.Machine
