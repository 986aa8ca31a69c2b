import EnvirMonitor.Machine.LittleEndian
import Mathlib.Data.Nat.Digits.Lemmas

/-! Sums with end-around carry. They are numbers modulo `2 ^ 16 - 1` in which a nonzero sum
stays nonzero, and the sum of the words of a byte string is its value in base 256. -/

namespace EnvirMonitor.Machine

structure EndAround (m a b : ℕ) : Prop where
  modEq : a ≡ b [MOD m]
  zero_iff : a = 0 ↔ b = 0

namespace EndAround
variable {m a a' b b' c : ℕ}

@[refl] theorem refl (m a : ℕ) : EndAround m a a := ⟨Nat.ModEq.refl a, Iff.rfl⟩

@[symm] theorem symm (h : EndAround m a b) : EndAround m b a := ⟨h.modEq.symm, h.zero_iff.symm⟩

@[trans] theorem trans (h : EndAround m a b) (h' : EndAround m b c) : EndAround m a c :=
  ⟨h.modEq.trans h'.modEq, h.zero_iff.trans h'.zero_iff⟩

theorem add (h : EndAround m a a') (h' : EndAround m b b') : EndAround m (a + b) (a' + b') :=
  ⟨h.modEq.add h'.modEq, by rw [Nat.add_eq_zero_iff, Nat.add_eq_zero_iff, h.zero_iff, h'.zero_iff]⟩

theorem mul_left {k : ℕ} (hk : k ≠ 0) (h : EndAround m a b) : EndAround m (k * a) (k * b) :=
  ⟨h.modEq.mul_left k, by simp only [Nat.mul_eq_zero, hk, false_or, h.zero_iff]⟩

theorem self_add (ha : a ≠ 0) : EndAround m a (a + m) :=
  ⟨(Nat.add_modEq_right).symm, iff_of_false ha (by omega)⟩

theorem mul_of_modEq_one {k : ℕ} (hk : k ≡ 1 [MOD m]) (hne : k ≠ 0) : EndAround m (k * a) a :=
  ⟨by simpa only [one_mul] using hk.mul_right a, by simp only [Nat.mul_eq_zero, hne, false_or]⟩

theorem eq_of_le (h : EndAround m a b) (ha : a ≤ m) (hb : b ≤ m) : a = b := by
  rcases Nat.eq_zero_or_pos a with hzero | hpos
  · rw [hzero, h.zero_iff.mp hzero]
  · have hbpos : 0 < b := Nat.pos_of_ne_zero fun hb0 => hpos.ne' (h.zero_iff.mpr hb0)
    have hpred : a - 1 ≡ b - 1 [MOD m] := by
      apply Nat.ModEq.add_right_cancel' 1
      rw [Nat.sub_add_cancel hpos, Nat.sub_add_cancel hbpos]
      exact h.modEq
    have := hpred.eq_of_lt_of_lt (by omega) (by omega)
    omega

theorem eq_top_iff (h : EndAround m a b) (ha : a ≤ m) (hm : 0 < m) : a = m ↔ b ≠ 0 ∧ m ∣ b := by
  constructor
  · rintro rfl
    refine ⟨fun hb => hm.ne' (h.zero_iff.mpr hb), ?_⟩
    exact (h.modEq.dvd_iff dvd_rfl).mp dvd_rfl
  · rintro ⟨hb, hdvd⟩
    have hne : a ≠ 0 := fun ha0 => hb (h.zero_iff.mp ha0)
    obtain ⟨k, rfl⟩ := (h.modEq.dvd_iff dvd_rfl).mpr hdvd
    have hk : k ≤ 1 := Nat.le_of_mul_le_mul_left (by omega) hm
    have hk0 : k ≠ 0 := fun hk0 => hne (by rw [hk0, Nat.mul_zero])
    rw [show k = 1 by omega, Nat.mul_one]

end EndAround

/-! ## Sixteen-bit words -/

/-- The modulus of sums of 16-bit words with end-around carry. -/
abbrev wordMax : ℕ := 65535

theorem endAround_split (n : ℕ) : EndAround wordMax (n / 65536 + n % 65536) n := by
  have hn : n = 65535 * (n / 65536) + (n / 65536 + n % 65536) := by omega
  refine ⟨?_, by omega⟩
  conv_rhs => rw [hn]
  exact (Nat.mul_add_mod ..).symm

theorem endAround_swap (n : ℕ) : EndAround wordMax (n % 256 * 256 + n / 256) (256 * n) := by
  have hn : 256 * n = 65535 * (n / 256) + (n % 256 * 256 + n / 256) := by omega
  refine ⟨?_, by omega⟩
  rw [hn]
  exact (Nat.mul_add_mod ..).symm

theorem pow_two_modEq_one (n : ℕ) : 256 ^ (2 * n) ≡ 1 [MOD wordMax] := by
  rw [pow_mul]
  simpa only [one_pow] using (show 256 ^ 2 ≡ 1 [MOD wordMax] from rfl).pow n

theorem endAround_even {n : ℕ} (h : n % 2 = 0) (a : ℕ) : EndAround wordMax (256 ^ n * a) a := by
  obtain ⟨k, rfl⟩ : ∃ k, n = 2 * k := ⟨n / 2, by omega⟩
  exact EndAround.mul_of_modEq_one (pow_two_modEq_one k) (by positivity)

def leValue (bs : List U8) : ℕ := Nat.ofDigits 256 (bs.map BitVec.toNat)

@[simp] theorem leValue_nil : leValue [] = 0 := rfl

theorem leValue_cons (b : U8) (bs : List U8) : leValue (b :: bs) = b.toNat + 256 * leValue bs :=
  Nat.ofDigits_cons ..

theorem leValue_append (bs bs' : List U8) :
    leValue (bs ++ bs') = leValue bs + 256 ^ bs.length * leValue bs' := by
  rw [leValue, List.map_append, Nat.ofDigits_append, List.length_map, leValue, leValue]

theorem leValue_eq_zero_iff (bs : List U8) : leValue bs = 0 ↔ ∀ b ∈ bs, b = 0 := by
  induction bs with
  | nil => simp
  | cons b bs ih =>
    have hb : b.toNat = 0 ↔ b = 0 := by rw [← BitVec.toNat_inj]; rfl
    rw [leValue_cons, List.forall_mem_cons, ← ih, ← hb]
    omega

theorem leValue_take_two (lo hi : U8) : leValue [lo, hi] = (ofBytes lo hi).toNat := by
  have hlo := lo.isLt
  have hhi := hi.isLt
  have hor : (ofBytes lo hi).toNat = hi.toNat <<< 8 ||| lo.toNat := by
    simp only [ofBytes, BitVec.toNat_or, BitVec.toNat_shiftLeft, BitVec.toNat_setWidth]
    rw [Nat.mod_eq_of_lt (a := hi.toNat) (by omega), Nat.mod_eq_of_lt (a := lo.toNat) (by omega),
      Nat.mod_eq_of_lt (by rw [Nat.shiftLeft_eq]; omega)]
  rw [hor, ← Nat.shiftLeft_add_eq_or_of_lt hlo, Nat.shiftLeft_eq, leValue_cons, leValue_cons]
  simp only [leValue_nil]
  omega

theorem endAround_pack (bs : List U8) :
    EndAround wordMax ((pack bs).map BitVec.toNat).sum (leValue bs) := by
  induction bs using pack.induct with
  | case1 => exact EndAround.refl ..
  | case2 lo =>
    have hlo : (lo.setWidth 16).toNat = lo.toNat := by
      have := lo.isLt
      rw [BitVec.toNat_setWidth, Nat.mod_eq_of_lt (by omega)]
    simp only [pack, List.map_cons, List.map_nil, List.sum_cons, List.sum_nil, hlo, leValue_cons,
      leValue_nil]
    exact EndAround.refl ..
  | case3 lo hi bs ih =>
    have hvalue : leValue (lo :: hi :: bs) = leValue [lo, hi] + 256 ^ 2 * leValue bs :=
      leValue_append [lo, hi] bs
    rw [pack, List.map_cons, List.sum_cons, hvalue, leValue_take_two]
    exact (EndAround.refl ..).add (ih.trans (endAround_even rfl _).symm)

/-! ## One's complement sums -/

/-- Addition in one's complement: a carry out of the word is added at its other end. -/
def onesAdd (a b : U16) : U16 :=
  if a.toNat + b.toNat < 65536 then a + b else a + b + 1

def onesSum (ws : List U16) : U16 := ws.foldr onesAdd 0

theorem onesAdd_endAround (a b : U16) :
    EndAround wordMax (onesAdd a b).toNat (a.toNat + b.toNat) := by
  have ha := a.isLt
  have hb := b.isLt
  rw [onesAdd]
  split_ifs with hsmall
  · rw [BitVec.toNat_add, Nat.mod_eq_of_lt hsmall]
  · have hlow : (a + b).toNat = a.toNat + b.toNat - 65536 := by
      rw [BitVec.toNat_add]
      omega
    have hcarry : a.toNat + b.toNat = (a + b + 1).toNat + 65535 := by
      rw [toNat_add_one (by omega), hlow]
      omega
    rw [hcarry]
    exact EndAround.self_add (by rw [toNat_add_one (by omega)]; omega)

theorem onesSum_endAround (ws : List U16) :
    EndAround wordMax (onesSum ws).toNat (ws.map BitVec.toNat).sum := by
  induction ws with
  | nil => exact EndAround.refl ..
  | cons w ws ih =>
    rw [List.map_cons, List.sum_cons]
    exact (onesAdd_endAround w (onesSum ws)).trans ((EndAround.refl ..).add ih)

theorem onesSum_pack (bs : List U8) : EndAround wordMax (onesSum (pack bs)).toNat (leValue bs) :=
  (onesSum_endAround _).trans (endAround_pack bs)

end EnvirMonitor.Machine
