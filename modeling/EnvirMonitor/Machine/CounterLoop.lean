import EnvirMonitor.Machine.AccessProgram
import EnvirMonitor.Machine.Words

/-! Loops `for (i = first; i <= last; i++)` over a counter of `w` bits. Below the largest value such
a loop is the list of its values; at the largest value its condition never fails. -/

namespace EnvirMonitor.Machine.Prog
variable {Op : Type} {Res : Op → Type} {σ : Type} {w : ℕ}

/-- The loop from `i` on, for at most `fuel` tests of its condition. -/
def countTo (last : BitVec w) (body : BitVec w → Prog Op Res Unit) : ℕ → BitVec w → Prog Op Res Unit
  | 0, _ => spin
  | fuel + 1, i =>
    if i ≤ last then body i >>= fun _ => countTo last body fuel (i + 1) else pure ()

def values (first last : BitVec w) : List (BitVec w) :=
  (List.range' first.toNat (last.toNat + 1 - first.toNat)).map (BitVec.ofNat w)

theorem values_of_lt {first last : BitVec w} (h : last < first) : values first last = [] := by
  have hlt := BitVec.lt_def.mp h
  unfold values
  rw [Nat.sub_eq_zero_of_le hlt]
  rfl

theorem values_of_le {first last : BitVec w} (hlast : last.toNat + 1 < 2 ^ w) (h : first ≤ last) :
    values first last = first :: values (first + 1) last := by
  have hle := BitVec.le_def.mp h
  have hlen : last.toNat + 1 - first.toNat = last.toNat + 1 - (first.toNat + 1) + 1 := by omega
  unfold values
  rw [toNat_add_one (by omega), hlen, List.range'_succ, List.map_cons, ofNat_toNat_self]

theorem mem_values_iff {first last i : BitVec w} :
    i ∈ values first last ↔ first.toNat ≤ i.toNat ∧ i.toNat ≤ last.toNat := by
  have hlast := last.isLt
  unfold values
  rw [List.mem_map]
  constructor
  · rintro ⟨n, hn, rfl⟩
    rw [List.mem_range'_1] at hn
    rw [toNat_ofNat_of_lt (by omega)]
    omega
  · rintro ⟨hfirst, hi⟩
    refine ⟨i.toNat, ?_, ofNat_toNat_self i⟩
    rw [List.mem_range'_1]
    omega

section
variable (last : BitVec w) (body : BitVec w → Prog Op Res Unit)

theorem countTo_eq (hlast : last.toNat + 1 < 2 ^ w) {fuel : ℕ} {i : BitVec w}
    (hfuel : last.toNat + 1 - i.toNat < fuel) :
    countTo last body fuel i = forEach body (values i last) := by
  induction fuel generalizing i with
  | zero => exact absurd hfuel (Nat.not_lt_zero _)
  | succ fuel ih =>
    unfold countTo
    split_ifs with hi
    · have hle := BitVec.le_def.mp hi
      rw [values_of_le hlast hi, forEach, ih]
      rw [toNat_add_one (by omega)]
      omega
    · rw [values_of_lt (BitVec.not_le.mp hi)]
      rfl

theorem countTo_never (hlast : last.toNat + 1 = 2 ^ w) (dev : Device Op Res σ) (fuel : ℕ)
    (i : BitVec w) (s : σ) : (countTo last body fuel i).run dev s = none := by
  induction fuel generalizing i s with
  | zero => rfl
  | succ fuel ih =>
    have hi : i ≤ last := by
      apply BitVec.le_def.mpr
      have hlt := i.isLt
      omega
    rw [countTo, if_pos hi, run_bind]
    cases (body i).run dev s with
    | none => rfl
    | some next => exact ih (i + 1) next.2

theorem countTo_stuck {dev : Device Op Res σ} {i : BitVec w} (hi : i ≤ last) {s : σ}
    (hbody : (body i).run dev s = none) (fuel : ℕ) : (countTo last body fuel i).run dev s = none := by
  cases fuel with
  | zero => rfl
  | succ fuel =>
    rw [countTo, if_pos hi, run_bind, hbody]
    rfl

end
end EnvirMonitor.Machine.Prog
