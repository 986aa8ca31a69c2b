import Mathlib.Tactic

/-! Owners of a table's entries: every entry names at most one owner, an owner that is named is
allocated, and no two entries name the same. -/

namespace EnvirMonitor.Machine
variable {ι β : Type*}

structure Owners (owner : ι → Option β) (allocated : β → Prop) : Prop where
  allocated : ∀ i b, owner i = some b → allocated b
  unique : ∀ i j b, owner i = some b → owner j = some b → i = j

namespace Owners
variable {owner owner' : ι → Option β} {allocated allocated' : β → Prop}

theorem none (allocated : β → Prop) : Owners (fun _ : ι => Option.none) allocated :=
  ⟨fun _ _ h => absurd h (by simp), fun _ _ _ h => absurd h (by simp)⟩

/-- Entries may lose their owner, and an owner that is named by none may be released. -/
theorem shrink (h : Owners owner allocated) (hsub : ∀ i b, owner' i = some b → owner i = some b)
    (hkeep : ∀ i b, owner' i = some b → allocated b → allocated' b) : Owners owner' allocated' where
  allocated i b hi := hkeep i b hi (h.allocated i b (hsub i b hi))
  unique i j b hi hj := h.unique i j b (hsub i b hi) (hsub j b hj)

variable [DecidableEq ι]

/-- An entry gives up its owner, which is released. -/
theorem release (h : Owners owner allocated) (i : ι)
    (hkeep : ∀ b, allocated b → owner i ≠ some b → allocated' b) :
    Owners (Function.update owner i Option.none) allocated' := by
  have hsub {j : ι} {b : β} (hj : Function.update owner i Option.none j = some b) :
      j ≠ i ∧ owner j = some b := by
    rcases eq_or_ne j i with rfl | hne
    · rw [Function.update_self] at hj
      cases hj
    · exact ⟨hne, Function.update_of_ne hne _ owner ▸ hj⟩
  apply h.shrink fun j b hj => (hsub hj).2
  intro j b hj halloc
  obtain ⟨hne, hj⟩ := hsub hj
  exact hkeep b halloc fun hi => hne (h.unique j i b hj hi)

/-- An entry is given an owner that was not allocated before. -/
theorem hand (h : Owners owner allocated) (i : ι) {b : β} (hb : ¬ allocated b) (hb' : allocated' b)
    (hkeep : ∀ c, allocated c → allocated' c) :
    Owners (Function.update owner i (some b)) allocated' := by
  have hold {j : ι} {c : β} (hj : Function.update owner i (some b) j = some c) :
      j = i ∧ c = b ∨ owner j = some c ∧ c ≠ b := by
    rcases eq_or_ne j i with rfl | hne
    · rw [Function.update_self] at hj
      exact .inl ⟨rfl, (Option.some.inj hj).symm⟩
    · rw [Function.update_of_ne hne] at hj
      exact .inr ⟨hj, fun hc => hb (hc ▸ h.allocated j c hj)⟩
  constructor
  · intro j c hj
    rcases hold hj with ⟨-, rfl⟩ | ⟨hj, -⟩
    · exact hb'
    · exact hkeep c (h.allocated j c hj)
  · intro j k c hj hk
    rcases hold hj with ⟨rfl, rfl⟩ | ⟨hj, hne⟩
    · exact (hold hk).elim (fun hk => hk.1.symm) fun hk => absurd rfl hk.2
    · exact (hold hk).elim (fun hk => absurd hk.2 hne) fun hk => h.unique j k c hj hk.1

end Owners

end EnvirMonitor.Machine
