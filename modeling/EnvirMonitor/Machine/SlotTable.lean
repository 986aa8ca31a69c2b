import Mathlib.Data.List.Count
import Mathlib.Data.List.Nodup
import Mathlib.Logic.Function.Basic
import Mathlib.Tactic.Ring

/-! A table with a fixed number of slots: what all slots hold together, and a scan that remembers
the oldest slot of a kind. -/

namespace EnvirMonitor.Machine

variable {ι α : Type*}

/-- One slot changes what all hold by what it loses and what it gains. -/
theorem count_flatMap_update [DecidableEq ι] [BEq α] {slots : List ι} (hn : slots.Nodup) {i : ι}
    (hi : i ∈ slots) (held : ι → List α) (v : List α) (x : α) :
    (slots.flatMap (Function.update held i v)).count x + (held i).count x =
      (slots.flatMap held).count x + v.count x := by
  induction slots with
  | nil => exact absurd hi List.not_mem_nil
  | cons j slots ih =>
    obtain ⟨hj, hn⟩ := List.nodup_cons.mp hn
    simp only [List.flatMap_cons, List.count_append]
    rcases List.mem_cons.mp hi with rfl | hi
    · have hrest : slots.flatMap (Function.update held i v) = slots.flatMap held := by
        refine List.flatMap_congr fun k hk => ?_
        rw [Function.update_of_ne (ne_of_mem_of_not_mem hk hj)]
      rw [Function.update_self, hrest]
      ring
    · have := ih hn hi
      rw [Function.update_of_ne (ne_of_mem_of_not_mem hi hj).symm]
      omega

/-- What a scan remembers of the slots it has seen: the last of the oldest ones of a kind. -/
structure Oldest (kind : ι → Prop) (age : ι → ℕ) (seen : List ι) (old : Option ι) (bound : ℕ) :
    Prop where
  found : ∀ i, old = some i → kind i ∧ age i = bound
  missed : old = none → bound = 0 ∧ ∀ i ∈ seen, ¬ kind i
  le : ∀ i ∈ seen, kind i → age i ≤ bound

section
variable {kind : ι → Prop} {age : ι → ℕ} {seen : List ι} {old : Option ι} {bound : ℕ} {i : ι}

theorem Oldest.start : Oldest kind age [] none 0 where
  found := fun _ h => nomatch h
  missed := fun _ => ⟨rfl, fun _ h => absurd h List.not_mem_nil⟩
  le := fun _ h => absurd h List.not_mem_nil

theorem Oldest.skip (h : Oldest kind age seen old bound) (hi : ¬ kind i) :
    Oldest kind age (i :: seen) old bound where
  found := h.found
  missed := fun hnone => ⟨(h.missed hnone).1, List.forall_mem_cons.mpr ⟨hi, (h.missed hnone).2⟩⟩
  le := List.forall_mem_cons.mpr ⟨fun hk => absurd hk hi, h.le⟩

theorem Oldest.remember (h : Oldest kind age seen old bound) (hi : kind i) (hle : bound ≤ age i) :
    Oldest kind age (i :: seen) (some i) (age i) where
  found := fun _ hj => Option.some.inj hj ▸ ⟨hi, rfl⟩
  missed := fun hnone => nomatch hnone
  le := List.forall_mem_cons.mpr ⟨fun _ => le_rfl, fun j hj hk => (h.le j hj hk).trans hle⟩

theorem Oldest.pass (h : Oldest kind age seen old bound) (hlt : age i < bound) :
    Oldest kind age (i :: seen) old bound where
  found := h.found
  missed := fun hnone => absurd hlt (by rw [(h.missed hnone).1]; omega)
  le := List.forall_mem_cons.mpr ⟨fun _ => hlt.le, h.le⟩

end

end EnvirMonitor.Machine
