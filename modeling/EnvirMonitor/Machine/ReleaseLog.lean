import Mathlib.Tactic

/-! Event logs of one resource, newest event first: the discipline that no use of the resource
follows its release. A release counts as a use where releasing twice is an error too. -/

namespace EnvirMonitor.Machine
variable {ε : Type*}

def NoUseAfterFree (frees uses : ε → Bool) : List ε → Prop
  | [] => True
  | e :: log => NoUseAfterFree frees uses log ∧ (uses e = true → ∀ f ∈ log, frees f = false)

instance decidableNoUseAfterFree (frees uses : ε → Bool) :
    ∀ log, Decidable (NoUseAfterFree frees uses log)
  | [] => isTrue trivial
  | e :: log =>
    have := decidableNoUseAfterFree frees uses log
    inferInstanceAs (Decidable (NoUseAfterFree frees uses log ∧
      (uses e = true → ∀ f ∈ log, frees f = false)))

variable {frees uses : ε → Bool}

theorem noUseAfterFree_of_unfreed {log : List ε} (h : ∀ f ∈ log, frees f = false) :
    NoUseAfterFree frees uses log := by
  induction log with
  | nil => trivial
  | cons e log ih =>
    have hlog : ∀ f ∈ log, frees f = false := fun f hf => h f (List.mem_cons_of_mem _ hf)
    exact ⟨ih hlog, fun _ => hlog⟩

/-- Events that do not use the resource can follow any log. -/
theorem noUseAfterFree_append_unused {new log : List ε} (h : NoUseAfterFree frees uses log)
    (hnew : ∀ e ∈ new, uses e = false) : NoUseAfterFree frees uses (new ++ log) := by
  induction new with
  | nil => exact h
  | cons e new ih =>
    refine ⟨ih fun f hf => hnew f (List.mem_cons_of_mem _ hf), fun he => ?_⟩
    rw [hnew e List.mem_cons_self] at he
    exact Bool.noConfusion he

/-- As long as the resource is not released, any correct continuation is one. -/
theorem noUseAfterFree_append_unfreed {new log : List ε} (h : NoUseAfterFree frees uses new)
    (hlog : ∀ f ∈ log, frees f = false) : NoUseAfterFree frees uses (new ++ log) := by
  induction new with
  | nil => exact noUseAfterFree_of_unfreed hlog
  | cons e new ih =>
    refine ⟨ih h.1, fun he f hf => ?_⟩
    rcases List.mem_append.mp hf with hf | hf
    · exact h.2 he f hf
    · exact hlog f hf

/-- A log whose only uses are releases is correct when there is at most one of them. -/
theorem noUseAfterFree_of_countP_le_one {log : List ε} (huse : ∀ e ∈ log, uses e = frees e)
    (h : log.countP frees ≤ 1) : NoUseAfterFree frees uses log := by
  induction log with
  | nil => trivial
  | cons e log ih =>
    have hlog : ∀ f ∈ log, uses f = frees f := fun f hf => huse f (List.mem_cons_of_mem _ hf)
    rw [List.countP_cons] at h
    refine ⟨ih hlog (by omega), fun he f hf => ?_⟩
    rw [huse e List.mem_cons_self] at he
    rw [he, if_pos rfl] at h
    have hzero : log.countP frees = 0 := by omega
    simpa using List.countP_eq_zero.mp hzero f hf

theorem not_noUseAfterFree_of_use {e f : ε} {log : List ε} (he : uses e = true) (hf : f ∈ log)
    (hfree : frees f = true) : ¬ NoUseAfterFree frees uses (e :: log) := fun h => by
  have := h.2 he f hf
  rw [hfree] at this
  exact Bool.noConfusion this

theorem noUseAfterFree_of_append {new log : List ε} (h : NoUseAfterFree frees uses (new ++ log)) :
    NoUseAfterFree frees uses log := by
  induction new with
  | nil => exact h
  | cons e new ih => exact ih h.1

theorem countP_frees_le_one (hfree : ∀ e, frees e = true → uses e = true) {log : List ε}
    (h : NoUseAfterFree frees uses log) : log.countP frees ≤ 1 := by
  induction log with
  | nil => simp
  | cons e log ih =>
    have htail := ih h.1
    cases he : frees e with
    | false => simpa [List.countP_cons, he] using htail
    | true =>
      have hzero : log.countP frees = 0 :=
        List.countP_eq_zero.mpr fun f hf => by simp [h.2 (hfree e he) f hf]
      simp [he, hzero]

end EnvirMonitor.Machine
