import Mathlib.Tactic

/-! Runs of a partial step function, and the induction rules for what they keep: an
invariant of every step, and an invariant of the steps that meet a condition. -/

namespace EnvirMonitor.Machine
variable {σ ε : Type*}

/-- `step s e = none` means that `e` cannot happen in `s`. -/
def exec (step : σ → ε → Option σ) : σ → List ε → Option σ
  | s, [] => some s
  | s, e :: es => (step s e).bind fun s' => exec step s' es

@[simp] theorem exec_nil (step : σ → ε → Option σ) (s : σ) : exec step s [] = some s := rfl

theorem exec_cons {step : σ → ε → Option σ} {s t : σ} {e : ε} {es : List ε}
    (h : exec step s (e :: es) = some t) : ∃ s', step s e = some s' ∧ exec step s' es = some t :=
  Option.bind_eq_some_iff.mp h

theorem exec_append (step : σ → ε → Option σ) (s : σ) (es es' : List ε) :
    exec step s (es ++ es') = (exec step s es).bind fun t => exec step t es' := by
  induction es generalizing s with
  | nil => rfl
  | cons e es ih =>
    rw [List.cons_append, exec, exec, Option.bind_assoc]
    exact congrArg (Option.bind (step s e)) (funext ih)

def Guarded (step : σ → ε → Option σ) (C : σ → ε → Prop) : σ → List ε → Prop
  | _, [] => True
  | s, e :: es => C s e ∧ ∀ s', step s e = some s' → Guarded step C s' es

instance decidableGuarded (step : σ → ε → Option σ) (C : σ → ε → Prop) [∀ s e, Decidable (C s e)] :
    ∀ s es, Decidable (Guarded step C s es)
  | _, [] => isTrue trivial
  | s, e :: es =>
    match hs : step s e with
    | none => decidable_of_iff (C s e) ⟨fun h => ⟨h, by simp [hs]⟩, And.left⟩
    | some s' =>
      have := decidableGuarded step C s' es
      decidable_of_iff (C s e ∧ Guarded step C s' es) (and_congr_right fun _ => by simp [hs])

theorem exec_guarded {step : σ → ε → Option σ} {C : σ → ε → Prop} {I : σ → Prop}
    (hstep : ∀ s e s', I s → C s e → step s e = some s' → I s') {s t : σ} {es : List ε}
    (hs : I s) (hC : Guarded step C s es) (h : exec step s es = some t) : I t := by
  induction es generalizing s with
  | nil =>
    rw [exec_nil, Option.some.injEq] at h
    exact h ▸ hs
  | cons e es ih =>
    obtain ⟨s', he, hes⟩ := exec_cons h
    exact ih (hstep s e s' hs hC.1 he) (hC.2 s' he) hes

theorem guarded_true (step : σ → ε → Option σ) (s : σ) (es : List ε) :
    Guarded step (fun _ _ => True) s es := by
  induction es generalizing s with
  | nil => trivial
  | cons e es ih => exact ⟨trivial, fun s' _ => ih s'⟩

theorem exec_invariant {step : σ → ε → Option σ} {I : σ → Prop}
    (hstep : ∀ s e s', I s → step s e = some s' → I s') {s t : σ} {es : List ε}
    (hs : I s) (h : exec step s es = some t) : I t :=
  exec_guarded (fun s e s' hI _ => hstep s e s' hI) hs (guarded_true step s es) h

def Along (step : σ → ε → Option σ) (P : σ → Prop) : σ → List ε → Prop
  | s, [] => P s
  | s, e :: es => P s ∧ ∀ s', step s e = some s' → Along step P s' es

/-- An invariant that steps meeting `C` keep and other steps turn into a violation of `P` makes `C`
the exact condition for `P` along a run. -/
theorem along_iff_guarded {step : σ → ε → Option σ} {C : σ → ε → Prop} {I P : σ → Prop}
    (hI : ∀ s, I s → P s) (hkeep : ∀ s e s', I s → C s e → step s e = some s' → I s')
    (hbreak : ∀ s e s', I s → ¬ C s e → step s e = some s' → ¬ P s') {s t : σ} {es : List ε}
    (hs : I s) (hrun : exec step s es = some t) : Along step P s es ↔ Guarded step C s es := by
  induction es generalizing s with
  | nil => exact iff_of_true (hI s hs) trivial
  | cons e es ih =>
    obtain ⟨s', he, hes⟩ := exec_cons hrun
    have hnext {u : σ} (hu : step s e = some u) : u = s' := Option.some.inj (hu.symm.trans he)
    constructor
    · rintro ⟨-, hrest⟩
      have hP : P s' := by
        cases es with
        | nil => exact hrest s' he
        | cons e' es => exact (hrest s' he).1
      have hC : C s e := by_contra fun hC => hbreak s e s' hs hC he hP
      refine ⟨hC, fun u hu => ?_⟩
      obtain rfl := hnext hu
      exact (ih (hkeep s e u hs hC he) hes).mp (hrest u he)
    · rintro ⟨hC, hrest⟩
      refine ⟨hI s hs, fun u hu => ?_⟩
      obtain rfl := hnext hu
      exact (ih (hkeep s e u hs hC he) hes).mpr (hrest u he)

end EnvirMonitor.Machine
