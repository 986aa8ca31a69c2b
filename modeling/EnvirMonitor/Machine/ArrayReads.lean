import EnvirMonitor.Machine.AccessProgram

/-! Programs that also read the elements of an array, with the indices in the order of the reads. -/

namespace EnvirMonitor.Machine

/-- An element of the array, or an access of the device. -/
inductive WithArray (Op : Type)
  | element (i : ℕ)
  | device (op : Op)

abbrev WithArray.Reply {Op : Type} (Res : Op → Type) (β : Type) : WithArray Op → Type
  | element _ => β
  | device op => Res op

namespace Prog
variable {Op : Type} {Res : Op → Type} {α β γ σ : Type}

def onDevice : Prog Op Res α → Prog (WithArray Op) (WithArray.Reply Res β) α
  | ret a => ret a
  | act op next => act (.device op) fun r => onDevice (next r)
  | spin => spin

/-- The device beside the array, and the indices read so far. -/
def Device.withArray (dev : Device Op Res σ) (array : ℕ → β) :
    Device (WithArray Op) (WithArray.Reply Res β) (σ × List ℕ)
  | .element i, s => (array i, (s.1, s.2 ++ [i]))
  | .device op, s => ((dev op s.1).1, ((dev op s.1).2, s.2))

theorem run_element_bind (dev : Device Op Res σ) (array : ℕ → β) (i : ℕ) (s : σ) (reads : List ℕ)
    (f : β → Prog (WithArray Op) (WithArray.Reply Res β) γ) :
    (perform (WithArray.element i) >>= f).run (Device.withArray dev array) (s, reads) =
      (f (array i)).run (Device.withArray dev array) (s, reads ++ [i]) := rfl

theorem run_onDevice_bind {dev : Device Op Res σ} {p : Prog Op Res α} {a : α} {s s' : σ}
    (h : p.run dev s = some (a, s')) (array : ℕ → β) (reads : List ℕ)
    (f : α → Prog (WithArray Op) (WithArray.Reply Res β) γ) :
    (onDevice p >>= f).run (Device.withArray dev array) (s, reads) =
      (f a).run (Device.withArray dev array) (s', reads) := by
  induction p generalizing s with
  | ret b =>
    rw [run] at h
    cases h
    rfl
  | act op next ih => exact ih _ h
  | spin => cases h

end Prog
end EnvirMonitor.Machine
