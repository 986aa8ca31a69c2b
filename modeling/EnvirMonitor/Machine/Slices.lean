import Mathlib.Data.List.Basic
import Mathlib.Data.List.Infix
import Mathlib.Tactic

/-! Pieces of a stream that only grows at its end. -/

namespace EnvirMonitor.Machine

variable {α : Type*} {stream longer xs : List α} {p : ℕ}

def StandsAt (stream : List α) (p : ℕ) (xs : List α) : Prop :=
  p ≤ stream.length ∧ xs <+: stream.drop p

namespace StandsAt

theorem length_le (h : StandsAt stream p xs) : p + xs.length ≤ stream.length := by
  have := h.2.length_le
  rw [List.length_drop] at this
  have := h.1
  omega

theorem grow (h : StandsAt stream p xs) (hle : stream <+: longer) : StandsAt longer p xs := by
  obtain ⟨rest, rfl⟩ := hle
  refine ⟨by rw [List.length_append]; have := h.1; omega, ?_⟩
  rw [List.drop_append_of_le_length h.1]
  exact h.2.trans (List.prefix_append ..)

theorem take (h : StandsAt stream p xs) (n : ℕ) : StandsAt stream p (xs.take n) :=
  ⟨h.1, List.IsPrefix.trans ( List.take_prefix n xs) h.2⟩

theorem drop (h : StandsAt stream p xs) {n : ℕ} (hn : n ≤ xs.length) :
    StandsAt stream (p + n) (xs.drop n) := by
  refine ⟨by have := h.length_le; omega, ?_⟩
  rw [← List.drop_drop]
  exact h.2.drop n

theorem nil (h : p ≤ stream.length) : StandsAt stream p [] := ⟨h, List.nil_prefix⟩

theorem append (h : StandsAt stream p xs) (hend : p + xs.length = stream.length) (ys : List α) :
    StandsAt (stream ++ ys) p (xs ++ ys) := by
  refine ⟨by rw [List.length_append]; have := h.1; omega, ?_⟩
  rw [List.drop_append_of_le_length h.1, h.2.eq_of_length (by rw [List.length_drop]; omega)]

theorem atEnd (stream ys : List α) : StandsAt (stream ++ ys) stream.length ys := by
  refine ⟨by rw [List.length_append]; omega, ?_⟩
  rw [List.drop_left]

/-- The next piece of a stream of which the first `p` elements are here. -/
theorem take_append (h : StandsAt stream p xs) :
    stream.take p ++ xs = stream.take (p + xs.length) := by
  rw [List.take_add, List.prefix_iff_eq_take.mp h.2, List.length_take, List.length_drop]
  have := h.length_le
  rw [Nat.min_eq_left (by omega)]

end StandsAt

end EnvirMonitor.Machine
