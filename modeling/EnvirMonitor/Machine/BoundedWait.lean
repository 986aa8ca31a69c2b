import Mathlib.Data.Stream.Init
import Mathlib.Tactic

/-! Wait loops on a sampled line: each turn takes one sample, and a loop ends when the line
leaves a level or its turns are used up. Every line is one of the two ways in which a loop can
end, followed by what is left. -/

namespace EnvirMonitor.Machine

abbrev Line := Stream' Bool

/-- The number of turns made, and the rest of the line. The level is sampled before the turns
are counted. -/
def waitWhile (level : Bool) : ℕ → Line → ℕ × Line
  | 0, line => (0, line.tail)
  | turns + 1, line =>
    if line.head = level then
      let (count, rest) := waitWhile level turns line.tail
      (count + 1, rest)
    else (0, line.tail)

def Expires (level : Bool) (turns : ℕ) (line : Line) : Prop := ∀ n ≤ turns, line.get n = level

inductive Wait (turns : ℕ)
  | changes (n : Fin (turns + 1))
  | expires
  deriving DecidableEq

namespace Wait
variable {turns : ℕ}

def levels (level : Bool) : Wait turns → List Bool
  | changes n => List.replicate n level ++ [!level]
  | expires => List.replicate (turns + 1) level

def count : Wait turns → ℕ
  | changes n => n
  | expires => turns

end Wait

variable {turns : ℕ} (level : Bool)

theorem waitWhile_replicate (n : ℕ) (rest : Line) :
    waitWhile level (n + turns) (List.replicate n level ++ₛ rest) =
      ((waitWhile level turns rest).1 + n, (waitWhile level turns rest).2) := by
  induction n with
  | zero => rw [Nat.zero_add]; rfl
  | succ n ih =>
    rw [Nat.succ_add, List.replicate_succ, Stream'.cons_append_stream, waitWhile,
      Stream'.head_cons, if_pos rfl, Stream'.tail_cons, ih]
    rfl

theorem waitWhile_changed (rest : Line) :
    waitWhile level turns ([!level] ++ₛ rest) = (0, rest) := by
  cases turns with
  | zero => rfl
  | succ turns =>
    rw [waitWhile]
    exact if_neg (Bool.not_ne_self level)

theorem waitWhile_levels (w : Wait turns) (rest : Line) :
    waitWhile level turns (w.levels level ++ₛ rest) = (w.count, rest) := by
  cases w with
  | changes n =>
    obtain ⟨left, hleft⟩ := Nat.exists_eq_add_of_le (Nat.le_of_lt_succ n.isLt)
    have hloop := @waitWhile_replicate left level n ([!level] ++ₛ rest)
    rw [← hleft, waitWhile_changed, Nat.zero_add] at hloop
    rw [Wait.levels, Stream'.append_append_stream]
    exact hloop
  | expires =>
    have hloop := @waitWhile_replicate 0 level turns ([level] ++ₛ rest)
    rw [Wait.levels, List.replicate_succ', Stream'.append_append_stream]
    rw [Nat.add_zero] at hloop
    rw [hloop]
    show (0 + turns, rest) = (turns, rest)
    rw [Nat.zero_add]

theorem expires_levels_iff (w : Wait turns) (rest : Line) :
    Expires level turns (w.levels level ++ₛ rest) ↔ w = .expires := by
  cases w with
  | changes n =>
    apply iff_of_false
    · intro h
      have hlast := h n (Nat.le_of_lt_succ n.isLt)
      rw [Wait.levels, Stream'.append_append_stream] at hlast
      have hget := Stream'.get_append_length (List.replicate (n : ℕ) level) ([!level] ++ₛ rest)
      rw [List.length_replicate, hlast] at hget
      exact Bool.not_ne_self level hget.symm
    · rintro ⟨⟩
  | expires =>
    apply iff_of_true _ rfl
    intro n hn
    have hlen : n < (List.replicate (turns + 1) level).length := by
      rw [List.length_replicate]
      exact Nat.lt_succ_of_le hn
    rw [Wait.levels, Stream'.get_append_left _ _ _ hlen, List.getElem_replicate]

def Wait.more : Wait turns → Wait (turns + 1)
  | changes n => .changes n.succ
  | expires => .expires

theorem Wait.levels_more (w : Wait turns) : w.more.levels level = level :: w.levels level := by
  cases w <;> rfl

theorem exists_levels_of_ne {line : Line} (hhead : line.head ≠ level) :
    ∃ (w : Wait turns) (rest : Line), line = w.levels level ++ₛ rest := by
  refine ⟨.changes 0, line.tail, ?_⟩
  show line = Stream'.cons (!level) line.tail
  rw [← Bool.eq_not_of_ne hhead, Stream'.eta]

theorem exists_levels (turns : ℕ) (line : Line) :
    ∃ (w : Wait turns) (rest : Line), line = w.levels level ++ₛ rest := by
  induction turns generalizing line with
  | zero =>
    by_cases hhead : line.head = level
    · refine ⟨.expires, line.tail, ?_⟩
      show line = Stream'.cons level line.tail
      rw [← hhead, Stream'.eta]
    · exact exists_levels_of_ne level hhead
  | succ turns ih =>
    by_cases hhead : line.head = level
    · obtain ⟨w, rest, htail⟩ := ih line.tail
      refine ⟨w.more, rest, ?_⟩
      rw [Wait.levels_more, Stream'.cons_append_stream, ← htail, ← hhead, Stream'.eta]
    · exact exists_levels_of_ne level hhead

end EnvirMonitor.Machine
