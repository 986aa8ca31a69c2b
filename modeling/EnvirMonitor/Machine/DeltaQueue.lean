import Mathlib.Data.List.Sort
import Mathlib.Tactic

/-! Timer queues that store with each entry the time since the entry before it, as queues of
absolute deadlines. -/

namespace EnvirMonitor.Machine

variable {α : Type*}

def deadlines : ℕ → List (ℕ × α) → List (ℕ × α)
  | _, [] => []
  | clock, (d, a) :: q => (clock + d, a) :: deadlines (clock + d) q

def insertDelta (n : ℕ) (a : α) : List (ℕ × α) → List (ℕ × α)
  | [] => [(n, a)]
  | (d, b) :: q => if n < d then (n, a) :: (d - n, b) :: q else (d, b) :: insertDelta (n - d) a q

/-- An entry that leaves the queue gives its time to the next one. -/
def addHead (d : ℕ) : List (ℕ × α) → List (ℕ × α)
  | [] => []
  | (e, b) :: q => (e + d, b) :: q

def removeDelta (p : α → Bool) : List (ℕ × α) → List (ℕ × α)
  | [] => []
  | (d, b) :: q => if p b then addHead d q else (d, b) :: removeDelta p q

def Sooner (x y : ℕ × α) : Prop := x.1 < y.1

instance (x y : ℕ × α) : Decidable (Sooner x y) := inferInstanceAs (Decidable (_ < _))

theorem deadlines_insertDelta (clock n : ℕ) (a : α) (q : List (ℕ × α)) :
    deadlines clock (insertDelta n a q) = (deadlines clock q).orderedInsert Sooner (clock + n, a) := by
  induction q generalizing clock n with
  | nil => rfl
  | cons e q ih =>
    obtain ⟨d, b⟩ := e
    rw [insertDelta, deadlines, List.orderedInsert]
    by_cases h : n < d
    · have hsooner : Sooner (clock + n, a) (clock + d, b) := Nat.add_lt_add_left h clock
      have hrest : clock + n + (d - n) = clock + d := by omega
      rw [if_pos h, if_pos hsooner, deadlines, deadlines, hrest]
    · have hlater : ¬ Sooner (clock + n, a) (clock + d, b) := fun hno =>
        h (Nat.lt_of_add_lt_add_left hno)
      have hrest : clock + d + (n - d) = clock + n := by omega
      rw [if_neg h, if_neg hlater, deadlines, ih, hrest]

theorem deadlines_addHead (clock d : ℕ) (q : List (ℕ × α)) :
    deadlines clock (addHead d q) = deadlines (clock + d) q := by
  rcases q with _ | ⟨⟨e, b⟩, q⟩
  · rfl
  · have hsum : clock + (e + d) = clock + d + e := by omega
    rw [addHead, deadlines, deadlines, hsum]

theorem deadlines_removeDelta (clock : ℕ) (p : α → Bool) (q : List (ℕ × α)) :
    deadlines clock (removeDelta p q) = (deadlines clock q).eraseP fun x => p x.2 := by
  induction q generalizing clock with
  | nil => rfl
  | cons e q ih =>
    obtain ⟨d, b⟩ := e
    rw [removeDelta, deadlines, List.eraseP_cons, cond_eq_ite]
    by_cases h : p b
    · rw [if_pos h, if_pos h, deadlines_addHead]
    · rw [if_neg h, if_neg h, deadlines, ih]

theorem le_of_mem_deadlines {clock : ℕ} {q : List (ℕ × α)} {x : ℕ × α}
    (hx : x ∈ deadlines clock q) : clock ≤ x.1 := by
  induction q generalizing clock with
  | nil => exact absurd hx List.not_mem_nil
  | cons e q ih =>
    rcases List.mem_cons.mp hx with rfl | hx
    · exact Nat.le_add_right ..
    · exact (Nat.le_add_right ..).trans (ih hx)

theorem exists_of_mem_deadlines {clock : ℕ} {q : List (ℕ × α)} {x : ℕ × α}
    (hx : x ∈ deadlines clock q) : ∃ e ∈ q, e.2 = x.2 := by
  induction q generalizing clock with
  | nil => exact absurd hx List.not_mem_nil
  | cons e q ih =>
    rcases List.mem_cons.mp hx with rfl | hx
    · exact ⟨e, List.mem_cons_self, rfl⟩
    · obtain ⟨e', he, heq⟩ := ih hx
      exact ⟨e', List.mem_cons_of_mem e he, heq⟩

theorem deadlines_sorted (clock : ℕ) (q : List (ℕ × α)) :
    (deadlines clock q).Pairwise fun x y => x.1 ≤ y.1 := by
  induction q generalizing clock with
  | nil => exact List.Pairwise.nil
  | cons e q ih => exact List.pairwise_cons.mpr ⟨fun y hy => le_of_mem_deadlines hy, ih _⟩

theorem length_deadlines (clock : ℕ) (q : List (ℕ × α)) : (deadlines clock q).length = q.length := by
  induction q generalizing clock with
  | nil => rfl
  | cons e q ih => rw [deadlines, List.length_cons, List.length_cons, ih]

theorem filter_orderedInsert_of_neg {p : ℕ × α → Bool} {x : ℕ × α} (hx : ¬ p x)
    (l : List (ℕ × α)) : (l.orderedInsert Sooner x).filter p = l.filter p := by
  induction l with
  | nil => exact List.filter_cons_of_neg hx
  | cons y l ih =>
    rw [List.orderedInsert]
    split_ifs
    · exact List.filter_cons_of_neg hx
    · rw [List.filter_cons, List.filter_cons, ih]

theorem filter_orderedInsert_of_pos {p : ℕ × α → Bool} {x : ℕ × α} (hx : p x) {l : List (ℕ × α)}
    (hnone : l.filter p = []) : (l.orderedInsert Sooner x).filter p = [x] := by
  have hperm := (List.perm_orderedInsert Sooner x l).filter p
  rw [List.filter_cons_of_pos hx, hnone] at hperm
  exact List.perm_singleton.mp hperm

theorem deadlines_add (clock n : ℕ) (q : List (ℕ × α)) :
    deadlines (n + clock) q = (deadlines n q).map fun x => (x.1 + clock, x.2) := by
  induction q generalizing n with
  | nil => rfl
  | cons e q ih =>
    rw [deadlines, deadlines, List.map_cons, Nat.add_right_comm, ih]

theorem deadlines_zero (clock : ℕ) (q : List (ℕ × α)) :
    deadlines 0 q = (deadlines clock q).map fun x => (x.1 - clock, x.2) := by
  have hadd := deadlines_add clock 0 q
  rw [Nat.zero_add] at hadd
  rw [hadd, List.map_map]
  refine (List.map_id _).symm.trans (List.map_congr_left fun x _ => ?_)
  simp

/-! ## Periodic entries -/

def timesDue (time deadline period : ℕ) : ℕ :=
  if deadline ≤ time then (time - deadline) / period + 1 else 0

theorem timesDue_of_lt {time deadline : ℕ} (h : time < deadline) (period : ℕ) :
    timesDue time deadline period = 0 := if_neg (Nat.not_le.mpr h)

theorem timesDue_step {time deadline period : ℕ} (hperiod : 0 < period) (h : deadline ≤ time) :
    timesDue time deadline period = timesDue time (deadline + period) period + 1 := by
  rw [timesDue, timesDue, if_pos h]
  by_cases hnext : deadline + period ≤ time
  · have hsplit : time - deadline = time - (deadline + period) + period := by omega
    rw [if_pos hnext, hsplit, Nat.add_div_right _ hperiod]
  · rw [if_neg hnext, Nat.div_eq_of_lt (by omega)]

theorem timesDue_le {clock n deadline period : ℕ} (h : clock ≤ deadline) :
    timesDue (clock + n) deadline period ≤ n / period + 1 := by
  rw [timesDue]
  split_ifs with hdue
  · exact Nat.add_le_add_right (Nat.div_le_div_right (by omega)) 1
  · exact Nat.zero_le _

end EnvirMonitor.Machine
