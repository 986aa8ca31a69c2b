import EnvirMonitor.Machine.Words
import EnvirMonitor.Machine.DeltaQueue

/-! The timeout list of `timers.c`, where each entry counts from the one before it and takes an element
of a pool, and the queue of absolute deadlines that it stands for. -/

namespace EnvirMonitor.Lwip
open Machine

variable {α : Type*}

/-- The loop of `sys_timeout`, past an entry that expires no later than the new one. -/
def insertTimeo (time : U32) (h : α) : U32 × α → List (U32 × α) → List (U32 × α)
  | t, [] => [t, (time - t.1, h)]
  | t, u :: rest =>
    let time := time - t.1
    if time < u.1 then t :: (time, h) :: (u.1 - time, u.2) :: rest
    else t :: insertTimeo time h u rest

/-- `sys_timeout` on `next_timeout` with the new entry; `h` is the handler with its argument. -/
def linkTimeo (msecs : U32) (h : α) : List (U32 × α) → List (U32 × α)
  | [] => [(msecs, h)]
  | t :: rest =>
    if msecs < t.1 then (msecs, h) :: (t.1 - msecs, t.2) :: rest else insertTimeo msecs h t rest

def addBack (time : U32) : List (U32 × α) → List (U32 × α)
  | [] => []
  | u :: rest => (u.1 + time, u.2) :: rest

/-- `sys_untimeout` on `next_timeout`, which adds the time of the entry back to the next one. -/
def unlinkTimeo [DecidableEq α] (h : α) : List (U32 × α) → List (U32 × α)
  | [] => []
  | t :: rest => if t.2 = h then addBack t.1 rest else t :: unlinkTimeo h rest

def memNumSysTimeout : ℕ := 5

structure Timeouts (α : Type*) where
  nextTimeout : List (U32 × α)
  /-- Free elements of the pool `MEMP_SYS_TIMEOUT`. -/
  free : ℕ

/-- Without a free element nothing is set. -/
def sysTimeout (msecs : U32) (h : α) (t : Timeouts α) : Timeouts α :=
  if t.free = 0 then t else ⟨linkTimeo msecs h t.nextTimeout, t.free - 1⟩

def sysUntimeout [DecidableEq α] (h : α) (t : Timeouts α) : Timeouts α :=
  if ∃ x ∈ t.nextTimeout, x.2 = h then ⟨unlinkTimeo h t.nextTimeout, t.free + 1⟩ else t

def toDelta (q : List (U32 × α)) : List (ℕ × α) := q.map fun t => (t.1.toNat, t.2)

theorem toDelta_insertTimeo {time : U32} {t : U32 × α} (h : t.1 ≤ time) (a : α)
    (rest : List (U32 × α)) : toDelta (insertTimeo time a t rest) =
      (t.1.toNat, t.2) :: insertDelta (time.toNat - t.1.toNat) a (toDelta rest) := by
  have hsub : (time - t.1).toNat = time.toNat - t.1.toNat := BitVec.toNat_sub_of_le h
  induction rest generalizing time t with
  | nil => rw [insertTimeo, toDelta, List.map_cons, List.map_singleton, hsub]; rfl
  | cons u rest ih =>
    rw [insertTimeo, toDelta, toDelta, List.map_cons, insertDelta, ← hsub]
    by_cases hlt : time - t.1 < u.1
    · have hrest : (u.1 - (time - t.1)).toNat = u.1.toNat - (time - t.1).toNat :=
        BitVec.toNat_sub_of_le (BitVec.le_of_lt hlt)
      have hlt' : (time - t.1).toNat < u.1.toNat := hlt
      rw [if_pos hlt, if_pos hlt', List.map_cons, List.map_cons, List.map_cons, hrest]
    · have hlt' : ¬ (time - t.1).toNat < u.1.toNat := hlt
      have hle : u.1 ≤ time - t.1 := BitVec.not_lt.mp hlt
      rw [if_neg hlt, if_neg hlt', List.map_cons]
      exact congrArg _ (ih hle (BitVec.toNat_sub_of_le hle))

/-- No subtraction of `sys_timeout` wraps around. -/
theorem toDelta_linkTimeo (msecs : U32) (a : α) (q : List (U32 × α)) :
    toDelta (linkTimeo msecs a q) = insertDelta msecs.toNat a (toDelta q) := by
  rcases q with _ | ⟨t, rest⟩
  · rfl
  · rw [linkTimeo, toDelta, toDelta, List.map_cons, insertDelta]
    by_cases hlt : msecs < t.1
    · have hrest : (t.1 - msecs).toNat = t.1.toNat - msecs.toNat :=
        BitVec.toNat_sub_of_le (BitVec.le_of_lt hlt)
      have hlt' : msecs.toNat < t.1.toNat := hlt
      rw [if_pos hlt, if_pos hlt', List.map_cons, List.map_cons, hrest]
    · have hlt' : ¬ msecs.toNat < t.1.toNat := hlt
      rw [if_neg hlt, if_neg hlt']
      exact toDelta_insertTimeo (BitVec.not_lt.mp hlt) a rest

theorem length_deadlines_toDelta (clock : ℕ) (q : List (U32 × α)) :
    (deadlines clock (toDelta q)).length = q.length := by
  rw [length_deadlines, toDelta, List.length_map]

theorem length_linkTimeo (msecs : U32) (a : α) (q : List (U32 × α)) :
    (linkTimeo msecs a q).length = q.length + 1 := by
  rw [← length_deadlines_toDelta 0, toDelta_linkTimeo, deadlines_insertDelta, List.orderedInsert_length,
    length_deadlines_toDelta]

theorem length_unlinkTimeo [DecidableEq α] {h : α} {q : List (U32 × α)} (hmem : ∃ x ∈ q, x.2 = h) :
    (unlinkTimeo h q).length + 1 = q.length := by
  induction q with
  | nil => simp at hmem
  | cons t rest ih =>
    rw [unlinkTimeo, List.length_cons]
    split_ifs with heq
    · cases rest <;> rfl
    · rw [List.length_cons, ih ((List.exists_mem_cons_iff ..).mp hmem |>.resolve_left heq)]

/-- The addition of `sys_untimeout` does not either, while no deadline is 2 ^ 32 ms ahead. -/
theorem toDelta_unlinkTimeo [DecidableEq α] {clock start : ℕ} {q : List (U32 × α)} (h : α)
    (hstart : start ≤ clock) (hfar : ∀ x ∈ deadlines clock (toDelta q), x.1 < start + 2 ^ 32) :
    toDelta (unlinkTimeo h q) = removeDelta (fun b => decide (b = h)) (toDelta q) := by
  induction q generalizing clock with
  | nil => rfl
  | cons t rest ih =>
    have htail := @ih (clock + t.1.toNat) (by omega)
      fun x hx => hfar x (List.mem_cons_of_mem _ hx)
    rw [unlinkTimeo, toDelta, toDelta, List.map_cons, removeDelta]
    by_cases heq : t.2 = h
    · rw [if_pos heq, if_pos (decide_eq_true heq)]
      rcases rest with _ | ⟨u, rest⟩
      · rfl
      · have hsecond := hfar (clock + t.1.toNat + u.1.toNat, u.2) (.tail _ (.head _))
        have hsum : (u.1 + t.1).toNat = u.1.toNat + t.1.toNat :=
          BitVec.toNat_add_of_lt (by simp only at hsecond; omega)
        rw [addBack, List.map_cons, List.map_cons, addHead, hsum]
    · rw [if_neg heq, if_neg (by simpa using heq), List.map_cons]
      exact congrArg _ htail

/-! ## Calls in any order -/

/-- What the list stands for: the time to which it has expired and the deadlines ahead. -/
structure Agenda (α : Type*) where
  clock : ℕ
  due : List (ℕ × α)

inductive TimeoOp (α : Type*)
  | timeout (msecs : U32) (h : α)
  | untimeout (h : α)
  /-- `sys_check_timeouts` takes the first entry. -/
  | expire

def TimeoOp.run [DecidableEq α] (t : Timeouts α) : TimeoOp α → Timeouts α
  | timeout msecs h => sysTimeout msecs h t
  | untimeout h => sysUntimeout h t
  | expire =>
    match t.nextTimeout with
    | [] => t
    | _ :: rest => ⟨rest, t.free + 1⟩

def TimeoOp.plan [DecidableEq α] (a : Agenda α) : TimeoOp α → Agenda α
  | timeout msecs h =>
    if a.due.length < memNumSysTimeout then
      { a with due := a.due.orderedInsert Sooner (a.clock + msecs.toNat, h) }
    else a
  | untimeout h => { a with due := a.due.eraseP fun x => decide (x.2 = h) }
  | expire =>
    match a.due with
    | [] => a
    | (time, _) :: due => ⟨time, due⟩

/-- The list holds the agenda, no deadline is too far ahead for a `u32_t`, and the elements of the
pool are in the list or free. -/
structure Holds (t : Timeouts α) (a : Agenda α) : Prop where
  due : deadlines a.clock (toDelta t.nextTimeout) = a.due
  near : ∀ x ∈ a.due, x.1 < a.clock + 2 ^ 32
  pool : t.free + t.nextTimeout.length = memNumSysTimeout

theorem Holds.length {t : Timeouts α} {a : Agenda α} (h : Holds t a) :
    a.due.length = t.nextTimeout.length := by
  rw [← h.due, length_deadlines_toDelta]

theorem Holds.timeout {t : Timeouts α} {a : Agenda α} (h : Holds t a) (msecs : U32) (b : α)
    [DecidableEq α] : Holds ((TimeoOp.timeout msecs b).run t) ((TimeoOp.timeout msecs b).plan a) := by
  have hpool := h.pool
  rw [TimeoOp.run, sysTimeout, TimeoOp.plan, h.length]
  by_cases hfree : t.free = 0
  · rw [if_pos hfree, if_neg (by omega)]
    exact h
  · rw [if_neg hfree, if_pos (by omega)]
    refine ⟨?_, fun x hx => ?_, ?_⟩
    · rw [toDelta_linkTimeo, deadlines_insertDelta, h.due]
    · rcases List.mem_cons.mp ((List.perm_orderedInsert Sooner _ _).mem_iff.mp hx) with rfl | hx
      · have := msecs.isLt
        simp only
        omega
      · exact h.near x hx
    · simp only [length_linkTimeo]
      omega

theorem Holds.untimeout {t : Timeouts α} {a : Agenda α} (h : Holds t a) (b : α) [DecidableEq α] :
    Holds ((TimeoOp.untimeout b).run t) ((TimeoOp.untimeout b).plan a) := by
  have hremoved : deadlines a.clock (toDelta (unlinkTimeo b t.nextTimeout)) =
      a.due.eraseP fun x => decide (x.2 = b) := by
    rw [toDelta_unlinkTimeo b le_rfl (by rw [h.due]; exact h.near), deadlines_removeDelta, h.due]
  have hnear : ∀ x ∈ a.due.eraseP fun x => decide (x.2 = b), x.1 < a.clock + 2 ^ 32 :=
    fun x hx => h.near x (List.mem_of_mem_eraseP hx)
  rw [TimeoOp.run, sysUntimeout, TimeoOp.plan]
  split_ifs with hmem
  · refine ⟨hremoved, hnear, ?_⟩
    have hlength := length_unlinkTimeo hmem
    have hpool := h.pool
    simp only
    omega
  · have hnone : ∀ x ∈ a.due, ¬ decide (x.2 = b) = true := by
      rw [← h.due]
      intro x hx hb
      obtain ⟨y, hy, hyx⟩ := exists_of_mem_deadlines hx
      obtain ⟨z, hz, rfl⟩ := List.mem_map.mp hy
      exact hmem ⟨z, hz, hyx.trans (of_decide_eq_true hb)⟩
    rw [List.eraseP_of_forall_not hnone]
    exact h

theorem Holds.step [DecidableEq α] {t : Timeouts α} {a : Agenda α} (h : Holds t a)
    (op : TimeoOp α) : Holds (op.run t) (op.plan a) := by
  cases op with
  | timeout msecs b => exact h.timeout msecs b
  | untimeout b => exact h.untimeout b
  | expire =>
    obtain ⟨q, free⟩ := t
    have hdue := h.due
    have hpool := h.pool
    rcases q with _ | ⟨u, rest⟩
    · rw [TimeoOp.plan, ← hdue]
      exact h
    · have hplan : TimeoOp.plan a .expire =
          ⟨a.clock + u.1.toNat, deadlines (a.clock + u.1.toNat) (toDelta rest)⟩ := by
        rw [TimeoOp.plan, ← hdue]
        rfl
      rw [hplan]
      refine ⟨rfl, fun x hx => ?_, ?_⟩
      · have := h.near x (by rw [← hdue]; exact List.mem_cons_of_mem _ hx)
        simp only
        omega
      · simp only [List.length_cons] at hpool
        simp only [TimeoOp.run]
        omega

/-- After any calls the list is the queue of absolute deadlines, in their order. -/
theorem timeouts_agenda [DecidableEq α] (ops : List (TimeoOp α)) :
    Holds (ops.foldl TimeoOp.run ⟨[], memNumSysTimeout⟩) (ops.foldl TimeoOp.plan ⟨0, []⟩) ∧
      (ops.foldl TimeoOp.plan ⟨0, []⟩).due.Pairwise fun x y => x.1 ≤ y.1 := by
  have hrun (t : Timeouts α) (a : Agenda α) (h : Holds t a) :
      Holds (ops.foldl TimeoOp.run t) (ops.foldl TimeoOp.plan a) := by
    induction ops generalizing t a with
    | nil => exact h
    | cons op ops ih => exact ih _ _ (h.step op)
  have hholds := hrun ⟨[], memNumSysTimeout⟩ ⟨0, []⟩ ⟨rfl, fun x hx => absurd hx List.not_mem_nil, rfl⟩
  refine ⟨hholds, ?_⟩
  rw [← hholds.due]
  exact deadlines_sorted ..

end EnvirMonitor.Lwip
