import EnvirMonitor.Lwip.CyclicTimers

/-! Runs of the timers: connections come and go, and `sys_check_timeouts` is called at any times,
by a clock of 32 bits. -/

namespace EnvirMonitor.Lwip
open Machine

/-- The time in milliseconds, which `sys_now` cuts to a `u32_t`. -/
structure TimerSystem where
  now : ℕ
  timers : Timers

inductive TimerStep : TimerSystem → TimerSystem → Prop
  | wait {s : TimerSystem} (n : ℕ) : TimerStep s { s with now := s.now + n }
  /-- `TCP_REG`, to the list of active connections or to another one. -/
  | register {s : TimerSystem} (active : Bool) :
      TimerStep s { s with timers := tcpTimerNeeded { s.timers with pcbs := s.timers.pcbs || active } }
  /-- `TCP_RMV` of the last connection. -/
  | remove {s : TimerSystem} : TimerStep s { s with timers := { s.timers with pcbs := false } }
  | check {s : TimerSystem} {t : Timers} (pcbs : ℕ → Bool)
      (hcheck : sysCheckTimeouts pcbs (BitVec.ofNat 32 s.now) s.timers = some t) :
      TimerStep s { s with timers := t }

def timerStart (start : ℕ) : TimerSystem := ⟨start, sysTimeoutsInit (BitVec.ofNat 32 start)⟩

def TimerReachable (start : ℕ) (s : TimerSystem) : Prop :=
  Relation.ReflTransGen TimerStep (timerStart start) s

/-- The list has expired up to `clock`, which the last expiry at `last` brought no further. -/
structure TimerInv (start clock last : ℕ) (due : CyclicTimer → ℕ) (s : TimerSystem) : Prop where
  scheduled : Scheduled clock due s.timers
  paced : Paced start clock due s.timers
  clock_le : clock ≤ last
  last_le : last ≤ s.now
  last_eq : s.timers.timeoutsLastTime = BitVec.ofNat 32 last
  alive : s.timers.Alive

theorem timerStart_inv (start : ℕ) : TimerInv start start start
    (fun h => start + h.interval.toNat) (timerStart start) := by
  refine ⟨⟨fun h => ?_, rfl⟩, ⟨fun h => ?_, fun h _ => ?_⟩, le_rfl, le_rfl, rfl, fun h => ?_⟩
  · cases h <;> rfl
  · cases h <;> exact le_rfl
  · cases h <;> exact le_rfl
  · exact absurd h Bool.false_ne_true

/-- The difference that wraps around is no more than the time that has passed. -/
theorem diff_le {last now : ℕ} (h : last ≤ now) :
    (BitVec.ofNat 32 now - BitVec.ofNat 32 last).toNat ≤ now - last := by
  rw [BitVec.toNat_sub, BitVec.toNat_ofNat, BitVec.toNat_ofNat]
  omega

/-- The loop ends: every timer moves on by at least 250 ms each time. -/
theorem Scheduled.sysCheckTimeouts {clock : ℕ} {due : CyclicTimer → ℕ} {t : Timers}
    (hs : Scheduled clock due t) (pcbs : ℕ → Bool) (now : U32) :
    ∃ t', sysCheckTimeouts pcbs now t = some t' ∧
      Checked clock due (clock + (now - t.timeoutsLastTime).toNat) now t t' := by
  refine hs.check pcbs now (Nat.lt_succ_of_le ?_)
  set diff := (now - t.timeoutsLastTime).toNat
  have hcaught (h : CyclicTimer) (harmed : t.armed h) :
      CyclicTimer.caughtUp due (clock + diff) h ≤ diff / 250 + 1 := by
    refine (timesDue_le (le_of_mem_deadlines (hs.mem_deadlines harmed))).trans ?_
    exact Nat.add_le_add_right (Nat.div_le_div_left h.interval_ge (by decide)) 1
  have hreass := hcaught .ipReassTimer rfl
  have harp := hcaught .arpTimer rfl
  rw [Timers.left]
  split_ifs with hactive
  · have htcp := hcaught .tcpipTcpTimer hactive
    omega
  · omega

theorem Scheduled.free_pos {clock : ℕ} {due : CyclicTimer → ℕ} {t : Timers}
    (hs : Scheduled clock due t) : 2 ≤ t.free := by
  have hpool := hs.pool
  have hlength := hs.length
  simp only [memNumSysTimeout] at hpool
  split_ifs at hlength <;> omega

theorem TimerInv.needed {start clock last : ℕ} {due : CyclicTimer → ℕ} {s : TimerSystem}
    (h : TimerInv start clock last due s) (active : Bool) : ∃ due', TimerInv start clock last due'
      { s with timers := tcpTimerNeeded { s.timers with pcbs := s.timers.pcbs || active } } := by
  have hfree := h.scheduled.free_pos
  rw [tcpTimerNeeded]
  split_ifs with hon
  · simp only [Bool.and_eq_true, Bool.not_eq_true'] at hon
    obtain ⟨hoff, hpcbs⟩ := hon
    set t : Timers := { s.timers with
      pcbs := s.timers.pcbs || active, tcpipTcpTimerActive := true }
    have hentry (g : CyclicTimer) : t.entries clock g =
        if t.armed g ∧ g ≠ .tcpipTcpTimer then [(due g, g)] else [] := by
      refine (h.scheduled.entry g).trans ?_
      cases g <;> simp [Timers.armed, hoff, t]
    have hset := Scheduled.timeout hentry h.scheduled.pool (by simp only [t]; omega) rfl
    have hfields : (t.timeout .tcpipTcpTimer).calls = s.timers.calls ∧
        (t.timeout .tcpipTcpTimer).timeoutsLastTime = s.timers.timeoutsLastTime ∧
          (t.timeout .tcpipTcpTimer).tcpipTcpTimerActive = true := by
      rw [Timers.timeout_of_free (by simp only [t]; omega)]
      exact ⟨rfl, rfl, rfl⟩
    obtain ⟨hcalls, hlast, hactive⟩ := hfields
    refine ⟨_, hset, ⟨fun g => ?_, fun g _ => ?_⟩, h.clock_le, h.last_le, hlast.trans h.last_eq,
      fun _ => hactive⟩
    · rw [hcalls]
      exact h.paced.called g
    · have hcalled := h.paced.called g
      rw [hcalls]
      cases g with
      | tcpipTcpTimer =>
        rw [setDue, Function.update_self, Nat.mul_add _ _ 1]
        omega
      | ipReassTimer => exact h.paced.ahead .ipReassTimer rfl
      | arpTimer => exact h.paced.ahead .arpTimer rfl
  · refine ⟨due, ⟨h.scheduled.entry, h.scheduled.pool⟩, ⟨h.paced.called, h.paced.ahead⟩,
      h.clock_le, h.last_le, h.last_eq, fun hpcbs => ?_⟩
    have hsome : (s.timers.pcbs || active) = true := hpcbs
    rw [hsome, Bool.and_true, Bool.not_eq_true', Bool.not_eq_false] at hon
    exact hon

theorem TimerInv.check {start clock last : ℕ} {due : CyclicTimer → ℕ} {s : TimerSystem}
    (h : TimerInv start clock last due s) {pcbs : ℕ → Bool} {t : Timers}
    (hcheck : sysCheckTimeouts pcbs (BitVec.ofNat 32 s.now) s.timers = some t) :
    ∃ clock' last' due', TimerInv start clock' last' due' { s with timers := t } := by
  obtain ⟨t', hcheck', hchecked⟩ := h.scheduled.sysCheckTimeouts pcbs (BitVec.ofNat 32 s.now)
  obtain rfl := Option.some.inj (hcheck.symm.trans hcheck')
  obtain ⟨clock', due', hle, hend, hs, -, -, hpaced⟩ := hchecked.scheduled
  have halive := hchecked.alive h.alive
  rcases hchecked.last with rfl | hlast
  · exact ⟨clock, last, due, h⟩
  · have hdiff := diff_le h.last_le
    have hclock := h.clock_le
    have hlastLe := h.last_le
    rw [h.last_eq] at hend
    exact ⟨clock', s.now, due', hs, hpaced start h.paced, by omega, le_rfl, hlast, halive⟩

theorem TimerReachable.inv {start : ℕ} {s : TimerSystem} (h : TimerReachable start s) :
    ∃ clock last due, TimerInv start clock last due s := by
  induction h with
  | refl => exact ⟨_, _, _, timerStart_inv start⟩
  | tail _ hstep ih =>
    obtain ⟨clock, last, due, hinv⟩ := ih
    cases hstep with
    | wait n =>
      exact ⟨clock, last, due, hinv.scheduled, hinv.paced, hinv.clock_le,
        Nat.le_add_right_of_le hinv.last_le, hinv.last_eq, hinv.alive⟩
    | register active => exact ⟨clock, last, hinv.needed active⟩
    | remove =>
      exact ⟨clock, last, due, ⟨hinv.scheduled.entry, hinv.scheduled.pool⟩,
        ⟨hinv.paced.called, hinv.paced.ahead⟩, hinv.clock_le, hinv.last_le, hinv.last_eq,
        fun hpcbs => absurd hpcbs Bool.false_ne_true⟩
    | check pcbs hcheck => exact hinv.check hcheck

/-- No timer gets lost or set twice, the one of TCP runs while there are connections, and the
pool of five elements never runs out. -/
structure TimersKept (t : Timers) : Prop where
  entries : ∀ h, (t.nextTimeout.filter fun x => decide (x.2 = h)).length = if t.armed h then 1 else 0
  alive : t.pcbs = true → t.tcpipTcpTimerActive = true
  free : 2 ≤ t.free ∧ t.free + t.nextTimeout.length = memNumSysTimeout
  checks : ∀ pcbs now, (sysCheckTimeouts pcbs now t).isSome

theorem filter_deadlines (clock : ℕ) (q : List (U32 × CyclicTimer)) (h : CyclicTimer) :
    ((deadlines clock (toDelta q)).filter fun x => decide (x.2 = h)).length =
      (q.filter fun x => decide (x.2 = h)).length := by
  induction q generalizing clock with
  | nil => rfl
  | cons x q ih =>
    have hcons : deadlines clock (toDelta (x :: q)) =
        (clock + x.1.toNat, x.2) :: deadlines (clock + x.1.toNat) (toDelta q) := rfl
    rw [hcons, List.filter_cons, List.filter_cons]
    split_ifs
    · rw [List.length_cons, List.length_cons, ih]
    · exact ih _

theorem timers_kept {start : ℕ} {s : TimerSystem} (h : TimerReachable start s) :
    TimersKept s.timers := by
  obtain ⟨clock, last, due, hinv⟩ := h.inv
  refine ⟨fun g => ?_, hinv.alive, ⟨hinv.scheduled.free_pos, hinv.scheduled.pool⟩, fun pcbs now => ?_⟩
  · have hlength := congrArg List.length (hinv.scheduled.entry g)
    rw [Timers.entries, filter_deadlines] at hlength
    rw [hlength]
    split_ifs <;> rfl
  · obtain ⟨t', hcheck, -⟩ := hinv.scheduled.sysCheckTimeouts pcbs now
    rw [hcheck]
    rfl

/-- However late and irregular the checks are, and wherever the clock wraps around, no timer is
called more often than its interval fits into the time since the start. -/
theorem timers_paced {start : ℕ} {s : TimerSystem} (h : TimerReachable start s) (g : CyclicTimer) :
    start + g.interval.toNat * s.timers.calls.count g ≤ s.now := by
  obtain ⟨clock, last, due, hinv⟩ := h.inv
  have hcalled := hinv.paced.called g
  have hclock := hinv.clock_le
  have hlast := hinv.last_le
  omega

/-! ## One check -/

theorem Scheduled.rebase {clock : ℕ} {due : CyclicTimer → ℕ} {t : Timers}
    (hs : Scheduled clock due t) : Scheduled 0 (fun h => due h - clock) t := by
  refine ⟨fun h => ?_, hs.pool⟩
  have hmap : t.entries 0 h = (t.entries clock h).map fun x => (x.1 - clock, x.2) := by
    rw [Timers.entries, deadlines_zero clock, List.filter_map]
    rfl
  rw [hmap, hs.entry]
  split_ifs <;> rfl

theorem Scheduled.of_mem {clock : ℕ} {due : CyclicTimer → ℕ} {t : Timers} {x : ℕ × CyclicTimer}
    (hs : Scheduled clock due t) (hx : x ∈ deadlines clock (toDelta t.nextTimeout)) :
    t.armed x.2 = true ∧ x.1 = due x.2 := by
  have hmem : x ∈ t.entries clock x.2 := List.mem_filter.mpr ⟨hx, by simp⟩
  rw [hs.entry] at hmem
  split_ifs at hmem with harmed
  · exact ⟨harmed, congrArg Prod.fst (List.mem_singleton.mp hmem)⟩
  · exact absurd hmem List.not_mem_nil

/-- What a check does that comes `diff` ms after the last expiry. The timers that always run are
called once for each interval that has passed, and nothing that is due stays in the list. -/
def CaughtUp (diff : ℕ) (t t' : Timers) : Prop :=
  ∃ elapsed ≤ diff, (∀ x ∈ deadlines elapsed (toDelta t'.nextTimeout), diff < x.1) ∧
    ∀ h, h ≠ .tcpipTcpTimer → ∃ wait, (wait, h) ∈ deadlines 0 (toDelta t.nextTimeout) ∧
      t'.calls.count h = t.calls.count h + timesDue diff wait h.interval.toNat ∧
      (wait + h.interval.toNat * timesDue diff wait h.interval.toNat, h) ∈
        deadlines elapsed (toDelta t'.nextTimeout)

theorem check_catches_up {start : ℕ} {s : TimerSystem} (h : TimerReachable start s)
    (pcbs : ℕ → Bool) (now : U32) {t : Timers} (hcheck : sysCheckTimeouts pcbs now s.timers = some t) :
    CaughtUp (now - s.timers.timeoutsLastTime).toNat s.timers t := by
  obtain ⟨clock, last, due, hinv⟩ := h.inv
  have hs := hinv.scheduled.rebase
  obtain ⟨t', hcheck', hchecked⟩ := hs.sysCheckTimeouts pcbs now
  obtain rfl := Option.some.inj (hcheck.symm.trans hcheck')
  rw [Nat.zero_add] at hchecked
  obtain ⟨elapsed, due', -, hend, hs', hlate, hdue', -⟩ := hchecked.scheduled
  refine ⟨elapsed, hend, fun x hx => ?_, fun g hne => ?_⟩
  · obtain ⟨harmed, hx⟩ := hs'.of_mem hx
    rw [hx]
    exact hlate _ harmed
  · have harmed (t : Timers) : t.armed g = true := by
      cases g
      · exact absurd rfl hne
      · rfl
      · rfl
    refine ⟨_, hs.mem_deadlines (harmed _), hchecked.calls g hne, ?_⟩
    have hmem := hs'.mem_deadlines (harmed _)
    rw [hdue' g hne] at hmem
    exact hmem

/-! ## A run -/

/-- A connection is made 40 ms after the start, 20 ms before the clock wraps around. -/
def sampleTimers : TimerSystem :=
  ⟨2 ^ 32 - 20, tcpTimerNeeded { sysTimeoutsInit (BitVec.ofNat 32 (2 ^ 32 - 60)) with pcbs := true }⟩

/-- A check 5300 ms later has called the timer of TCP 21 times. -/
def sampleChecked : Timers :=
  (sysCheckTimeouts (fun _ => true) 5280 sampleTimers.timers).getD sampleTimers.timers

theorem sample_check :
    sysCheckTimeouts (fun _ => true) 5280 sampleTimers.timers = some sampleChecked := by rfl

theorem sampleTimers_reachable : TimerReachable (2 ^ 32 - 60) sampleTimers :=
  .tail (.single (.wait 40)) (.register true)

theorem timers_kept_sample : TimersKept sampleTimers.timers := timers_kept sampleTimers_reachable

theorem sampleChecked_reachable : TimerReachable (2 ^ 32 - 60) ⟨2 ^ 32 + 5280, sampleChecked⟩ :=
  .tail (.tail sampleTimers_reachable (.wait 5300)) (.check _ sample_check)

theorem timers_paced_sample : sampleChecked.calls.count .tcpipTcpTimer = 21 ∧
    2 ^ 32 - 60 + CyclicTimer.tcpipTcpTimer.interval.toNat *
      sampleChecked.calls.count .tcpipTcpTimer ≤ 2 ^ 32 + 5280 :=
  ⟨by decide +kernel, timers_paced sampleChecked_reachable .tcpipTcpTimer⟩

theorem check_catches_up_sample :
    CaughtUp (5280 - sampleTimers.timers.timeoutsLastTime).toNat sampleTimers.timers sampleChecked :=
  check_catches_up sampleTimers_reachable _ _ sample_check

end EnvirMonitor.Lwip
