import EnvirMonitor.Lwip.Timeouts

/-! The timers of the firmware on the timeout list: `ip_reass_timer` and `arp_timer`, which always
set themselves again, and `tcpip_tcp_timer`, which runs while there are connections. -/

namespace EnvirMonitor.Lwip
open Machine

inductive CyclicTimer
  | tcpipTcpTimer
  | ipReassTimer
  | arpTimer
deriving DecidableEq

def CyclicTimer.interval : CyclicTimer → U32
  | tcpipTcpTimer => 250
  | ipReassTimer => 1000
  | arpTimer => 5000

structure Timers extends Timeouts CyclicTimer where
  timeoutsLastTime : U32
  tcpipTcpTimerActive : Bool
  /-- `tcp_active_pcbs || tcp_tw_pcbs` -/
  pcbs : Bool
  /-- The handlers called so far, the last one first. -/
  calls : List CyclicTimer

def Timers.timeout (t : Timers) (h : CyclicTimer) : Timers :=
  { t with toTimeouts := sysTimeout h.interval h t.toTimeouts }

theorem Timers.timeout_of_free {t : Timers} (hfree : t.free ≠ 0) (h : CyclicTimer) : t.timeout h =
    { t with free := t.free - 1, nextTimeout := linkTimeo h.interval h t.nextTimeout } := by
  rw [Timers.timeout, sysTimeout, if_neg hfree]

def sysTimeoutsInit (now : U32) : Timers :=
  let t : Timers := ⟨⟨[], memNumSysTimeout⟩, 0, false, false, []⟩
  let t := (t.timeout .ipReassTimer).timeout .arpTimer
  { t with timeoutsLastTime := now }

def tcpTimerNeeded (t : Timers) : Timers :=
  if !t.tcpipTcpTimerActive && t.pcbs then
    { t with tcpipTcpTimerActive := true }.timeout .tcpipTcpTimer
  else t

/-- A handler, where `tcp_tmr` leaves connections or not. -/
def callHandler (pcbs : Bool) (t : Timers) (h : CyclicTimer) : Timers :=
  let t := { t with calls := h :: t.calls }
  match h with
  | .tcpipTcpTimer =>
    let t := { t with pcbs := pcbs }
    if t.pcbs then t.timeout .tcpipTcpTimer else { t with tcpipTcpTimerActive := false }
  | h => t.timeout h

/-- The loop of `sys_check_timeouts`. After `n` calls `tcp_tmr` leaves connections if `pcbs n`. -/
def checkLoop (pcbs : ℕ → Bool) (now : U32) : ℕ → U32 → Timers → Option Timers
  | 0, _, _ => none
  | fuel + 1, diff, t =>
    match t.nextTimeout with
    | [] => some t
    | (time, h) :: rest =>
      if time ≤ diff then
        let t := { t with timeoutsLastTime := now, nextTimeout := rest, free := t.free + 1 }
        checkLoop pcbs now fuel (diff - time) (callHandler (pcbs t.calls.length) t h)
      else some t

/-- `sys_check_timeouts`, without result where its loop goes on longer than expected. -/
def sysCheckTimeouts (pcbs : ℕ → Bool) (now : U32) (t : Timers) : Option Timers :=
  let diff := now - t.timeoutsLastTime
  checkLoop pcbs now (3 * (diff.toNat / 250 + 1) + 1) diff t

/-! ## Entries -/

def Timers.armed (t : Timers) : CyclicTimer → Bool
  | .tcpipTcpTimer => t.tcpipTcpTimerActive
  | _ => true

def Timers.entries (t : Timers) (clock : ℕ) (h : CyclicTimer) : List (ℕ × CyclicTimer) :=
  (deadlines clock (toDelta t.nextTimeout)).filter fun x => decide (x.2 = h)

/-- Every armed timer has one entry, at `due`, and the others have none. -/
structure Scheduled (clock : ℕ) (due : CyclicTimer → ℕ) (t : Timers) : Prop where
  entry : ∀ h, t.entries clock h = if t.armed h then [(due h, h)] else []
  pool : t.free + t.nextTimeout.length = memNumSysTimeout

theorem length_eq_filters (l : List (ℕ × CyclicTimer)) : l.length =
    (l.filter fun x => decide (x.2 = .tcpipTcpTimer)).length +
      (l.filter fun x => decide (x.2 = .ipReassTimer)).length +
        (l.filter fun x => decide (x.2 = .arpTimer)).length := by
  induction l with
  | nil => rfl
  | cons x l ih =>
    obtain ⟨time, h⟩ := x
    cases h <;> simp [ih] <;> omega

theorem Scheduled.length {clock : ℕ} {due : CyclicTimer → ℕ} {t : Timers} (h : Scheduled clock due t) :
    t.nextTimeout.length = if t.tcpipTcpTimerActive then 3 else 2 := by
  have hlength := length_eq_filters (deadlines clock (toDelta t.nextTimeout))
  have htcp := congrArg List.length (h.entry .tcpipTcpTimer)
  have hreass := congrArg List.length (h.entry .ipReassTimer)
  have harp := congrArg List.length (h.entry .arpTimer)
  simp only [Timers.entries, Timers.armed, if_true, List.length_singleton] at htcp hreass harp
  rw [length_deadlines, toDelta, List.length_map, ← toDelta, htcp, hreass, harp] at hlength
  rw [hlength]
  by_cases hactive : t.tcpipTcpTimerActive = true
  · simp [hactive]
  · simp [hactive]

theorem entries_timeout {t : Timers} (hfree : t.free ≠ 0) {clock : ℕ} {h : CyclicTimer}
    (hnone : t.entries clock h = []) (g : CyclicTimer) : (t.timeout h).entries clock g =
      if g = h then [(clock + h.interval.toNat, h)] else t.entries clock g := by
  rw [Timers.timeout_of_free hfree]
  simp only [Timers.entries, toDelta_linkTimeo, deadlines_insertDelta]
  split_ifs with heq
  · subst heq
    exact filter_orderedInsert_of_pos (by simp) hnone
  · exact filter_orderedInsert_of_neg (by simpa using Ne.symm heq) _

/-! ## One call of a handler -/

def setDue (due : CyclicTimer → ℕ) (h : CyclicTimer) (time : ℕ) : CyclicTimer → ℕ :=
  Function.update due h time

theorem Scheduled.timeout {clock : ℕ} {due : CyclicTimer → ℕ} {t : Timers} {h : CyclicTimer}
    (hentry : ∀ g, t.entries clock g = if t.armed g ∧ g ≠ h then [(due g, g)] else [])
    (hpool : t.free + t.nextTimeout.length = memNumSysTimeout) (hfree : t.free ≠ 0)
    (harmed : t.armed h) :
    Scheduled clock (setDue due h (clock + h.interval.toNat)) (t.timeout h) := by
  have hnone : t.entries clock h = [] := by
    rw [hentry, if_neg (fun hno => hno.2 rfl)]
  have hsame (g : CyclicTimer) : (t.timeout h).armed g = t.armed g := by
    rw [Timers.timeout_of_free hfree]
    cases g <;> rfl
  refine ⟨fun g => ?_, ?_⟩
  · rw [entries_timeout hfree hnone, hsame, hentry]
    by_cases heq : g = h
    · subst heq
      rw [if_pos rfl, if_pos harmed, setDue, Function.update_self]
    · rw [if_neg heq, setDue, Function.update_of_ne heq]
      simp [heq]
  · rw [Timers.timeout_of_free hfree]
    simp only [length_linkTimeo]
    omega

theorem Scheduled.stop {clock : ℕ} {due : CyclicTimer → ℕ} {t : Timers}
    (hentry : ∀ g, t.entries clock g = if t.armed g ∧ g ≠ .tcpipTcpTimer then [(due g, g)] else [])
    (hpool : t.free + t.nextTimeout.length = memNumSysTimeout) (due' : ℕ) :
    Scheduled clock (setDue due .tcpipTcpTimer due') { t with tcpipTcpTimerActive := false } := by
  refine ⟨fun g => ?_, hpool⟩
  refine (hentry g).trans ?_
  cases g <;> simp [Timers.armed, setDue]

def Timers.Alive (t : Timers) : Prop := t.pcbs = true → t.tcpipTcpTimerActive = true

structure Called (clock : ℕ) (due : CyclicTimer → ℕ) (now : U32) (t t' : Timers) (h : CyclicTimer) :
    Prop where
  scheduled : Scheduled clock (setDue due h (clock + h.interval.toNat)) t'
  calls : t'.calls = h :: t.calls
  last : t'.timeoutsLastTime = now
  active : t'.tcpipTcpTimerActive = true → t.tcpipTcpTimerActive = true
  alive : t.Alive → t'.Alive

theorem Scheduled.call {clock : ℕ} {due : CyclicTimer → ℕ} {t : Timers} {time : U32}
    {h : CyclicTimer} {rest : List (U32 × CyclicTimer)} (hs : Scheduled clock due t)
    (hq : t.nextTimeout = (time, h) :: rest) (now : U32) (pcbs : Bool) :
    t.armed h = true ∧ due h = clock + time.toNat ∧
      Called (clock + time.toNat) due now t (callHandler pcbs
        { t with timeoutsLastTime := now, nextTimeout := rest, free := t.free + 1 } h) h := by
  have hlist : deadlines clock (toDelta t.nextTimeout) =
      (clock + time.toNat, h) :: deadlines (clock + time.toNat) (toDelta rest) := by
    rw [hq]
    rfl
  have hself := hs.entry h
  rw [Timers.entries, hlist, List.filter_cons_of_pos (by simp)] at hself
  have harmed : t.armed h = true := by
    by_contra hno
    rw [if_neg hno] at hself
    exact List.cons_ne_nil _ _ hself
  rw [if_pos harmed] at hself
  obtain ⟨hdue, htail⟩ := List.cons.inj hself
  have hpool := hs.pool
  rw [hq, List.length_cons] at hpool
  have hentry (g : CyclicTimer) :
      (deadlines (clock + time.toNat) (toDelta rest)).filter (fun x => decide (x.2 = g)) =
        if t.armed g ∧ g ≠ h then [(due g, g)] else [] := by
    by_cases heq : g = h
    · rw [if_neg (fun hno => hno.2 heq), heq]
      exact htail
    · have hg := hs.entry g
      rw [Timers.entries, hlist, List.filter_cons_of_neg (by simpa using Ne.symm heq)] at hg
      simpa [heq] using hg
  refine ⟨harmed, (Prod.mk.inj hdue).1.symm, ?_⟩
  have hset (t' : Timers) (hnext : t'.nextTimeout = rest) (hfree : t'.free = t.free + 1)
      (hactive : t'.tcpipTcpTimerActive = t.tcpipTcpTimerActive) :
      Scheduled (clock + time.toNat) (setDue due h (clock + time.toNat + h.interval.toNat))
        (t'.timeout h) := by
    have hsame (g : CyclicTimer) : t'.armed g = t.armed g := by
      cases g
      · exact hactive
      · rfl
      · rfl
    refine Scheduled.timeout (fun g => ?_) (by rw [hnext, hfree]; omega) (by omega)
      (by rw [hsame, harmed])
    rw [Timers.entries, hnext, hsame]
    exact hentry g
  have hfields (t' : Timers) (g : CyclicTimer) (hfree : t'.free = t.free + 1) :
      (t'.timeout g).calls = t'.calls ∧ (t'.timeout g).timeoutsLastTime = t'.timeoutsLastTime ∧
        (t'.timeout g).tcpipTcpTimerActive = t'.tcpipTcpTimerActive ∧
          ((t'.timeout g).Alive ↔ t'.Alive) := by
    rw [Timers.timeout_of_free (by omega)]
    exact ⟨rfl, rfl, rfl, Iff.rfl⟩
  set t₁ : Timers := { t with timeoutsLastTime := now, nextTimeout := rest, free := t.free + 1 }
  have hagain (t' : Timers) (hnext : t'.nextTimeout = rest) (hfree : t'.free = t.free + 1)
      (hactive : t'.tcpipTcpTimerActive = t.tcpipTcpTimerActive) (hcalls : t'.calls = h :: t.calls)
      (hlast : t'.timeoutsLastTime = now) (halive : t.Alive → t'.Alive) :
      Called (clock + time.toNat) due now t (t'.timeout h) h := by
    obtain ⟨hcalls', hlast', hactive', halive'⟩ := hfields t' h hfree
    exact ⟨hset t' hnext hfree hactive, hcalls'.trans hcalls, hlast'.trans hlast,
      fun hon => by rwa [hactive', hactive] at hon, fun hold => halive'.mpr (halive hold)⟩
  cases h with
  | tcpipTcpTimer =>
    cases pcbs with
    | true =>
      exact hagain { t₁ with calls := .tcpipTcpTimer :: t.calls, pcbs := true } rfl rfl rfl rfl rfl
        fun _ _ => harmed
    | false =>
      have hstop := Scheduled.stop (t := { t₁ with calls := .tcpipTcpTimer :: t.calls, pcbs := false })
        hentry (by simp only [t₁]; omega)
      exact ⟨hstop _, rfl, rfl, fun hon => absurd hon Bool.false_ne_true,
        fun _ hpcbs => absurd hpcbs Bool.false_ne_true⟩
  | ipReassTimer =>
    exact hagain { t₁ with calls := .ipReassTimer :: t.calls } rfl rfl rfl rfl rfl id
  | arpTimer => exact hagain { t₁ with calls := .arpTimer :: t.calls } rfl rfl rfl rfl rfl id

/-! ## The loop -/

/-- How often a timer was called, and when it is due next, after all that was due up to `time`. -/
def CyclicTimer.caughtUp (due : CyclicTimer → ℕ) (time : ℕ) (h : CyclicTimer) : ℕ :=
  timesDue time (due h) h.interval.toNat

theorem CyclicTimer.interval_ge (h : CyclicTimer) : 250 ≤ h.interval.toNat := by
  cases h <;> decide

def Timers.left (t : Timers) (due : CyclicTimer → ℕ) (time : ℕ) : ℕ :=
  (if t.tcpipTcpTimerActive then CyclicTimer.caughtUp due time .tcpipTcpTimer else 0) +
    CyclicTimer.caughtUp due time .ipReassTimer + CyclicTimer.caughtUp due time .arpTimer

/-- From `start` on, no timer was called more often than its interval allows. -/
structure Paced (start clock : ℕ) (due : CyclicTimer → ℕ) (t : Timers) : Prop where
  called : ∀ h, start + h.interval.toNat * t.calls.count h ≤ clock
  ahead : ∀ h, t.armed h → start + h.interval.toNat * (t.calls.count h + 1) ≤ due h

structure Checked (clock : ℕ) (due : CyclicTimer → ℕ) (time : ℕ) (now : U32) (t t' : Timers) :
    Prop where
  scheduled : ∃ clock' due', clock ≤ clock' ∧ clock' ≤ time ∧ Scheduled clock' due' t' ∧
    (∀ h, t'.armed h → time < due' h) ∧
    (∀ h, h ≠ .tcpipTcpTimer →
      due' h = due h + h.interval.toNat * CyclicTimer.caughtUp due time h) ∧
    ∀ start, Paced start clock due t → Paced start clock' due' t'
  last : t' = t ∨ t'.timeoutsLastTime = now
  calls : ∀ h, h ≠ .tcpipTcpTimer →
    t'.calls.count h = t.calls.count h + CyclicTimer.caughtUp due time h
  alive : t.Alive → t'.Alive

theorem caughtUp_self {clock time : ℕ} {due : CyclicTimer → ℕ} {h : CyclicTimer}
    (hdue : due h = clock) (htime : clock ≤ time) :
    CyclicTimer.caughtUp due time h =
      CyclicTimer.caughtUp (setDue due h (clock + h.interval.toNat)) time h + 1 := by
  rw [CyclicTimer.caughtUp, CyclicTimer.caughtUp, setDue, Function.update_self, hdue]
  exact timesDue_step (Nat.lt_of_lt_of_le (by decide) h.interval_ge) htime

theorem caughtUp_other {clock time : ℕ} {due : CyclicTimer → ℕ} {g h : CyclicTimer} (hne : g ≠ h) :
    CyclicTimer.caughtUp (setDue due h clock) time g = CyclicTimer.caughtUp due time g := by
  rw [CyclicTimer.caughtUp, CyclicTimer.caughtUp, setDue, Function.update_of_ne hne]

theorem Called.left_lt {clock time : ℕ} {due : CyclicTimer → ℕ} {now : U32} {t t' : Timers}
    {h : CyclicTimer} (hc : Called clock due now t t' h) (harmed : t.armed h) (hdue : due h = clock)
    (htime : clock ≤ time) :
    t'.left (setDue due h (clock + h.interval.toNat)) time < t.left due time := by
  have hself := caughtUp_self hdue htime
  have hactive := hc.active
  cases h with
  | tcpipTcpTimer =>
    have hon : t.tcpipTcpTimerActive = true := harmed
    rw [Timers.left, Timers.left, @caughtUp_other _ _ _ .ipReassTimer _ (by decide),
      @caughtUp_other _ _ _ .arpTimer _ (by decide), if_pos hon]
    split_ifs
    · omega
    · omega
  | ipReassTimer =>
    rw [Timers.left, Timers.left, @caughtUp_other _ _ _ .tcpipTcpTimer _ (by decide),
      @caughtUp_other _ _ _ .arpTimer _ (by decide)]
    split_ifs with hon hoff
    · omega
    · exact absurd (hactive hon) hoff
    · omega
    · omega
  | arpTimer =>
    rw [Timers.left, Timers.left, @caughtUp_other _ _ _ .tcpipTcpTimer _ (by decide),
      @caughtUp_other _ _ _ .ipReassTimer _ (by decide)]
    split_ifs with hon hoff
    · omega
    · exact absurd (hactive hon) hoff
    · omega
    · omega

theorem Scheduled.mem_deadlines {clock : ℕ} {due : CyclicTimer → ℕ} {t : Timers} {h : CyclicTimer}
    (hs : Scheduled clock due t) (harmed : t.armed h) :
    (due h, h) ∈ deadlines clock (toDelta t.nextTimeout) := by
  have hentry := hs.entry h
  rw [if_pos harmed] at hentry
  have hmem : (due h, h) ∈ t.entries clock h := by
    rw [hentry]
    exact List.mem_singleton_self _
  exact (List.mem_filter.mp hmem).1

theorem Scheduled.checked_self {clock time : ℕ} {due : CyclicTimer → ℕ} {t : Timers}
    (hs : Scheduled clock due t) (hle : clock ≤ time)
    (hlate : ∀ x ∈ deadlines clock (toDelta t.nextTimeout), time < x.1) (now : U32) :
    Checked clock due time now t t := by
  have hdue (h : CyclicTimer) (harmed : t.armed h) : time < due h := hlate _ (hs.mem_deadlines harmed)
  have hnone (h : CyclicTimer) (hne : h ≠ .tcpipTcpTimer) : CyclicTimer.caughtUp due time h = 0 := by
    refine timesDue_of_lt (hdue h ?_) _
    cases h
    · exact absurd rfl hne
    · rfl
    · rfl
  refine ⟨⟨clock, due, le_rfl, hle, hs, hdue, fun h hne => ?_, fun _ => id⟩, .inl rfl,
    fun h hne => ?_, id⟩
  · rw [hnone h hne, Nat.mul_zero, Nat.add_zero]
  · rw [hnone h hne, Nat.add_zero]

theorem Called.paced {start clock clock' : ℕ} {due : CyclicTimer → ℕ} {now : U32} {t t' : Timers}
    {h : CyclicTimer} (hc : Called clock' due now t t' h) (hle : clock ≤ clock')
    (hdue : due h = clock') (harmed : t.armed h) (hp : Paced start clock due t) :
    Paced start clock' (setDue due h (clock' + h.interval.toNat)) t' := by
  have hself := hp.ahead h harmed
  have hcount (g : CyclicTimer) : t'.calls.count g = t.calls.count g + if g = h then 1 else 0 := by
    rw [hc.calls, List.count_cons]
    by_cases hgh : g = h
    · simp [hgh]
    · simp [hgh, Ne.symm hgh]
  refine ⟨fun g => ?_, fun g hg => ?_⟩
  · rw [hcount]
    split_ifs with hgh
    · rw [hgh, ← hdue]
      exact hself
    · exact (hp.called g).trans hle
  · rw [hcount]
    split_ifs with hgh
    · rw [hgh, setDue, Function.update_self, ← hdue, Nat.mul_add _ _ 1]
      omega
    · rw [setDue, Function.update_of_ne hgh]
      refine hp.ahead g ?_
      cases g
      · exact hc.active hg
      · rfl
      · rfl

theorem Called.checked {clock clock' time : ℕ} {due : CyclicTimer → ℕ} {now : U32}
    {t t' t'' : Timers} {h : CyclicTimer} (hc : Called clock' due now t t' h) (hle : clock ≤ clock')
    (hdue : due h = clock') (harmed : t.armed h) (htime : clock' ≤ time)
    (hrest : Checked clock' (setDue due h (clock' + h.interval.toNat)) time now t' t'') :
    Checked clock due time now t t'' := by
  have hself := caughtUp_self hdue htime
  obtain ⟨last, due', hlast, hend, hs, hlate, hdue', hpaced⟩ := hrest.scheduled
  refine ⟨⟨last, due', by omega, hend, hs, hlate, fun g hne => ?_,
    fun start hp => hpaced start (hc.paced hle hdue harmed hp)⟩, ?_, fun g hne => ?_,
    fun halive => hrest.alive (hc.alive halive)⟩
  · rw [hdue' g hne]
    by_cases hgh : g = h
    · subst hgh
      rw [hself, setDue, Function.update_self, hdue, Nat.mul_succ]
      omega
    · rw [caughtUp_other hgh, setDue, Function.update_of_ne hgh]
  · rcases hrest.last with rfl | hnow
    · exact .inr hc.last
    · exact .inr hnow
  · rw [hrest.calls g hne, hc.calls, List.count_cons]
    by_cases hgh : g = h
    · subst hgh
      rw [hself]
      simp
      omega
    · rw [caughtUp_other hgh]
      simp [Ne.symm hgh]

theorem Scheduled.check {clock : ℕ} {due : CyclicTimer → ℕ} {t : Timers} (pcbs : ℕ → Bool)
    (now : U32) {fuel : ℕ} {diff : U32} (hs : Scheduled clock due t)
    (hfuel : t.left due (clock + diff.toNat) < fuel) :
    ∃ t', checkLoop pcbs now fuel diff t = some t' ∧
      Checked clock due (clock + diff.toNat) now t t' := by
  induction fuel generalizing clock due t diff with
  | zero => exact absurd hfuel (Nat.not_lt_zero _)
  | succ fuel ih =>
    rcases hq : t.nextTimeout with _ | ⟨⟨time, h⟩, rest⟩
    · have hlength := hs.length
      rw [hq] at hlength
      split_ifs at hlength
    by_cases hdue : time ≤ diff
    · obtain ⟨harmed, htime, hcalled⟩ := hs.call hq now (pcbs t.calls.length)
      have hsub : (diff - time).toNat = diff.toNat - time.toNat := BitVec.toNat_sub_of_le hdue
      have hle : time.toNat ≤ diff.toNat := hdue
      have hend : clock + time.toNat + (diff - time).toNat = clock + diff.toNat := by omega
      have hlt := hcalled.left_lt harmed htime (Nat.add_le_add_left hle clock)
      obtain ⟨t', hloop, hchecked⟩ := @ih _ _ _ (diff - time) hcalled.scheduled
        (by rw [hend]; omega)
      rw [hend] at hchecked
      refine ⟨t', ?_, hcalled.checked (by omega) htime harmed (by omega) hchecked⟩
      simp only [checkLoop, hq, if_pos hdue]
      exact hloop
    · have hlt : diff.toNat < time.toNat := BitVec.not_le.mp hdue
      refine ⟨t, ?_, hs.checked_self (by omega) (fun x hx => ?_) now⟩
      · simp only [checkLoop, hq, if_neg hdue]
      · have hsorted := deadlines_sorted clock (toDelta t.nextTimeout)
        rw [hq] at hx hsorted
        rcases List.mem_cons.mp hx with rfl | hx
        · simp only
          omega
        · have := (List.pairwise_cons.mp hsorted).1 x hx
          simp only at this
          omega

end EnvirMonitor.Lwip
