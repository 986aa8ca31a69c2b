import EnvirMonitor.Client.TcpClient
import EnvirMonitor.Machine.GuardedRuns

/-! `tcp_client_flag` shared between the main context, whose assignments load and store it, and
the handlers of the timer and of KEY1, which run between any two steps. -/

namespace EnvirMonitor.Client.Flag
open Machine

/-- The assignments of the main loop, of `tcp_connect_client`, `tcp_recv_client` and
`tcp_client_connect_close`. -/
inductive Assign
  | clearSenddata
  | setStart
  | clearRevcdata
  | setConnect
  | setRevcdata
  | reset
  deriving DecidableEq

def Assign.apply : Assign → U8 → U8
  | clearSenddata, flag => clearFlag flag senddataFlag
  | setStart, flag => setFlag flag startFlag
  | clearRevcdata, flag => clearFlag flag revcdataFlag
  | setConnect, flag => setFlag flag 5
  | setRevcdata, flag => setFlag flag 6
  | reset, _ => 0

def Assign.names : Assign → ℕ → Bool
  | clearSenddata, n => n = senddataFlag
  | setStart, n => n = startFlag
  | clearRevcdata, n => n = revcdataFlag
  | setConnect, n => n = connectFlag
  | setRevcdata, n => n = revcdataFlag
  | reset, _ => true

/-- The next step of the main context. `send` is the call of `Send_EnvirPacketData`, with what was
known of KEY1 when `START_FLAG` was tested; `lwip` is the processing of timeouts and packets. -/
inductive Pc
  | show
  | testSenddata
  | testStart
  | send (stopped : Bool)
  | testRevcdata
  | compare
  | lwip
  | load (a : Assign)
  | store (a : Assign) (flag : U8)
  deriving DecidableEq

/-- `owed n` is the value that a handler has given to bit `n` and that no assignment naming `n` has
replaced; `stopped` that KEY1 has cleared `START_FLAG` and no command has set it since. -/
structure State where
  flag : U8
  timecnt : U8
  pc : Pc
  owed : ℕ → Option Bool
  stopped : Bool

def boot : State := ⟨0, 0, .show, fun _ => none, false⟩

inductive Callback
  | connect
  | recv
  | close

inductive Event
  | main (isStart : Bool) (callback : Option Callback)
  | tim2
  | exti3 (key1 : Bool)

def Assign.next : Assign → Pc
  | clearSenddata => .testRevcdata
  | setStart => .load clearRevcdata
  | _ => .lwip

def State.goto (s : State) (pc : Pc) : State := { s with pc := pc }

/-- The store of an assignment, which settles what the bits it names were owed. -/
def State.assign (s : State) (a : Assign) (flag : U8) : State :=
  { s with
    flag := a.apply flag
    pc := a.next
    owed := fun n => if a.names n then none else s.owed n
    stopped := s.stopped && a ≠ .setStart }

/-- `isStart` is the outcome of the `strcmp`. The reset to 0 needs no load. -/
def mainStep (s : State) (isStart : Bool) (callback : Option Callback) : State :=
  match s.pc with
  | .show => s.goto .testSenddata
  | .testSenddata => s.goto (if hasFlag s.flag senddataFlag then .testStart else .testRevcdata)
  | .testStart => s.goto (if hasFlag s.flag startFlag then .send s.stopped else .testRevcdata)
  | .send _ => s.goto (.load .clearSenddata)
  | .testRevcdata => s.goto (if hasFlag s.flag revcdataFlag then .compare else .lwip)
  | .compare => s.goto (if isStart then .load .setStart else .load .clearRevcdata)
  | .lwip =>
    match callback with
    | none => s.goto .show
    | some .connect => s.goto (.load .setConnect)
    | some .recv => s.goto (.load .setRevcdata)
    | some .close => s.goto (.store .reset s.flag)
  | .load a => s.goto (.store a s.flag)
  | .store a flag => s.assign a flag

def tim2IRQHandler (s : State) : State :=
  let timecnt := s.timecnt + 1
  if timecnt % 10 = 0 then
    { s with
      timecnt := 0
      flag := setFlag s.flag senddataFlag
      owed := Function.update s.owed senddataFlag (some true) }
  else { s with timecnt := timecnt }

def exti3IRQHandler (s : State) (key1 : Bool) : State :=
  if key1 then
    { s with
      flag := clearFlag s.flag startFlag
      owed := Function.update s.owed startFlag (some false)
      stopped := true }
  else s

def step (s : State) : Event → Option State
  | .main isStart callback => some (mainStep s isStart callback)
  | .tim2 => some (tim2IRQHandler s)
  | .exti3 key1 => some (exti3IRQHandler s key1)

/-- Bit `n` has the value `b` in the copy of the flag that an assignment of other bits is about to
store. -/
def Pc.agrees : Pc → ℕ → Bool → Bool
  | store a flag, n, b => a.names n || hasFlag flag n == b
  | _, _, _ => true

/-- No handler changes a bit between the load and the store of an assignment of other bits. -/
def KeepsOff (s : State) : Event → Prop
  | .main _ _ => True
  | .tim2 => (s.timecnt + 1) % 10 = 0 → s.pc.agrees senddataFlag true
  | .exti3 key1 => key1 → s.pc.agrees startFlag false

instance (s : State) : (e : Event) → Decidable (KeepsOff s e)
  | .main _ _ => isTrue trivial
  | .tim2 => inferInstanceAs (Decidable (_ → _))
  | .exti3 _ => inferInstanceAs (Decidable (_ → _))

structure Kept (s : State) : Prop where
  owed : ∀ n b, s.owed n = some b → n < 8 ∧ hasFlag s.flag n = b ∧ s.pc.agrees n b
  stopped : s.stopped → hasFlag s.flag startFlag = false ∧
    ∀ a flag, s.pc = .store a flag → a ≠ .setStart → hasFlag (a.apply flag) startFlag = false
  send : ∀ stopped, s.pc = .send stopped → stopped = false

theorem hasFlag_apply {a : Assign} {n : ℕ} (hn : n < 8) (h : a.names n = false) (flag : U8) :
    hasFlag (a.apply flag) n = hasFlag flag n := by
  have hset {m : ℕ} (hm : decide (n = m) = false) : hasFlag (setFlag flag m) n = hasFlag flag n := by
    rw [hasFlag_setFlag flag hn, hm, Bool.or_false]
  have hclear {m : ℕ} (hm : decide (n = m) = false) :
      hasFlag (clearFlag flag m) n = hasFlag flag n := by
    rw [hasFlag_clearFlag flag hn, decide_not, hm, Bool.not_false, Bool.and_true]
  cases a with
  | clearSenddata => exact hclear h
  | setStart => exact hset h
  | clearRevcdata => exact hclear h
  | setConnect => exact hset h
  | setRevcdata => exact hset h
  | reset => exact absurd h (by simp [Assign.names])

theorem next_agrees (a : Assign) (n : ℕ) (b : Bool) : a.next.agrees n b := by
  cases a <;> rfl

theorem goto_kept {s : State} (h : Kept s) {pc : Pc} (hagrees : ∀ n b, pc.agrees n b)
    (hstore : ∀ a flag, pc ≠ .store a flag)
    (hsend : ∀ stopped, pc = .send stopped → stopped = false) : Kept (s.goto pc) :=
  ⟨fun n b hb => ⟨(h.owed n b hb).1, (h.owed n b hb).2.1, hagrees n b⟩,
    fun hs => ⟨(h.stopped hs).1, fun a flag hpc => absurd hpc (hstore a flag)⟩, hsend⟩

def Pc.plain : Pc → Bool
  | store _ _ => false
  | send _ => false
  | _ => true

theorem goto_plain {s : State} (h : Kept s) {pc : Pc} (hpc : pc.plain = true) : Kept (s.goto pc) := by
  refine goto_kept h (fun n b => ?_) (fun a flag hstore => ?_) fun stopped hsend => ?_
  · cases pc with
    | store a flag => cases hpc
    | _ => rfl
  · subst hstore
    cases hpc
  · subst hsend
    cases hpc

theorem apply_start {a : Assign} (ha : a ≠ .setStart) {flag : U8} (h : hasFlag flag startFlag = false) :
    hasFlag (a.apply flag) startFlag = false := by
  have hother (hn : a.names startFlag = false) : hasFlag (a.apply flag) startFlag = false :=
    (hasFlag_apply (by decide) hn flag).trans h
  cases a with
  | setStart => exact absurd rfl ha
  | reset => exact hasFlag_zero startFlag
  | clearSenddata => exact hother rfl
  | clearRevcdata => exact hother rfl
  | setConnect => exact hother rfl
  | setRevcdata => exact hother rfl

theorem assign_kept {s : State} (h : Kept s) {a : Assign} {flag : U8} (hpc : s.pc = .store a flag) :
    Kept (s.assign a flag) := by
  refine ⟨fun n b hb => ?_, fun hs => ⟨?_, fun a' flag' hnext => ?_⟩, fun stopped hnext => ?_⟩
  · cases hnames : a.names n with
    | true => simp [State.assign, hnames] at hb
    | false =>
      have hb : s.owed n = some b := by simpa [State.assign, hnames] using hb
      obtain ⟨hn, -, hcopy⟩ := h.owed n b hb
      rw [hpc, Pc.agrees, hnames, Bool.false_or, beq_iff_eq] at hcopy
      exact ⟨hn, (hasFlag_apply hn hnames flag).trans hcopy, next_agrees a n b⟩
  · obtain ⟨hs, ha⟩ := Bool.and_eq_true_iff.mp hs
    exact (h.stopped hs).2 a flag hpc (of_decide_eq_true ha)
  · cases a <;> cases hnext
  · cases a <;> cases hnext

theorem load_kept {s : State} (h : Kept s) (a : Assign) : Kept (s.goto (.store a s.flag)) := by
  refine ⟨fun n b hb => ?_, fun hs => ⟨(h.stopped hs).1, fun a' flag hpc ha => ?_⟩,
    fun stopped hpc => by cases hpc⟩
  · obtain ⟨hn, hflag, -⟩ := h.owed n b hb
    refine ⟨hn, hflag, ?_⟩
    rw [State.goto, Pc.agrees, hflag, beq_self_eq_true, Bool.or_true]
  · cases hpc
    exact apply_start ha (h.stopped hs).1

theorem main_kept {s : State} (h : Kept s) (isStart : Bool) (callback : Option Callback) :
    Kept (mainStep s isStart callback) := by
  unfold mainStep
  cases hpc : s.pc with
  | «show» => exact goto_plain h rfl
  | testSenddata =>
    dsimp only
    split_ifs
    · exact goto_plain h rfl
    · exact goto_plain h rfl
  | testStart =>
    dsimp only
    split_ifs with hstart
    -- `START_FLAG` is set, so no KEY1 press is outstanding
    · refine goto_kept h (fun _ _ => rfl) (by simp) fun stopped hsend => ?_
      obtain rfl := Pc.send.inj hsend
      by_contra hs
      exact absurd ((h.stopped (Bool.eq_true_of_not_eq_false hs)).1.symm.trans hstart) (by simp)
    · exact goto_plain h rfl
  | send stopped => exact goto_plain h rfl
  | testRevcdata =>
    dsimp only
    split_ifs
    · exact goto_plain h rfl
    · exact goto_plain h rfl
  | compare =>
    dsimp only
    split_ifs
    · exact goto_plain h rfl
    · exact goto_plain h rfl
  | lwip =>
    cases callback with
    | none => exact goto_plain h rfl
    | some callback =>
      cases callback with
      | connect => exact goto_plain h rfl
      | recv => exact goto_plain h rfl
      | close => exact load_kept h .reset
  | load a => exact load_kept h a
  | store a flag => exact assign_kept h hpc

theorem owed_update {owed : ℕ → Option Bool} {m n : ℕ} {v b : Bool}
    (h : Function.update owed m (some v) n = some b) : n = m ∧ b = v ∨ n ≠ m ∧ owed n = some b := by
  rw [Function.update_apply] at h
  split_ifs at h with hn
  · exact Or.inl ⟨hn, (Option.some.inj h).symm⟩
  · exact Or.inr ⟨hn, h⟩

theorem tim2_kept {s : State} (h : Kept s) (hguard : KeepsOff s .tim2) : Kept (tim2IRQHandler s) := by
  rw [tim2IRQHandler]
  split_ifs with hten
  · refine ⟨fun n b hb => ?_, fun hs => ⟨?_, (h.stopped hs).2⟩, h.send⟩
    · rcases owed_update hb with ⟨rfl, rfl⟩ | ⟨hn, hb⟩
      · refine ⟨by decide, ?_, hguard hten⟩
        rw [hasFlag_setFlag s.flag (by decide), decide_eq_true rfl, Bool.or_true]
      · obtain ⟨hlt, hflag, hcopy⟩ := h.owed n b hb
        refine ⟨hlt, ?_, hcopy⟩
        rw [hasFlag_setFlag s.flag hlt, decide_eq_false hn, Bool.or_false, hflag]
    · rw [hasFlag_setFlag s.flag (by decide), (h.stopped hs).1]
      rfl
  · exact ⟨h.owed, h.stopped, h.send⟩

theorem exti3_kept {s : State} (h : Kept s) {key1 : Bool} (hguard : KeepsOff s (.exti3 key1)) :
    Kept (exti3IRQHandler s key1) := by
  rw [exti3IRQHandler]
  split_ifs with hkey
  · have hstart : hasFlag (clearFlag s.flag startFlag) startFlag = false := by
      rw [hasFlag_clearFlag s.flag (by decide)]
      simp
    refine ⟨fun n b hb => ?_, fun _ => ⟨hstart, fun a flag hpc ha => ?_⟩, h.send⟩
    · rcases owed_update hb with ⟨rfl, rfl⟩ | ⟨hn, hb⟩
      · exact ⟨by decide, hstart, hguard hkey⟩
      · obtain ⟨hlt, hflag, hcopy⟩ := h.owed n b hb
        refine ⟨hlt, ?_, hcopy⟩
        rw [hasFlag_clearFlag s.flag hlt, decide_eq_true hn, Bool.and_true, hflag]
    · have hcopy := hguard hkey
      rw [show s.pc = .store a flag from hpc, Pc.agrees, Bool.or_eq_true_iff, beq_iff_eq] at hcopy
      rcases hcopy with hnames | hcopy
      · cases a with
        | setStart => exact absurd rfl ha
        | reset => exact hasFlag_zero startFlag
        | clearSenddata => exact absurd hnames (by decide)
        | clearRevcdata => exact absurd hnames (by decide)
        | setConnect => exact absurd hnames (by decide)
        | setRevcdata => exact absurd hnames (by decide)
      · exact apply_start ha hcopy
  · exact h

theorem step_kept {s s' : State} {e : Event} (h : Kept s) (hguard : KeepsOff s e)
    (hs : step s e = some s') : Kept s' := by
  cases e with
  | main isStart callback => exact Option.some.inj hs ▸ main_kept h isStart callback
  | tim2 => exact Option.some.inj hs ▸ tim2_kept h hguard
  | exti3 key1 => exact Option.some.inj hs ▸ exti3_kept h hguard

/-- In every run in which no handler comes between the load and the store of an assignment of other
bits, the handlers' updates are kept, and a send starts only if KEY1 was not outstanding when
`START_FLAG` was tested. -/
theorem handler_updates_kept {es : List Event} {s : State} (hguard : Guarded step KeepsOff boot es)
    (hrun : exec step boot es = some s) :
    (∀ n b, s.owed n = some b → hasFlag s.flag n = b) ∧
      ∀ stopped, s.pc = .send stopped → stopped = false := by
  have hboot : Kept boot := by
    refine ⟨fun n b hb => ?_, fun hs => ?_, fun stopped hpc => ?_⟩
    · cases hb
    · cases hs
    · cases hpc
  have hkept := exec_guarded (fun _ _ _ => step_kept) hboot hguard hrun
  exact ⟨fun n b hb => (hkept.owed n b hb).2.1, hkept.send⟩

/-- A pass that receives the command, a KEY1 release between the accesses that clear
`REVCDATA_FLAG`, and a second of the timer. -/
def commandAndStop (key1 : ℕ) : List Event :=
  List.replicate 3 (Event.main true none) ++ .main true (some .recv) ::
    List.replicate key1 (Event.main true none) ++ .exti3 true ::
      List.replicate (12 - key1) (Event.main true none) ++ List.replicate 10 Event.tim2 ++
        List.replicate 3 (Event.main true none)

theorem handler_updates_kept_sample : ∃ s, exec step boot (commandAndStop 9) = some s ∧
    (∀ n b, s.owed n = some b → hasFlag s.flag n = b) ∧
      ∀ stopped, s.pc = .send stopped → stopped = false :=
  have hguard : Guarded step KeepsOff boot (commandAndStop 9) := by decide
  ⟨_, rfl, handler_updates_kept hguard rfl⟩

theorem stop_undone : ∃ s, exec step boot (commandAndStop 10) = some s ∧
    s.owed startFlag = some false ∧ hasFlag s.flag startFlag = true ∧ s.pc = .send true :=
  ⟨_, rfl, rfl, rfl, rfl⟩

/-! ## The condition is exact -/

theorem store_of_not_agrees {pc : Pc} {n : ℕ} {b : Bool} (h : ¬ pc.agrees n b) :
    ∃ a flag, pc = .store a flag ∧ a.names n = false ∧ hasFlag flag n ≠ b := by
  cases pc with
  | store a flag =>
    rw [Pc.agrees, Bool.or_eq_true_iff, beq_iff_eq, not_or] at h
    exact ⟨a, flag, rfl, Bool.eq_false_of_not_eq_true h.1, h.2⟩
  | _ => exact absurd rfl h

theorem store_loses {s : State} {n : ℕ} {b : Bool} (hn : n < 8) (howed : s.owed n = some b)
    (h : ¬ s.pc.agrees n b) (isStart : Bool) (callback : Option Callback) :
    (mainStep s isStart callback).owed n = some b ∧
      hasFlag (mainStep s isStart callback).flag n ≠ b := by
  obtain ⟨a, flag, hpc, hnames, hcopy⟩ := store_of_not_agrees h
  have hstep : mainStep s isStart callback = s.assign a flag := by
    unfold mainStep
    rw [hpc]
  rw [hstep]
  refine ⟨?_, ?_⟩
  · simp only [State.assign, hnames, howed, Bool.false_eq_true, if_false]
  · rw [State.assign, hasFlag_apply hn hnames]
    exact hcopy

/-- Each handler step that breaks it is undone by the pending store. -/
theorem update_lost {s : State} {e : Event} (h : ¬ KeepsOff s e) (isStart : Bool)
    (callback : Option Callback) : ∃ t, exec step s [e, .main isStart callback] = some t ∧
      ∃ n b, t.owed n = some b ∧ hasFlag t.flag n ≠ b := by
  cases e with
  | main isStart callback => exact absurd trivial h
  | tim2 =>
    obtain ⟨hten, hcopy⟩ := Classical.not_imp.mp h
    have htim2 : tim2IRQHandler s = { s with
        timecnt := 0
        flag := setFlag s.flag senddataFlag
        owed := Function.update s.owed senddataFlag (some true) } := if_pos hten
    exact ⟨_, rfl, senddataFlag, true, store_loses (by decide) (by simp [htim2])
      (by simpa [htim2] using hcopy) isStart callback⟩
  | exti3 key1 =>
    obtain ⟨hkey, hcopy⟩ := Classical.not_imp.mp h
    have hexti3 : exti3IRQHandler s key1 = { s with
        flag := clearFlag s.flag startFlag
        owed := Function.update s.owed startFlag (some false)
        stopped := true } := if_pos hkey
    exact ⟨_, rfl, startFlag, false, store_loses (by decide) (by simp [hexti3])
      (by simpa [hexti3] using hcopy) isStart callback⟩

end EnvirMonitor.Client.Flag
