import EnvirMonitor.Machine.Words
import EnvirMonitor.Machine.GuardedRuns

/-! The delays of `SysTick.c` over the one hardware timer, each of them preemptible by handlers
that run delays of their own. -/

namespace EnvirMonitor.Timer
open Machine

/-! ## The timer -/

structure SysTick where
  enabled : Bool
  reload : BitVec 24
  count : BitVec 24
  countflag : Bool

namespace SysTick

/-- The counter reloads on the tick after it has reached 0. -/
def tick (s : SysTick) : SysTick :=
  if s.enabled then
    if s.count = 0 then { s with count := s.reload }
    else { s with count := s.count - 1, countflag := s.countflag || s.count == 1 }
  else s

/-- `LOAD` keeps 24 bits. -/
def setLoad (s : SysTick) (load : U32) : SysTick := { s with reload := load.setWidth 24 }

/-- Any write to `VAL` clears the counter and `COUNTFLAG`. -/
def setVal (s : SysTick) : SysTick := { s with count := 0, countflag := false }

/-- `ENABLE` is bit 0 and `COUNTFLAG` bit 16. -/
def ctrl (s : SysTick) : U32 :=
  (if s.enabled then 1 else 0) ||| if s.countflag then 0x10000 else 0

/-- Reading `CTRL` clears `COUNTFLAG`. -/
def afterCtrl (s : SysTick) : SysTick := { s with countflag := false }

def setCtrl (s : SysTick) (ctrl : U32) : SysTick := { s with enabled := ctrl &&& 1 ≠ 0 }

/-- Nothing has been counted yet of the value in `LOAD`. -/
def Unstarted (s : SysTick) : Prop := s.countflag = false ∧ (s.count = 0 ∨ s.count = s.reload)

instance (s : SysTick) : Decidable s.Unstarted := inferInstanceAs (Decidable (_ ∧ _))

end SysTick

/-! ## The delay functions -/

def usBaseCnt (systemCoreClock : U32) : U32 := systemCoreClock / 8000000

def msBaseCnt (systemCoreClock : U32) : U32 :=
  ((usBaseCnt systemCoreClock).setWidth 16).setWidth 32 * 1000

inductive Delay
  | us (n : U32)
  | ms (n : U32)

def Delay.load (clock : U32) : Delay → U32
  | us n => n * usBaseCnt clock
  | ms n => n * msBaseCnt clock

def Delay.ticks (clock : U32) : Delay → ℕ
  | us n => n.toNat * (usBaseCnt clock).toNat
  | ms n => n.toNat * (msBaseCnt clock).toNat

/-- The next access of `Delay_us` or `Delay_ms`, with the value of `CTRL` that is being changed. -/
inductive Pc
  | setLoad
  | setVal
  | loadEnable
  | storeEnable (ctrl : U32)
  | poll
  | loadDisable
  | storeDisable (ctrl : U32)
  | resetVal
  deriving DecidableEq

/-- `waited` counts the ticks since the timer was enabled. -/
structure Frame where
  delay : Delay
  pc : Pc
  waited : ℕ

/-- The running delay is on top of the stack. -/
structure State where
  timer : SysTick
  stack : List Frame
  returned : List (Delay × ℕ)

inductive Event
  | tick
  | step
  | call (d : Delay)

def Pc.started : Pc → Bool
  | poll => true
  | loadDisable => true
  | storeDisable _ => true
  | resetVal => true
  | _ => false

def Frame.tick (f : Frame) : Frame := if f.pc.started then { f with waited := f.waited + 1 } else f

/-- `while((temp & 0x01) && !(temp&(1<<16)))` -/
def Polling (temp : U32) : Prop := temp &&& 0x01 ≠ 0 ∧ temp &&& 0x10000 = 0

instance (temp : U32) : Decidable (Polling temp) := inferInstanceAs (Decidable (_ ∧ _))

def advance (clock : U32) (s : State) (f : Frame) (fs : List Frame) : State :=
  match f.pc with
  | .setLoad =>
    { s with timer := s.timer.setLoad (f.delay.load clock), stack := { f with pc := .setVal } :: fs }
  | .setVal => { s with timer := s.timer.setVal, stack := { f with pc := .loadEnable } :: fs }
  | .loadEnable =>
    { s with timer := s.timer.afterCtrl, stack := { f with pc := .storeEnable s.timer.ctrl } :: fs }
  | .storeEnable ctrl =>
    { s with timer := s.timer.setCtrl (ctrl ||| 1), stack := { f with pc := .poll, waited := 0 } :: fs }
  | .poll =>
    { s with
      timer := s.timer.afterCtrl
      stack := { f with pc := if Polling s.timer.ctrl then .poll else .loadDisable } :: fs }
  | .loadDisable =>
    { s with timer := s.timer.afterCtrl, stack := { f with pc := .storeDisable s.timer.ctrl } :: fs }
  | .storeDisable ctrl =>
    { s with timer := s.timer.setCtrl (ctrl &&& ~~~1), stack := { f with pc := .resetVal } :: fs }
  | .resetVal => ⟨s.timer.setVal, fs, (f.delay, f.waited) :: s.returned⟩

/-- A call is made by the main program when no delay is running, and by a handler otherwise. -/
def step (clock : U32) (s : State) : Event → Option State
  | .tick => some { s with timer := s.timer.tick, stack := s.stack.map Frame.tick }
  | .call d => some { s with stack := ⟨d, .setLoad, 0⟩ :: s.stack }
  | .step =>
    match s.stack with
    | [] => none
    | f :: fs => some (advance clock s f fs)

def boot (reload count : BitVec 24) : State := ⟨⟨false, reload, count, false⟩, [], []⟩

/-! ## What a delay relies on -/

/-- Where the delay enables the timer, `LOAD` holds its ticks and nothing has been counted; where it
polls, the timer is on, so that its loop does not end on `ENABLE`. -/
def Ready (clock : U32) (s : SysTick) (f : Frame) : Prop :=
  match f.pc with
  | .storeEnable _ => s.Unstarted ∧ f.delay.ticks clock ≤ s.reload.toNat
  | .poll => s.enabled = true
  | _ => True

instance (clock : U32) (s : SysTick) : (f : Frame) → Decidable (Ready clock s f)
  | ⟨_, .storeEnable _, _⟩ => inferInstanceAs (Decidable (_ ∧ _))
  | ⟨_, .poll, _⟩ => inferInstanceAs (Decidable (_ = _))
  | ⟨_, .setLoad, _⟩ => isTrue trivial
  | ⟨_, .setVal, _⟩ => isTrue trivial
  | ⟨_, .loadEnable, _⟩ => isTrue trivial
  | ⟨_, .loadDisable, _⟩ => isTrue trivial
  | ⟨_, .storeDisable _, _⟩ => isTrue trivial
  | ⟨_, .resetVal, _⟩ => isTrue trivial

def Undisturbed (clock : U32) (s : State) (e : Event) : Prop :=
  e = .step → ∀ f ∈ s.stack.head?, Ready clock s.timer f

instance (clock : U32) (s : State) : (e : Event) → Decidable (Undisturbed clock s e)
  | .tick => isTrue fun h => by cases h
  | .call _ => isTrue fun h => by cases h
  | .step => decidable_of_iff (∀ f ∈ s.stack.head?, Ready clock s.timer f) ⟨fun h _ => h, fun h => h rfl⟩

def Pc.left : Pc → Bool
  | loadDisable => true
  | storeDisable _ => true
  | resetVal => true
  | _ => false

def Waited (clock : U32) (f : Frame) : Prop := f.pc.left → f.delay.ticks clock ≤ f.waited

/-- The counter while a delay of `ticks` polls: `COUNTFLAG` comes no earlier than asked for. -/
structure Counting (ticks : ℕ) (s : SysTick) (waited : ℕ) : Prop where
  reload : ticks ≤ s.reload.toNat
  due : s.countflag = true → ticks ≤ waited
  running : s.countflag = false → s.count = 0 ∨ ticks ≤ s.count.toNat + waited

/-- The timer while the delay `f` runs. -/
structure Holds (clock : U32) (s : SysTick) (f : Frame) : Prop where
  waited : Waited clock f
  counting : f.pc = .poll → s.enabled = true → Counting (f.delay.ticks clock) s f.waited
  stopped : f.pc = .resetVal → s.enabled = false

def Owned (clock : U32) (s : SysTick) : List Frame → Prop
  | [] => True
  | f :: fs => Holds clock s f ∧ ∀ g ∈ fs, Waited clock g

structure Sound (clock : U32) (s : State) : Prop where
  owned : Owned clock s.timer s.stack
  returned : ∀ r ∈ s.returned, r.1.ticks clock ≤ r.2

section
variable {clock : U32} {s : SysTick} {f : Frame}

theorem Holds.early (hleft : f.pc.left = false) (hpoll : f.pc ≠ .poll) : Holds clock s f := by
  refine ⟨fun h => absurd (hleft.symm.trans h) Bool.false_ne_true, fun h => absurd h hpoll, fun h => ?_⟩
  rw [h] at hleft
  cases hleft

/-- A delay that returns leaves the timer off to the one under it. -/
theorem Waited.holds (h : Waited clock f) (hs : s.enabled = false) : Holds clock s f :=
  ⟨h, fun _ hon => absurd (hs.symm.trans hon) Bool.false_ne_true, fun _ => hs⟩

theorem Pc.started_of_left {pc : Pc} (h : pc.left) : pc.started := by
  cases pc <;> first | rfl | cases h

theorem tick_pc (f : Frame) : f.tick.pc = f.pc := by
  rw [Frame.tick]
  split_ifs <;> rfl

theorem tick_delay (f : Frame) : f.tick.delay = f.delay := by
  rw [Frame.tick]
  split_ifs <;> rfl

theorem tick_waited (hf : f.pc.started) : f.tick.waited = f.waited + 1 := by
  rw [Frame.tick, if_pos hf]

theorem Waited.tick (h : Waited clock f) : Waited clock f.tick := by
  intro hleft
  rw [tick_pc] at hleft
  rw [tick_delay, tick_waited (Pc.started_of_left hleft)]
  exact Nat.le_succ_of_le (h hleft)

@[simp] theorem tick_enabled (s : SysTick) : s.tick.enabled = s.enabled := by
  rw [SysTick.tick]
  split_ifs <;> rfl

theorem Counting.tick {ticks waited : ℕ} (h : Counting ticks s waited) (hon : s.enabled = true) :
    Counting ticks s.tick (waited + 1) := by
  obtain ⟨enabled, reload, count, countflag⟩ := s
  obtain ⟨hreload, hdue, hrunning⟩ := h
  have hreload : ticks ≤ reload.toNat := hreload
  rw [SysTick.tick, if_pos hon]
  split_ifs with hcount
  · refine ⟨hreload, fun hf => Nat.le_succ_of_le (hdue hf), fun _ => Or.inr ?_⟩
    change ticks ≤ reload.toNat + (waited + 1)
    omega
  · have hcount : count ≠ 0 := hcount
    have hpred : (count - 1).toNat + 1 = count.toNat := by bv_omega
    have hrest (hf : countflag = false) : ticks ≤ count.toNat + waited :=
      (hrunning hf).resolve_left hcount
    refine ⟨hreload, fun hf => ?_, fun hf => Or.inr ?_⟩
    · rcases Bool.or_eq_true_iff.mp hf with hf | hlast
      · exact Nat.le_succ_of_le (hdue hf)
      -- the counter goes from 1 to 0
      · cases hc : countflag with
        | true => exact Nat.le_succ_of_le (hdue hc)
        | false =>
          have hone : count.toNat = 1 := congrArg BitVec.toNat (eq_of_beq hlast)
          have := hrest hc
          omega
    · have := hrest (Bool.or_eq_false_iff.mp hf).1
      change ticks ≤ (count - 1).toNat + (waited + 1)
      omega

theorem Holds.tick (h : Holds clock s f) : Holds clock s.tick f.tick := by
  refine ⟨h.waited.tick, fun hpc hon => ?_, fun hpc => ?_⟩
  · rw [tick_pc] at hpc
    rw [tick_enabled] at hon
    rw [tick_delay, tick_waited (by rw [hpc]; rfl)]
    exact (h.counting hpc hon).tick hon
  · rw [tick_pc] at hpc
    rw [tick_enabled]
    exact h.stopped hpc

end

theorem load_toNat {clock : U32} {d : Delay} (h : d.ticks clock < 2 ^ 24) :
    ((d.load clock).setWidth 24).toNat = d.ticks clock := by
  have hwide : d.ticks clock < 2 ^ 32 := h.trans (by decide)
  cases d with
  | us n =>
    have hmul : n.toNat * (usBaseCnt clock).toNat < 2 ^ 32 := hwide
    rw [Delay.load, BitVec.toNat_setWidth, BitVec.toNat_mul, Nat.mod_eq_of_lt hmul]
    exact Nat.mod_eq_of_lt h
  | ms n =>
    have hmul : n.toNat * (msBaseCnt clock).toNat < 2 ^ 32 := hwide
    rw [Delay.load, BitVec.toNat_setWidth, BitVec.toNat_mul, Nat.mod_eq_of_lt hmul]
    exact Nat.mod_eq_of_lt h

theorem setCtrl_enable (s : SysTick) (ctrl : U32) :
    s.setCtrl (ctrl ||| 1) = { s with enabled := true } := by
  have hset : (ctrl ||| 1) &&& 1 ≠ 0 := fun h => by
    have hbit := congrArg (fun w : U32 => w.getLsbD 0) h
    simp at hbit
  rw [SysTick.setCtrl, decide_eq_true hset]

theorem setCtrl_disable (s : SysTick) (ctrl : U32) :
    s.setCtrl (ctrl &&& ~~~1) = { s with enabled := false } := by
  have hclear : (ctrl &&& ~~~1) &&& 1 = 0 := by
    rw [BitVec.and_assoc]
    exact BitVec.and_zero
  rw [SysTick.setCtrl, hclear]
  rfl

theorem polling_ctrl (s : SysTick) : Polling s.ctrl ↔ s.enabled = true ∧ s.countflag = false := by
  obtain ⟨enabled, reload, count, countflag⟩ := s
  cases enabled <;> cases countflag <;> simp [Polling, SysTick.ctrl]

theorem counting_start {s : SysTick} {ticks : ℕ} (h : s.Unstarted) (hticks : ticks ≤ s.reload.toNat)
    (ctrl : U32) : Counting ticks (s.setCtrl (ctrl ||| 1)) 0 := by
  rw [setCtrl_enable]
  refine ⟨hticks, fun hf => absurd (h.1.symm.trans hf) Bool.false_ne_true, fun _ => ?_⟩
  refine h.2.imp_right fun hcount => ?_
  change ticks ≤ s.count.toNat + 0
  rw [hcount]
  exact hticks

theorem advance_sound {clock : U32} {s : State} {f : Frame} {fs : List Frame} (h : Sound clock s)
    (hs : s.stack = f :: fs) (hready : Ready clock s.timer f) : Sound clock (advance clock s f fs) := by
  obtain ⟨timer, stack, returned⟩ := s
  obtain rfl : stack = f :: fs := hs
  obtain ⟨⟨hholds, hidle⟩, hreturned⟩ := h
  obtain ⟨d, pc, waited⟩ := f
  cases pc with
  | setLoad => exact ⟨⟨Holds.early rfl (by simp), hidle⟩, hreturned⟩
  | setVal => exact ⟨⟨Holds.early rfl (by simp), hidle⟩, hreturned⟩
  | loadEnable => exact ⟨⟨Holds.early rfl (by simp), hidle⟩, hreturned⟩
  | storeEnable ctrl =>
    refine ⟨⟨⟨fun h => absurd h Bool.false_ne_true, fun _ _ => ?_, fun h => (by cases h)⟩, hidle⟩,
      hreturned⟩
    exact counting_start hready.1 hready.2 ctrl
  | poll =>
    have hon : timer.enabled = true := hready
    have hcounting : Counting (d.ticks clock) timer waited := hholds.counting rfl hon
    refine ⟨⟨?_, hidle⟩, hreturned⟩
    by_cases hpoll : Polling timer.ctrl
    · have hflag := ((polling_ctrl timer).mp hpoll).2
      rw [if_pos hpoll]
      refine ⟨fun h => absurd h Bool.false_ne_true, fun _ _ => ?_, fun h => (by cases h)⟩
      exact ⟨hcounting.reload, fun hf => absurd hf Bool.false_ne_true, fun _ => hcounting.running hflag⟩
    -- the timer is on, so the loop ends by `COUNTFLAG`
    · rw [if_neg hpoll]
      refine ⟨fun _ => hcounting.due (Bool.eq_true_of_not_eq_false fun hflag => hpoll ?_),
        fun h => (by cases h), fun h => (by cases h)⟩
      exact (polling_ctrl timer).mpr ⟨hon, hflag⟩
  | loadDisable =>
    exact ⟨⟨⟨fun _ => hholds.waited rfl, fun h => (by cases h), fun h => (by cases h)⟩, hidle⟩, hreturned⟩
  | storeDisable ctrl =>
    refine ⟨⟨⟨fun _ => hholds.waited rfl, fun h => (by cases h), fun _ => ?_⟩, hidle⟩, hreturned⟩
    exact congrArg SysTick.enabled (setCtrl_disable timer ctrl)
  | resetVal =>
    refine ⟨?_, List.forall_mem_cons.mpr ⟨hholds.waited rfl, hreturned⟩⟩
    cases fs with
    | nil => trivial
    | cons g gs =>
      obtain ⟨hg, hgs⟩ := List.forall_mem_cons.mp hidle
      exact ⟨hg.holds (hholds.stopped rfl), hgs⟩

theorem owned_tick {clock : U32} {s : SysTick} {fs : List Frame} (h : Owned clock s fs) :
    Owned clock s.tick (fs.map Frame.tick) := by
  cases fs with
  | nil => trivial
  | cons f fs => exact ⟨h.1.tick, List.forall_mem_map.mpr fun g hg => (h.2 g hg).tick⟩

theorem Owned.waited {clock : U32} {s : SysTick} {fs : List Frame} (h : Owned clock s fs) :
    ∀ f ∈ fs, Waited clock f := by
  cases fs with
  | nil => simp
  | cons f fs => exact List.forall_mem_cons.mpr ⟨h.1.waited, h.2⟩

theorem step_sound {clock : U32} {s s' : State} {e : Event} (h : Sound clock s)
    (he : Undisturbed clock s e) (hs : step clock s e = some s') : Sound clock s' := by
  cases e with
  | tick =>
    obtain rfl := Option.some.inj hs
    exact ⟨owned_tick h.owned, h.returned⟩
  | step =>
    cases hstack : s.stack with
    | nil => simp [step, hstack] at hs
    | cons f fs =>
      simp only [step, hstack] at hs
      obtain rfl := Option.some.inj hs
      exact advance_sound h hstack (he rfl f (by simp [hstack]))
  | call d =>
    obtain rfl := Option.some.inj hs
    exact ⟨⟨Holds.early rfl (by simp), h.owned.waited⟩, h.returned⟩

theorem sound_run {clock : U32} {reload count : BitVec 24} {es : List Event} {s : State}
    (hguard : Guarded (step clock) (Undisturbed clock) (boot reload count) es)
    (hrun : exec (step clock) (boot reload count) es = some s) : Sound clock s := by
  have hboot : Sound clock (boot reload count) := ⟨trivial, by simp [boot]⟩
  exact exec_guarded (fun _ _ _ => step_sound) hboot hguard hrun

/-- Before its write of `LOAD`, or behind the write that disables the timer. -/
def Frame.Clear (f : Frame) : Prop := f.pc = .setLoad ∨ f.pc = .resetVal

def StartsClear (clock : U32) (s : State) : Event → Prop
  | .call d => (∀ f ∈ s.stack, f.Clear) ∧ d.ticks clock < 2 ^ 24
  | _ => True

/-- The timer while the delay `f` runs and no other holds it. -/
def Alone (clock : U32) (s : SysTick) (f : Frame) : Prop :=
  match f.pc with
  | .setLoad => s.enabled = false
  | .setVal => s.enabled = false ∧ s.reload.toNat = f.delay.ticks clock
  | .loadEnable => s.enabled = false ∧ s.reload.toNat = f.delay.ticks clock ∧ s.Unstarted
  | .storeEnable _ => s.enabled = false ∧ s.reload.toNat = f.delay.ticks clock ∧ s.Unstarted
  | .poll => s.enabled = true
  | .loadDisable => True
  | .storeDisable _ => True
  | .resetVal => s.enabled = false

structure Unshared (clock : U32) (s : State) : Prop where
  off : s.stack = [] → s.timer.enabled = false
  alone : ∀ f ∈ s.stack.head?, Alone clock s.timer f
  clear : ∀ f ∈ s.stack.tail, f.Clear
  fits : ∀ f ∈ s.stack, f.delay.ticks clock < 2 ^ 24

section
variable {clock : U32} {s : SysTick} {f : Frame}

theorem Alone.ready (h : Alone clock s f) : Ready clock s f := by
  obtain ⟨d, pc, waited⟩ := f
  cases pc with
  | storeEnable ctrl => exact ⟨h.2.2, h.2.1.ge⟩
  | poll => exact h
  | _ => trivial

theorem Frame.Clear.alone_iff (hf : f.Clear) : Alone clock s f ↔ s.enabled = false := by
  obtain ⟨d, pc, waited⟩ := f
  rcases hf with hpc | hpc <;> cases hpc <;> exact Iff.rfl

theorem tick_disabled (hs : s.enabled = false) : s.tick = s := by
  rw [SysTick.tick, hs]
  rfl

theorem Alone.tick (h : Alone clock s f) : Alone clock s.tick f.tick := by
  obtain ⟨d, pc, waited⟩ := f
  cases pc with
  | setLoad => exact (tick_disabled h).symm ▸ h
  | setVal => exact (tick_disabled h.1).symm ▸ h
  | loadEnable => exact (tick_disabled h.1).symm ▸ h
  | storeEnable ctrl => exact (tick_disabled h.1).symm ▸ h
  | poll => exact (tick_enabled s).trans h
  | loadDisable => trivial
  | storeDisable ctrl => trivial
  | resetVal => exact (tick_enabled s).trans h

end

theorem advance_unshared {clock : U32} {s : State} {f : Frame} {fs : List Frame}
    (h : Unshared clock s) (hs : s.stack = f :: fs) : Unshared clock (advance clock s f fs) := by
  obtain ⟨timer, stack, returned⟩ := s
  obtain rfl : stack = f :: fs := hs
  have halone : Alone clock timer f := h.alone f rfl
  have hclear : ∀ g ∈ fs, g.Clear := h.clear
  obtain ⟨hd, hfits⟩ := List.forall_mem_cons.mp h.fits
  have hkeep {timer : SysTick} {pc : Pc} {waited : ℕ} (hpc : Alone clock timer ⟨f.delay, pc, waited⟩) :
      Unshared clock ⟨timer, ⟨f.delay, pc, waited⟩ :: fs, returned⟩ :=
    ⟨by simp, fun g hg => Option.some.inj hg ▸ hpc, hclear, List.forall_mem_cons.mpr ⟨hd, hfits⟩⟩
  obtain ⟨d, pc, waited⟩ := f
  cases pc with
  | setLoad => exact hkeep ⟨halone, load_toNat hd⟩
  | setVal => exact hkeep ⟨halone.1, halone.2, rfl, Or.inl rfl⟩
  | loadEnable => exact hkeep ⟨halone.1, halone.2.1, rfl, halone.2.2.2⟩
  | storeEnable ctrl => exact hkeep (congrArg SysTick.enabled (setCtrl_enable timer ctrl))
  | poll =>
    refine hkeep ?_
    split_ifs
    · exact halone
    · trivial
  | loadDisable => exact hkeep trivial
  | storeDisable ctrl => exact hkeep (congrArg SysTick.enabled (setCtrl_disable timer ctrl))
  | resetVal =>
    have hoff : timer.enabled = false := halone
    refine ⟨fun _ => hoff, fun g hg => ?_, fun g hg => hclear g (List.mem_of_mem_tail hg), hfits⟩
    exact (hclear g (List.mem_of_mem_head? hg)).alone_iff.mpr hoff

theorem step_unshared {clock : U32} {s s' : State} {e : Event} (h : Unshared clock s)
    (he : StartsClear clock s e) (hs : step clock s e = some s') : Unshared clock s' := by
  obtain ⟨timer, stack, returned⟩ := s
  cases e with
  | tick =>
    obtain rfl := Option.some.inj hs
    refine ⟨fun hnil => ?_, fun g hg => ?_, fun g hg => ?_, List.forall_mem_map.mpr fun g hg => ?_⟩
    · exact (tick_enabled timer).trans (h.off (List.map_eq_nil_iff.mp hnil))
    · rw [List.head?_map, Option.mem_map] at hg
      obtain ⟨f, hf, rfl⟩ := hg
      exact (h.alone f hf).tick
    · rw [← List.map_tail] at hg
      obtain ⟨f, hf, rfl⟩ := List.mem_map.mp hg
      rw [Frame.Clear, tick_pc]
      exact h.clear f hf
    · rw [tick_delay]
      exact h.fits g hg
  | step =>
    cases stack with
    | nil => cases hs
    | cons f fs =>
      obtain rfl := Option.some.inj hs
      exact advance_unshared h rfl
  | call d =>
    obtain rfl := Option.some.inj hs
    have hoff : timer.enabled = false := by
      cases stack with
      | nil => exact h.off rfl
      | cons f fs => exact (he.1 f List.mem_cons_self).alone_iff.mp (h.alone f rfl)
    exact ⟨by simp, fun g hg => Option.some.inj hg ▸ hoff, he.1, List.forall_mem_cons.mpr ⟨he.2, h.fits⟩⟩

/-- No delay is disturbed while each one starts with those under it clear of the timer. -/
theorem undisturbed_of_clear {clock : U32} {s : State} {es : List Event} (hs : Unshared clock s)
    (h : Guarded (step clock) (StartsClear clock) s es) :
    Guarded (step clock) (Undisturbed clock) s es := by
  induction es generalizing s with
  | nil => trivial
  | cons e es ih =>
    exact ⟨fun _ f hf => (hs.alone f hf).ready,
      fun s' hstep => ih (step_unshared hs h.1 hstep) (h.2 s' hstep)⟩

theorem boot_unshared (clock : U32) (reload count : BitVec 24) : Unshared clock (boot reload count) :=
  ⟨fun _ => rfl, by simp [boot], by simp [boot], by simp [boot]⟩

/-! ## Delays that nobody preempts -/

theorem count_down {reload : BitVec 24} {k : ℕ} (h : k < reload.toNat) :
    SysTick.tick^[k + 1] ⟨true, reload, 0, false⟩ =
      ⟨true, reload, reload - BitVec.ofNat 24 k, false⟩ := by
  induction k with
  | zero => simp [SysTick.tick]
  | succ k ih =>
    have hne : reload - BitVec.ofNat 24 k ≠ 0 := by bv_omega
    have hone : ¬ reload - BitVec.ofNat 24 k = 1 := by bv_omega
    have hpred : reload - BitVec.ofNat 24 k - 1 = reload - BitVec.ofNat 24 (k + 1) := by bv_omega
    rw [Function.iterate_succ_apply', ih (Nat.lt_of_succ_lt h), SysTick.tick, if_pos rfl, if_neg hne,
      hpred, Bool.false_or, beq_eq_false_iff_ne.mpr hone]

theorem rings {reload : BitVec 24} (h : 0 < reload.toNat) :
    SysTick.tick^[reload.toNat + 1] ⟨true, reload, 0, false⟩ = ⟨true, reload, 0, true⟩ := by
  obtain ⟨k, hk⟩ := Nat.exists_eq_add_one_of_ne_zero h.ne'
  have hone : reload - BitVec.ofNat 24 k = 1 := by bv_omega
  rw [hk, Function.iterate_succ_apply', count_down (by omega), hone]
  simp [SysTick.tick]

theorem exec_ticks (clock : U32) (n : ℕ) (s : State) :
    exec (step clock) s (List.replicate n .tick) =
      some ⟨SysTick.tick^[n] s.timer, s.stack.map Frame.tick^[n], s.returned⟩ := by
  induction n generalizing s with
  | zero => simp
  | succ n ih =>
    rw [List.replicate_succ, exec, step, Option.bind_some, ih]
    simp [Function.comp_def]

/-- The events of a delay that nobody preempts. -/
def wholeDelay (clock : U32) (d : Delay) : List Event :=
  .call d :: List.replicate 4 Event.step ++ List.replicate (d.ticks clock + 1) Event.tick ++
    List.replicate 4 Event.step

theorem tick_polling (d : Delay) (waited n : ℕ) :
    Frame.tick^[n] ⟨d, .poll, waited⟩ = ⟨d, .poll, waited + n⟩ := by
  induction n with
  | zero => rfl
  | succ n ih =>
    rw [Function.iterate_succ_apply', ih]
    rfl

/-- A poll that finds `COUNTFLAG` set or the timer switched off ends the delay. -/
theorem exec_leave (clock : U32) {timer : SysTick} (hleave : ¬ Polling timer.ctrl) (d : Delay)
    (waited : ℕ) (fs : List Frame) (returned : List (Delay × ℕ)) :
    exec (step clock) ⟨timer, ⟨d, .poll, waited⟩ :: fs, returned⟩ (List.replicate 4 .step) =
      some ⟨⟨false, timer.reload, 0, false⟩, fs, (d, waited) :: returned⟩ := by
  have hpoll : step clock ⟨timer, ⟨d, .poll, waited⟩ :: fs, returned⟩ .step =
      some ⟨timer.afterCtrl, ⟨d, .loadDisable, waited⟩ :: fs, returned⟩ := by
    simp only [step, advance, if_neg hleave]
  have hrest : exec (step clock) ⟨timer.afterCtrl, ⟨d, .loadDisable, waited⟩ :: fs, returned⟩
      (List.replicate 3 .step) =
        some ⟨(timer.afterCtrl.setCtrl (timer.afterCtrl.ctrl &&& ~~~1)).setVal, fs,
          (d, waited) :: returned⟩ := rfl
  rw [List.replicate_succ, exec, hpoll, Option.bind_some, hrest, setCtrl_disable]
  rfl

theorem exec_enable (clock : U32) (d : Delay) (s : State) :
    exec (step clock) s (.call d :: List.replicate 4 .step) =
      some ⟨⟨true, (d.load clock).setWidth 24, 0, false⟩, ⟨d, .poll, 0⟩ :: s.stack, s.returned⟩ := by
  refine congrArg some ?_
  simp only [advance]
  rw [setCtrl_enable]
  rfl

/-- It returns one tick later than the value that `LOAD` keeps. -/
theorem exec_alone {clock : U32} {d : Delay} (hpos : 0 < ((d.load clock).setWidth 24).toNat)
    (s : State) :
    exec (step clock) s (.call d :: List.replicate 4 Event.step ++
      List.replicate (((d.load clock).setWidth 24).toNat + 1) Event.tick ++
        List.replicate 4 Event.step) = some ⟨⟨false, (d.load clock).setWidth 24, 0, false⟩,
      s.stack.map Frame.tick^[((d.load clock).setWidth 24).toNat + 1],
      (d, ((d.load clock).setWidth 24).toNat + 1) :: s.returned⟩ := by
  rw [exec_append, exec_append, exec_enable, Option.bind_some, exec_ticks, Option.bind_some,
    rings hpos, List.map_cons, tick_polling, Nat.zero_add, exec_leave]
  rw [polling_ctrl]
  simp

theorem exec_wholeDelay {clock : U32} {d : Delay} (hpos : 0 < d.ticks clock)
    (hfits : d.ticks clock < 2 ^ 24) (s : State) :
    exec (step clock) s (wholeDelay clock d) = some ⟨⟨false, (d.load clock).setWidth 24, 0, false⟩,
      s.stack.map Frame.tick^[d.ticks clock + 1], (d, d.ticks clock + 1) :: s.returned⟩ := by
  have hreload := load_toNat hfits
  have hrun := exec_alone (hreload ▸ hpos) s
  rw [hreload] at hrun
  exact hrun

/-- A handler that runs the delays `ds`, one after the other. -/
def handler (clock : U32) (ds : List Delay) : List Event := ds.flatMap (wholeDelay clock)

def handlerTicks (clock : U32) (ds : List Delay) : ℕ := (ds.map fun d => d.ticks clock + 1).sum

/-- A delay preempted at its poll by such a handler finds the timer switched off. -/
theorem exec_handler {clock : U32} {ds : List Delay}
    (hds : ∀ d ∈ ds, 0 < d.ticks clock ∧ d.ticks clock < 2 ^ 24) (outer : Delay) {s : State}
    {waited : ℕ} (hs : s.stack = [⟨outer, .poll, waited⟩]) :
    ∃ timer returned, exec (step clock) s (handler clock ds) =
      some ⟨timer, [⟨outer, .poll, waited + handlerTicks clock ds⟩], returned⟩ ∧
      (ds ≠ [] ∨ s.timer.enabled = false → timer.enabled = false) := by
  induction ds generalizing s waited with
  | nil =>
    refine ⟨s.timer, s.returned, ?_, fun h => h.resolve_left fun h => h rfl⟩
    obtain ⟨timer, stack, returned⟩ := s
    obtain rfl := hs
    rfl
  | cons d ds ih =>
    obtain ⟨⟨hpos, hfits⟩, hds⟩ := List.forall_mem_cons.mp hds
    have hfirst := exec_wholeDelay hpos hfits s
    rw [hs, List.map_singleton, tick_polling] at hfirst
    obtain ⟨timer, returned, hrest, hoff⟩ := ih (s := ⟨⟨false, (d.load clock).setWidth 24, 0, false⟩,
      [⟨outer, .poll, waited + (d.ticks clock + 1)⟩], (d, d.ticks clock + 1) :: s.returned⟩) hds rfl
    refine ⟨timer, returned, ?_, fun _ => hoff (Or.inr rfl)⟩
    have hsum : handlerTicks clock (d :: ds) = d.ticks clock + 1 + handlerTicks clock ds := rfl
    rw [handler, List.flatMap_cons, exec_append, hfirst, Option.bind_some, hsum]
    rw [Nat.add_assoc] at hrest
    exact hrest

/-- It then returns at once, having waited for no longer than the handler took. -/
theorem preempted_returns {clock : U32} {ds : List Delay}
    (hds : ∀ d ∈ ds, 0 < d.ticks clock ∧ d.ticks clock < 2 ^ 24) (hne : ds ≠ []) (outer : Delay)
    (s : State) (hs : s.stack = []) :
    ∃ t, exec (step clock) s (.call outer :: List.replicate 4 Event.step ++ handler clock ds ++
      List.replicate 4 Event.step) = some t ∧ (outer, handlerTicks clock ds) ∈ t.returned := by
  have henable := exec_enable clock outer s
  rw [hs] at henable
  obtain ⟨timer, returned, hhandler, hoff⟩ := exec_handler hds outer (s := ⟨⟨true,
    (outer.load clock).setWidth 24, 0, false⟩, [⟨outer, .poll, 0⟩], s.returned⟩) rfl
  have hleave : ¬ Polling timer.ctrl := fun h =>
    absurd ((polling_ctrl timer).mp h).1 (by simp [hoff (Or.inl hne)])
  rw [exec_append, exec_append, henable, Option.bind_some, hhandler, Option.bind_some,
    exec_leave clock hleave]
  exact ⟨_, rfl, by simp⟩

/-! ## The 24 bits of `LOAD` -/

/-- The ticks of a delay after `SysTick_Init` at 72 MHz. -/
def Delay.asked : Delay → ℕ
  | us n => n.toNat * 9
  | ms n => n.toNat * 9000

theorem ticks_eq_asked (d : Delay) : d.ticks 72000000 = d.asked := by cases d <;> rfl

def Event.Alone (e : Event) : Prop := e = .tick ∨ e = .step

/-- `LOAD` keeps the ticks asked for, and a call that nobody preempts waits for them. -/
structure Delay.Kept (d : Delay) : Prop where
  reload : ((d.load 72000000).setWidth 24).toNat = d.asked
  waits : ∀ (reload count : BitVec 24) (es : List Event) (s : State) (waited : ℕ),
    (∀ e ∈ es, e.Alone) → exec (step 72000000) (boot reload count) (.call d :: es) = some s →
      (d, waited) ∈ s.returned → d.asked ≤ waited

theorem startsClear_alone {clock : U32} {es : List Event} (h : ∀ e ∈ es, e.Alone) (s : State) :
    Guarded (step clock) (StartsClear clock) s es := by
  induction es generalizing s with
  | nil => trivial
  | cons e es ih =>
    obtain ⟨he, hes⟩ := List.forall_mem_cons.mp h
    refine ⟨?_, fun s' _ => ih hes s'⟩
    rcases he with rfl | rfl <;> trivial

theorem delay_kept_iff (d : Delay) : d.Kept ↔ d.asked < 2 ^ 24 := by
  constructor
  · intro h
    rw [← h.reload]
    exact BitVec.isLt _
  · intro h
    rw [← ticks_eq_asked] at h
    refine ⟨ticks_eq_asked d ▸ load_toNat h, fun reload count es s waited hes hrun hreturned => ?_⟩
    have hcall : StartsClear 72000000 (boot reload count) (.call d) := ⟨by simp [boot], h⟩
    have hclear : Guarded (step 72000000) (StartsClear 72000000) (boot reload count) (.call d :: es) :=
      ⟨hcall, fun s' _ => startsClear_alone hes s'⟩
    have hguard := undisturbed_of_clear (boot_unshared 72000000 reload count) hclear
    exact ticks_eq_asked d ▸ (sound_run hguard hrun).returned _ hreturned

/-- `Delay_ms(2000)` of `DHT11_Init` waits for about 136 ms. -/
theorem sensor_wait_truncated : (Delay.ms 2000).asked < 2 ^ 32 ∧ ¬ (Delay.ms 2000).Kept ∧
    ∃ es s, (∀ e ∈ es, Event.Alone e) ∧
      exec (step 72000000) (boot 0 0) (.call (.ms 2000) :: es) = some s ∧
      s.returned = [(.ms 2000, 1222785)] ∧ (Delay.ms 2000).asked = 18000000 := by
  refine ⟨by decide, fun h => absurd ((delay_kept_iff _).mp h) (by decide), ?_⟩
  have hload : (((Delay.ms 2000).load 72000000).setWidth 24).toNat = 1222784 := by decide
  have hrun := exec_alone (hload ▸ (by decide : 0 < 1222784)) (boot 0 0)
  rw [hload] at hrun
  refine ⟨_, _, fun e he => ?_, hrun, rfl, rfl⟩
  rcases List.mem_append.mp he with he | he
  · rcases List.mem_append.mp he with he | he
    · exact Or.inr (List.eq_of_mem_replicate he)
    · exact Or.inl (List.eq_of_mem_replicate he)
  · exact Or.inr (List.eq_of_mem_replicate he)

/-! ## A key press and the sensor -/

/-- `Delay_ms(30)` of `EXTI0_IRQHandler`, preempted by `TIM2_IRQHandler` when the sensor does not
answer: `DHT11_Start` and 101 turns of `DHT11_WaiteCheck`. -/
def silentSensor : List Delay := .ms 20 :: .us 30 :: List.replicate 101 (.us 1)

/-- A delay preempted before it has touched the timer and again behind its loop, where the timer is
still on. -/
def preemptedAround : List Event :=
  .call (.us 10) :: wholeDelay 72000000 (.us 1) ++ List.replicate 4 Event.step ++
    List.replicate 91 Event.tick ++ [Event.step] ++ wholeDelay 72000000 (.us 1) ++
      List.replicate 3 Event.step

end EnvirMonitor.Timer
