import EnvirMonitor.Display.Refresh

/-! The pins behind `OLED_WR_Byte`. Its eight clock pulses fill the shift register of the controller,
and one call is one access of the display code. -/

namespace EnvirMonitor.Display
open Machine Prog

inductive Pin
  | scl | sda | dc | cs
  deriving DecidableEq

/-- The levels of the pins, and what the controller has shifted in since it was selected. -/
structure Wire where
  level : Pin → Bool
  shift : U8
  count : ℕ
  controller : Controller

def shiftIn (shift : U8) (bit : Bool) : U8 := shift <<< 1 ||| (if bit then 1#8 else 0#8)

/-- A byte is complete: the level of `DC` tells data from commands. -/
def Panel.receive (panel : Panel) (c : Controller) (dat : U8) (dc : Bool) : Controller :=
  if dc then panel.data c dat else c.command dat

/-- A rising edge of the clock while the controller is selected. -/
def Wire.clock (panel : Panel) (w : Wire) : Wire :=
  let shift := shiftIn w.shift (w.level .sda)
  if w.count + 1 = 8 then
    { w with shift, count := 0, controller := panel.receive w.controller shift (w.level .dc) }
  else { w with shift, count := w.count + 1 }

def Wire.drive (panel : Panel) (w : Wire) (pin : Pin) (high : Bool) : Wire :=
  let w' := { w with level := Function.update w.level pin high }
  match pin with
  | .cs => if high then { w' with count := 0 } else w'
  | .scl => if high = true ∧ w.level .scl = false ∧ w.level .cs = false then w'.clock panel else w'
  | _ => w'

abbrev Levels := List (Pin × Bool)

def Wire.driveAll (panel : Panel) (w : Wire) (levels : Levels) : Wire :=
  levels.foldl (fun w l => w.drive panel l.1 l.2) w

def clockOut : ℕ → U8 → Levels
  | 0, _ => []
  | turns + 1, dat =>
    [(.scl, false), (.sda, decide (dat &&& 0x80 ≠ 0)), (.scl, true)] ++ clockOut turns (dat <<< 1)

def wrByteLevels (dat cmd : U8) : Levels :=
  [(.dc, decide (cmd ≠ 0)), (.cs, false)] ++ clockOut 8 dat ++ [(.cs, true), (.dc, true)]

/-! ## The shift register -/

def shifted : ℕ → U8 → U8 → U8
  | 0, shift, _ => shift
  | turns + 1, shift, dat => shifted turns (shiftIn shift (decide (dat &&& 0x80 ≠ 0))) (dat <<< 1)

theorem high_bit (dat : U8) : decide (dat &&& 0x80 ≠ 0) = dat.getLsbD 7 := by
  have hmask : dat &&& 0x80 = dat &&& BitVec.twoPow 8 7 := rfl
  rw [hmask, BitVec.and_twoPow]
  cases dat.getLsbD 7 <;> rfl

theorem getLsbD_shiftIn (shift : U8) (bit : Bool) {i : ℕ} (hi : i < 8) :
    (shiftIn shift bit).getLsbD i = if i = 0 then bit else shift.getLsbD (i - 1) := by
  have hlow : (if bit then 1#8 else 0#8).getLsbD i = (decide (i = 0) && bit) := by
    cases bit
    · simp
    · rw [if_pos rfl, BitVec.getLsbD_one, Bool.and_true]
      simp
  rw [shiftIn, BitVec.getLsbD_or, BitVec.getLsbD_shiftLeft, hlow]
  cases i with
  | zero => simp
  | succ i => simp [hi]

theorem getLsbD_shifted {turns : ℕ} (hturns : turns ≤ 8) (shift dat : U8) {i : ℕ} (hi : i < 8) :
    (shifted turns shift dat).getLsbD i =
      if i < turns then dat.getLsbD (i + (8 - turns)) else shift.getLsbD (i - turns) := by
  induction turns generalizing shift dat with
  | zero => rfl
  | succ turns ih =>
    rw [shifted, ih (by omega), high_bit]
    split_ifs with hlt hle hle
    · have hindex : i + (8 - turns) - 1 = i + (8 - (turns + 1)) := by omega
      have hrange : i + (8 - turns) < 8 ∧ 1 ≤ i + (8 - turns) := by omega
      rw [BitVec.getLsbD_shiftLeft, hindex]
      simp [hrange.1]
      omega
    · omega
    · have hlast : i = turns := by omega
      have hindex : turns + (8 - (turns + 1)) = 7 := by omega
      rw [hlast, Nat.sub_self, getLsbD_shiftIn _ _ (by decide), if_pos rfl, hindex]
    · rw [getLsbD_shiftIn _ _ (by omega), if_neg (by omega), Nat.sub_sub]

theorem shifted_eight (shift dat : U8) : shifted 8 shift dat = dat := by
  refine BitVec.eq_of_getLsbD_eq fun i hi => ?_
  rw [getLsbD_shifted le_rfl shift dat hi, if_pos hi]
  rfl

/-! ## One call -/

variable {panel : Panel}

structure Received (panel : Panel) (w : Wire) (dat : U8) (w' : Wire) : Prop where
  selected : w'.level .cs = false
  count : w'.count = 0
  controller : w'.controller = panel.receive w.controller dat (w.level .dc)

def Wire.turn (w : Wire) (bit : Bool) : Wire :=
  { w with level := Function.update (Function.update w.level .sda bit) .scl true }

theorem driveAll_turn (w : Wire) (hcs : w.level .cs = false) (bit : Bool) :
    w.driveAll panel [(.scl, false), (.sda, bit), (.scl, true)] = (w.turn bit).clock panel := by
  have hlevel : Function.update (Function.update (Function.update w.level .scl false) .sda bit) .scl
      true = Function.update (Function.update w.level .sda bit) .scl true := by
    rw [Function.update_comm (show Pin.scl ≠ .sda by decide), Function.update_idem]
  simp [Wire.driveAll, Wire.drive, hlevel, Wire.turn, hcs]

theorem turn_levels (w : Wire) (bit : Bool) : (w.turn bit).level .sda = bit ∧
    (w.turn bit).level .cs = w.level .cs ∧ (w.turn bit).level .dc = w.level .dc := by
  simp [Wire.turn]

theorem received_clockOut (panel : Panel) {turns : ℕ} {w : Wire} (hcs : w.level .cs = false)
    (hcount : w.count + (turns + 1) = 8) (dat : U8) :
    Received panel w (shifted (turns + 1) w.shift dat)
      (w.driveAll panel (clockOut (turns + 1) dat)) := by
  induction turns generalizing w dat with
  | zero =>
    obtain ⟨hsda, hcs', hdc⟩ := turn_levels w (decide (dat &&& 0x80 ≠ 0))
    have hlast : (w.turn (decide (dat &&& 0x80 ≠ 0))).count + 1 = 8 := hcount
    rw [clockOut, clockOut, List.append_nil, driveAll_turn w hcs, Wire.clock]
    simp only [if_pos hlast, hsda, hdc]
    exact ⟨hcs'.trans hcs, rfl, rfl⟩
  | succ turns ih =>
    set bit := decide (dat &&& 0x80 ≠ 0) with hbit
    obtain ⟨hsda, hcs', hdc⟩ := turn_levels w bit
    have hmore : ¬ (w.turn bit).count + 1 = 8 := by
      change ¬ w.count + 1 = 8
      omega
    have hclock : (w.turn bit).clock panel = { w.turn bit with
        shift := shiftIn w.shift bit
        count := w.count + 1 } := by
      rw [Wire.clock]
      simp only [if_neg hmore, hsda]
      rfl
    rw [clockOut, Wire.driveAll, List.foldl_append]
    change Received panel w _ ((w.driveAll panel _).driveAll panel (clockOut (turns + 1) (dat <<< 1)))
    rw [driveAll_turn w hcs, hclock]
    obtain ⟨hselected, hzero, hcontroller⟩ := ih (w := { w.turn bit with
      shift := shiftIn w.shift bit
      count := w.count + 1 }) (hcs'.trans hcs) (by change w.count + 1 + (turns + 1) = 8; omega)
      (dat <<< 1)
    refine ⟨hselected, hzero, hcontroller.trans ?_⟩
    change panel.receive w.controller _ ((w.turn bit).level .dc) = _
    rw [hdc]
    rfl

structure Wire.Idle (w : Wire) : Prop where
  cs : w.level .cs = true
  count : w.count = 0

def Wire.select (w : Wire) (cmd : U8) : Wire :=
  { w with level := Function.update (Function.update w.level .dc (decide (cmd ≠ 0))) .cs false }

/-- One call hands the controller one byte, of the kind that `cmd` says. -/
theorem driveAll_wrByte (panel : Panel) {w : Wire} (hw : w.Idle) (dat cmd : U8) :
    (w.driveAll panel (wrByteLevels dat cmd)).Idle ∧
      (w.driveAll panel (wrByteLevels dat cmd)).controller =
        panel.receive w.controller dat (decide (cmd ≠ 0)) := by
  have hcs : (w.select cmd).level .cs = false := by simp [Wire.select]
  have hdc : (w.select cmd).level .dc = decide (cmd ≠ 0) := by simp [Wire.select]
  have hcount : (w.select cmd).count + (7 + 1) = 8 := congrArg (· + 8) hw.count
  obtain ⟨-, hzero, hcontroller⟩ := received_clockOut panel hcs hcount dat
  rw [shifted_eight, hdc] at hcontroller
  have hsplit : w.driveAll panel (wrByteLevels dat cmd) =
      (((w.select cmd).driveAll panel (clockOut 8 dat)).drive panel .cs true).drive panel .dc true := by
    rw [wrByteLevels, Wire.driveAll, List.foldl_append, List.foldl_append]
    rfl
  rw [hsplit]
  exact ⟨⟨by simp [Wire.drive], rfl⟩, hcontroller⟩

/-- Any sequence of calls on the pins leaves the controller that the accesses leave. -/
theorem driveAll_calls (panel : Panel) {w : Wire} (hw : w.Idle) (calls : List (U8 × U8)) (b : Board)
    (hb : b.controller = w.controller) :
    (w.driveAll panel (calls.flatMap fun call => wrByteLevels call.1 call.2)).Idle ∧
      (after (board panel) (calls.map fun call => .wrByte call.1 call.2) b).controller =
        (w.driveAll panel (calls.flatMap fun call => wrByteLevels call.1 call.2)).controller := by
  induction calls generalizing w b with
  | nil => exact ⟨hw, hb⟩
  | cons call calls ih =>
    obtain ⟨hidle, hcontroller⟩ := driveAll_wrByte panel hw call.1 call.2
    rw [List.flatMap_cons, Wire.driveAll, List.foldl_append, List.map_cons, after_cons]
    refine ih hidle _ ?_
    change (if call.2 ≠ 0 then panel.data b.controller call.1 else b.controller.command call.1) = _
    rw [hb]
    exact (if_congr decide_eq_true_iff.symm rfl rfl).trans hcontroller.symm

end EnvirMonitor.Display
