import EnvirMonitor.Ethernet.Receive

/-! `DM9000_Receive_Packet` with an exhausted pbuf pool: the loop that is to drop the frame. -/

namespace EnvirMonitor.Ethernet
open Machine Prog

def receiveFrame (fuel : ℕ) : Driver (Option RxPbuf) := do
  let (_, rxLength, granted) ← readHeader
  fillPbuf fuel rxLength granted

def Board.withPool (b : Board) (granted : Bool) : Board := { b with granted := fun _ => granted }

def Board.rxLength (b : Board) : U16 := b.rxWord (b.rxPtr + 1)

def Board.afterHeader (b : Board) : Board :=
  { b with index := Reg.MRCMD, rxPtr := b.rxPtr + 2, allocs := b.allocs + 1 }

theorem run_receiveFrame (fuel : ℕ) (b : Board) (granted : Bool) :
    (receiveFrame fuel).run board (b.withPool granted) =
      (fillPbuf fuel b.rxLength (if granted then some b.allocs else none)).run board
        (b.withPool granted).afterHeader := rfl

theorem run_drain_even {b : Board} (h : b.index = Reg.MRCMD) {fuel n : ℕ} (hfuel : n < fuel) :
    (drain fuel (2 * n : ℕ)).run board b = some ((), b.advance n) := by
  obtain ⟨fuel, rfl⟩ := Nat.exists_eq_add_one_of_ne_zero (Nat.ne_zero_of_lt hfuel)
  induction n generalizing b fuel with
  | zero => rfl
  | succ n ih =>
    obtain ⟨fuel, rfl⟩ := Nat.exists_eq_add_one_of_ne_zero (n := fuel) (by omega)
    have hlen : ((2 * (n + 1) : ℕ) : ℤ) - 2 = (2 * n : ℕ) := by omega
    rw [drain, if_neg (by omega), run_getData_mrcmd h, hlen, ih (b := b.advance 1) h fuel (by omega),
      advance_advance, Nat.add_comm]

/-- `len` steps from 1 to -1. -/
theorem run_drain_odd (fuel : ℕ) {len : ℤ} (h : len % 2 = 1) (b : Board) :
    (drain fuel len).run board b = none := by
  induction fuel generalizing len b with
  | zero => rfl
  | succ fuel ih =>
    rw [drain, if_neg (by omega), run_getData]
    exact ih (by omega) _

theorem run_fillPbuf_none (fuel : ℕ) (rxLength : U16) (b : Board) :
    (fillPbuf fuel rxLength none).run board b =
      ((drain fuel rxLength.toNat).run board b).map fun x => (none, x.2) := by
  rw [fillPbuf, run_bind]
  cases (drain fuel rxLength.toNat).run board b <;> rfl

theorem run_fillPbuf_some {b : Board} (h : b.index = Reg.MRCMD) (fuel id : ℕ) (rxLength : U16) :
    ∃ p, (fillPbuf fuel rxLength (some id)).run board b =
      some (some p, b.advance ((rxLength.toNat + 1) / 2)) := by
  obtain ⟨segs, hrun, -⟩ := run_copySegments h (poolSegments_aligned rxLength.toNat)
  rw [poolSegments_sum] at hrun
  refine ⟨⟨id, segs⟩, ?_⟩
  rw [fillPbuf, run_bind, hrun]
  rfl

/-- Without a pbuf the frame ends after as many words as with one, where the next header is. -/
structure DrainsLikeCopy (b : Board) : Prop where
  copied : ∀ fuel, ∃ p b', (receiveFrame fuel).run board (b.withPool true) = some (some p, b') ∧
    b'.rxPtr = b.rxPtr + 2 + (b.rxLength.toNat + 1) / 2
  drained : ∃ fuel b', (receiveFrame fuel).run board (b.withPool false) = some (none, b') ∧
    b'.rxPtr = b.rxPtr + 2 + (b.rxLength.toNat + 1) / 2

theorem drainsLikeCopy_iff (b : Board) : DrainsLikeCopy b ↔ b.rxLength.toNat % 2 = 0 := by
  constructor
  · intro h
    obtain ⟨fuel, b', hrun, -⟩ := h.drained
    by_contra hodd
    rw [run_receiveFrame, if_neg Bool.false_ne_true, run_fillPbuf_none,
      run_drain_odd fuel (by omega)] at hrun
    cases hrun
  · intro heven
    constructor
    · intro fuel
      obtain ⟨p, hrun⟩ := run_fillPbuf_some (b := (b.withPool true).afterHeader) rfl fuel b.allocs
        b.rxLength
      rw [run_receiveFrame, if_pos rfl]
      exact ⟨p, _, hrun, rfl⟩
    · have hlen : b.rxLength.toNat = 2 * (b.rxLength.toNat / 2) := by omega
      have hdrain := run_drain_even (b := (b.withPool false).afterHeader) rfl
        (Nat.lt_add_one (b.rxLength.toNat / 2))
      rw [← hlen] at hdrain
      refine ⟨b.rxLength.toNat / 2 + 1,
        (b.withPool false).afterHeader.advance (b.rxLength.toNat / 2), ?_, ?_⟩
      · rw [run_receiveFrame, if_neg Bool.false_ne_true, run_fillPbuf_none, hdrain]
        rfl
      · change b.rxPtr + 2 + b.rxLength.toNat / 2 = _
        omega

/-! ## The call -/

theorem run_receive_ready {b : Board} (hready : lowByte (b.rxReady b.rxPtr) = 1)
    (hpool : b.granted b.allocs = false) (fuel : ℕ) :
    (dm9000ReceivePacket (fuel + 1)).run board b =
      ((drain fuel b.rxLength.toNat).run board b.afterHeader).bind fun x =>
        (if BadFrame (b.rxWord b.rxPtr) b.rxLength then do
          resetIfTooBig b.rxLength
          dm9000ReceivePacket fuel
        else pure none : Driver (Option RxPbuf)).run board x.2 := by
  have hheader : readHeader.run board { b with index := Reg.MRCMDX } =
      some ((b.rxWord b.rxPtr, b.rxLength, none), b.afterHeader) := by
    have hrun : readHeader.run board { b with index := Reg.MRCMDX } =
        some ((b.rxWord b.rxPtr, b.rxLength, if b.granted b.allocs then some b.allocs else none),
          b.afterHeader) := rfl
    rw [hrun, hpool]
    rfl
  rw [dm9000ReceivePacket, run_peek]
  simp only [hready]
  rw [if_pos (by decide), if_neg (by decide), run_bind_of hheader, run_bind,
    run_fillPbuf_none, Option.bind_map]
  refine congrArg (Option.bind _) (funext fun x => ?_)
  dsimp only [Function.comp]
  split_ifs <;> rfl

/-- A frame of odd length that finds no pbuf stops the driver. -/
theorem receive_never_returns {b : Board} (hready : lowByte (b.rxReady b.rxPtr) = 1)
    (hpool : b.granted b.allocs = false) (hodd : b.rxLength.toNat % 2 = 1) (fuel : ℕ) :
    (dm9000ReceivePacket fuel).run board b = none := by
  cases fuel with
  | zero => rfl
  | succ fuel => rw [run_receive_ready hready hpool, run_drain_odd fuel (by omega), Option.bind_none]

/-- One of even length is dropped, and the next pass starts at the next frame. -/
theorem receive_drops {b : Board} (hready : lowByte (b.rxReady b.rxPtr) = 1)
    (hpool : b.granted b.allocs = false) (heven : b.rxLength.toNat % 2 = 0) {fuel : ℕ}
    (hfuel : b.rxLength.toNat / 2 < fuel) :
    (dm9000ReceivePacket (fuel + 1)).run board b =
      (if BadFrame (b.rxWord b.rxPtr) b.rxLength then do
        resetIfTooBig b.rxLength
        dm9000ReceivePacket fuel
      else pure none : Driver (Option RxPbuf)).run board
        (b.afterHeader.advance ((b.rxLength.toNat + 1) / 2)) := by
  have hlen : b.rxLength.toNat = 2 * (b.rxLength.toNat / 2) := by omega
  have hwords : (b.rxLength.toNat + 1) / 2 = b.rxLength.toNat / 2 := by omega
  have hdrain := run_drain_even (b := b.afterHeader) rfl hfuel
  rw [← hlen] at hdrain
  rw [run_receive_ready hready hpool, hdrain, hwords, Option.bind_some]

/-- A frame of 65 bytes, and no pbuf. -/
def oddBoard : Board where
  index := 0
  regs := fun _ => 0
  tx := []
  sent := []
  rxReady := fun _ => 1
  rxWord := fun pos => if pos = 0 then 0x0001 else if pos = 1 then 65 else 0x2211
  rxPtr := 0
  granted := fun _ => false
  allocs := 0
  freed := []

theorem odd_frame_stops : ¬ DrainsLikeCopy oddBoard ∧
    ∀ fuel, (dm9000ReceivePacket fuel).run board oddBoard = none := by
  refine ⟨fun h => ?_, receive_never_returns rfl rfl rfl⟩
  obtain ⟨fuel, b', hrun, -⟩ := h.drained
  rw [run_receiveFrame, if_neg Bool.false_ne_true, run_fillPbuf_none,
    run_drain_odd fuel (by decide)] at hrun
  cases hrun

end EnvirMonitor.Ethernet
