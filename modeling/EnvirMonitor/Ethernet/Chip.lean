import EnvirMonitor.Ethernet.Transmit

/-! The DM9000 as the driver sees it: an index register, a register file, a transmit memory
and a receive memory. The pbuf pool stands beside it. -/

namespace EnvirMonitor.Ethernet
open Machine Prog

/-- `rxReady n` is what `MRCMDX` shows and `rxWord n` what `MRCMD` reads at position `n` of
the receive memory. The `n`-th allocation succeeds when `granted n`. -/
structure Board where
  index : U16
  regs : U16 → U16
  tx : List U16
  sent : List (List U8)
  rxReady : ℕ → U16
  rxWord : ℕ → U16
  rxPtr : ℕ
  granted : ℕ → Bool
  allocs : ℕ
  freed : List ℕ

namespace Board

/-- The packet goes out from the start of the transmit memory, `TXPL` bytes long. -/
def transmit (b : Board) (data : U16) : Board :=
  let txpl := ofBytes (lowByte (b.regs Reg.TXPLL)) (lowByte (b.regs Reg.TXPLH))
  { b with
    sent := b.sent ++ [(unpack b.tx).take txpl.toNat]
    tx := []
    regs := Function.update (Function.update b.regs Reg.TCR (data &&& ~~~(0x01 : U16)))
      Reg.ISR (b.regs Reg.ISR ||| 0x02) }

/-- A write to `DATA`. Bits of `ISR` are cleared by writing 1; `TCR` bit 0 clears itself. -/
def write (b : Board) (data : U16) : Board :=
  if b.index = Reg.MWCMD then { b with tx := b.tx ++ [data] }
  else if b.index = Reg.ISR then
    { b with regs := Function.update b.regs Reg.ISR (b.regs Reg.ISR &&& ~~~data) }
  else if b.index = Reg.TCR ∧ data &&& 0x01 ≠ 0 then b.transmit data
  else { b with regs := Function.update b.regs b.index data }

def read (b : Board) : U16 :=
  if b.index = Reg.MRCMDX then b.rxReady b.rxPtr
  else if b.index = Reg.MRCMD then b.rxWord b.rxPtr
  else b.regs b.index

def afterRead (b : Board) : Board :=
  if b.index = Reg.MRCMD then { b with rxPtr := b.rxPtr + 1 } else b

end Board

def board : Device Access Access.Reply Board
  | .setReg reg, b => ((), { b with index := reg })
  | .getReg, b => (b.index, b)
  | .putData data, b => ((), b.write data)
  | .getData, b => (b.read, b.afterRead)
  | .pbufAlloc _, b =>
    (if b.granted b.allocs then some b.allocs else none, { b with allocs := b.allocs + 1 })
  | .pbufFree p, b => ((), { b with freed := b.freed ++ [p] })

@[simp] theorem board_setReg (reg : U16) (b : Board) :
    (board (.setReg reg) b).2 = { b with index := reg } := rfl

@[simp] theorem board_putData (data : U16) (b : Board) : (board (.putData data) b).2 = b.write data :=
  rfl

/-! ## One send on the chip -/

def sentRegs (imr : U8) (p : PbufChain) (regs : U16 → U16) (reg : U16) : U16 :=
  if reg = Reg.IMR then imr.setWidth 16
  else if reg = Reg.TXPLL then p.totLen &&& 0xFF
  else if reg = Reg.TXPLH then p.totLen >>> 8 &&& 0xFF
  else if reg = Reg.TCR then 0
  else if reg = Reg.ISR then regs Reg.ISR &&& ~~~(0x02 : U16)
  else regs reg

def Board.afterSend (imr : U8) (p : PbufChain) (b : Board) : Board :=
  { b with
    index := Reg.IMR
    regs := sentRegs imr p b.regs
    tx := []
    sent := b.sent ++ [(unpack (b.tx ++ p.words)).take p.totLen.toNat] }

theorem afterSend_sent (imr : U8) (p : PbufChain) {b : Board} (h : b.tx = []) :
    (b.afterSend imr p).sent = b.sent ++ [p.bytes] := by
  rw [Board.afterSend, h, List.nil_append, ← p.length_bytes, PbufChain.words, unpack_pack]

theorem after_words (words : List U16) {b : Board} (h : b.index = Reg.MWCMD) :
    after board (words.map .putData) b = { b with tx := b.tx ++ words } := by
  induction words generalizing b with
  | nil => rw [List.append_nil]; rfl
  | cons w words ih =>
    have hw : b.write w = { b with tx := b.tx ++ [w] } := if_pos h
    have hrest := ih (b := { b with tx := b.tx ++ [w] }) h
    rw [List.map_cons, after_cons, board_putData, hw, hrest, List.append_assoc]
    rfl

def requestedRegs (p : PbufChain) (regs : U16 → U16) (reg : U16) : U16 :=
  if reg = Reg.TXPLL then p.totLen &&& 0xFF
  else if reg = Reg.TXPLH then p.totLen >>> 8 &&& 0xFF
  else if reg = Reg.TCR then 0
  else if reg = Reg.ISR then regs Reg.ISR ||| 0x02
  else regs reg

theorem after_request_drop_two (p : PbufChain) (b : Board) :
    after board ((request p).drop 2) b =
      { b with
        index := Reg.TCR
        regs := requestedRegs p b.regs
        tx := []
        sent := b.sent ++ [(unpack (b.tx ++ p.words)).take p.totLen.toNat] } := by
  have hreq : (request p).drop 2 =
      .setReg Reg.MWCMD :: (p.words.map .putData ++ setLength p) ++ startTx := rfl
  have hlen := ofBytes_totLen p
  rw [hreq, after_append, after_cons, board_setReg, after_append, after_words _ rfl]
  simp only [setLength, startTx, after_cons, after_nil, board_setReg, board_putData]
  simp [Board.write, Board.transmit] at hlen ⊢
  refine ⟨funext fun reg => ?_, ?_⟩
  · simp only [Function.update_apply, requestedRegs]
    split_ifs <;> simp_all
  · rw [hlen]

theorem after_finish (imr : U8) (b : Board) :
    after board (finish imr) b = { b with
      index := Reg.IMR
      regs := Function.update (Function.update b.regs Reg.ISR (b.regs Reg.ISR &&& ~~~(0x02 : U16)))
        Reg.IMR (imr.setWidth 16) } := by
  simp [finish, Board.write]

theorem run_waitSent_board (fuel : ℕ) (b : Board) :
    (waitSent (fuel + 1)).run board b =
      (if b.regs Reg.ISR &&& 0x02 = 0 then waitSent fuel else pure ()).run board
        { b with index := Reg.ISR } := rfl

/-- Nothing but a transmission sets bit 1, so the loop does not end once the bit is cleared. -/
theorem run_waitSent_clear (fuel : ℕ) {b : Board} (h : b.regs Reg.ISR &&& 0x02 = 0) :
    (waitSent fuel).run board b = none := by
  induction fuel generalizing b with
  | zero => rfl
  | succ fuel ih =>
    rw [run_waitSent_board, if_pos h]
    exact ih h

theorem run_waitSent_set (fuel : ℕ) {b : Board} (h : b.regs Reg.ISR &&& 0x02 ≠ 0) :
    (waitSent (fuel + 1)).run board b = some ((), { b with index := Reg.ISR }) := by
  rw [run_waitSent_board, if_neg h, run_pure]

theorem requestedRegs_isr (p : PbufChain) (regs : U16 → U16) :
    requestedRegs p regs Reg.ISR &&& 0x02 ≠ 0 := by
  have h : requestedRegs p regs Reg.ISR = regs Reg.ISR ||| 0x02 := rfl
  rw [h]
  intro hc
  have := congrArg (fun w : U16 => w.getLsbD 1) hc
  simp at this

theorem sentRegs_isr (imr : U8) (p : PbufChain) (regs : U16 → U16) :
    sentRegs imr p regs Reg.ISR &&& 0x02 = 0 := by
  have h : sentRegs imr p regs Reg.ISR = regs Reg.ISR &&& ~~~(0x02 : U16) := rfl
  rw [h, BitVec.and_assoc]
  exact BitVec.and_zero

theorem or_and_not (x mask : U16) : (x ||| mask) &&& ~~~mask = x &&& ~~~mask := by
  ext i h
  simp only [BitVec.getElem_and, BitVec.getElem_or, BitVec.getElem_not]
  cases x[i] <;> cases mask[i] <;> rfl

theorem after_request_finish (imr : U8) (p : PbufChain) (b : Board) :
    after board (finish imr) { after board ((request p).drop 2) b with index := Reg.ISR } =
      b.afterSend imr p := by
  have hisr : requestedRegs p b.regs Reg.ISR &&& ~~~(0x02 : U16) =
      b.regs Reg.ISR &&& ~~~(0x02 : U16) := or_and_not ..
  rw [after_finish, after_request_drop_two, Board.afterSend]
  simp only [hisr]
  congr 1
  funext reg
  simp only [Function.update_apply, sentRegs, requestedRegs]
  split_ifs <;> simp_all

theorem run_send_drop_two (imr : U8) (fuel : ℕ) (p : PbufChain) (b : Board) :
    (performAll ((request p).drop 2) >>= fun _ => waitSent (fuel + 1) >>= fun _ =>
      performAll (finish imr)).run board b = some ((), b.afterSend imr p) := by
  rw [run_performAll_bind, run_bind, run_waitSent_set, Option.bind_some, run_performAll,
    after_request_finish]
  rw [after_request_drop_two]
  exact requestedRegs_isr p b.regs

theorem afterSend_maskImr (imr : U8) (p : PbufChain) (b : Board) (mask index : U16) :
    Board.afterSend imr p { b with index := index, regs := Function.update b.regs Reg.IMR mask } =
      b.afterSend imr p := by
  simp only [Board.afterSend]
  congr 1
  funext reg
  simp only [sentRegs, Function.update_apply]
  split_ifs <;> simp_all

theorem run_send (imr : U8) (fuel : ℕ) (p : PbufChain) (b : Board) :
    (dm9000SendPacket imr (fuel + 1) p).run board b = some ((), b.afterSend imr p) := by
  have hreq : request p = (request p).take 2 ++ (request p).drop 2 :=
    (List.take_append_drop 2 _).symm
  rw [dm9000SendPacket_eq, hreq, performAll_append, bind_assoc, run_performAll_bind,
    run_send_drop_two]
  exact congrArg (fun c => some ((), c)) (afterSend_maskImr imr p b _ _)

end EnvirMonitor.Ethernet
