import EnvirMonitor.Client.TcpClient
import EnvirMonitor.Machine.GuardedRuns

/-! The whole client as a step function: the keys, the timer interrupt, what lwIP delivers, and
one pass of the main loop. -/

namespace EnvirMonitor.Client
open Machine

/-! ## Deliveries of lwIP -/

def tcpRecvNull (w : World) (id : ℕ) (p : Option Chain) (err fin : Err) : World × Err :=
  match p with
  | some p => (tcpRecved w id (totLen p), .ok)
  | none => if err = .ok then tcpClose w id fin else (w, .ok)

def eventRecv (w : World) (id : ℕ) (p : Chain) (err : Err) : World × Err :=
  match (w.pcbs id).recv with
  | .tcpRecvClient => tcpRecvClient w (w.pcbs id).callbackArg id (some p) err
  | _ => tcpRecvNull w id (some p) err .ok

def eventClosed (w : World) (id : ℕ) (fin : Err) : World :=
  match (w.pcbs id).recv with
  | .tcpRecvClient => (tcpRecvClient w (w.pcbs id).callbackArg id none .ok).1
  | .tcpRecvNull => (tcpRecvNull w id none .ok fin).1
  | .null => w

def inputSynAck (w : World) (id : ℕ) (memOk : Bool) : World :=
  let w := w.setPcb id { w.pcbs id with state := .established }
  tcpConnectClient w id .ok memOk .ok

/-- New data, or data the client has refused before. lwIP itself passes `ERR_OK` only. -/
def inputData (w : World) (id : ℕ) (p : Chain) (err : Err) : World :=
  let pcb := w.pcbs id
  let w := w.setPcb id (if pcb.refused then { pcb with refused := false }
    else { pcb with rcvWnd := pcb.rcvWnd - totLen p })
  if pcb.refused = false ∧ pcb.rxClosed = true then tcpAbort w id
  else
    let (w, ret) := eventRecv w id p err
    if ret = .ok ∨ ret = .abrt then w else w.setPcb id { w.pcbs id with refused := true }

/-- The FIN takes one byte of the window, which is given back before the callback. -/
def inputFin (w : World) (id : ℕ) (fin : Err) : World :=
  let pcb := w.pcbs id
  let wnd := pcb.rcvWnd - 1
  let w := w.setPcb id
    { pcb with state := .closeWait, rcvWnd := if wnd ≠ tcpWnd then wnd + 1 else wnd }
  eventClosed w id fin

/-! ## The keys, the timer and the main loop -/

inductive ConnectOutcome
  | noPcb | notConnected | connected
  deriving DecidableEq

def World.newPcb (w : World) (p : Pcb) : World :=
  { w with
    pcbs := Function.update w.pcbs w.nextPcb p
    live := Function.update w.live w.nextPcb true
    nextPcb := w.nextPcb + 1
    clientPcb := some w.nextPcb }

/-- Without a block, `ASSERT_ERROR` loops for ever inside the interrupt. -/
def tcpEchoclientInit (w : World) : ConnectOutcome → World
  | .noPcb => { w with clientPcb := none, mode := .stopped }
  | .notConnected => w.newPcb Pcb.fresh
  | .connected => w.newPcb { Pcb.fresh with state := .synSent }

def exti0IRQHandler (w : World) (o : ConnectOutcome) : World :=
  if w.clientPcb = none then tcpEchoclientInit w o else w

/-- KEY1. -/
def exti3IRQHandler (w : World) : World :=
  { w with tcpClientFlag := clearFlag w.tcpClientFlag startFlag }

def tim2IRQHandler (w : World) : World :=
  let w := { w with timecnt := w.timecnt + 1 }
  if w.timecnt % 10 = 0 then
    { w with tcpClientFlag := setFlag w.tcpClientFlag senddataFlag, timecnt := 0 }
  else w

def flagBit (f : U8) (n : ℕ) : U8 := (f >>> n) &&& 1

def oledShowInterfaceData (w : World) (index : U8) : World :=
  let start := flagBit w.tcpClientFlag startFlag
  let connect := flagBit w.tcpClientFlag connectFlag
  let w := if w.preindex ≠ index ∨ w.prestart ≠ start then
      { w with preindex := index, prestart := start, prestatus := 0xFF }
    else w
  if index = 1 ∧ w.prestatus ≠ connect then
    let w := { w with prestatus := connect }
    -- the other branch shows a fixed text
    if hasFlag w.tcpClientFlag connectFlag then w.emit (.mainUse w.clientPcb) else w
  else w

/-- A failed `mem_malloc` stops the main loop, a failed `pbuf_alloc` is written through. -/
def sendEnvirPacketData (w : World) (memOk pbufOk fits : Bool) (wr : Err) : World :=
  if memOk then
    if pbufOk then
      let w := w.emit (.mainUse w.clientPcb)
      let w := w.clientPcb.elim w fun id => w.setPcb id { w.pcbs id with sent := true }
      (tcpClientSenddata w (.mainUse w.clientPcb) fits wr).1
    else { w with mode := .stopped }
  else { w with mode := .mainStopped }

/-- `strcmp(tcp_client_revdata, "start") == 0` -/
def isStart (revdata : List U8) : Bool :=
  revdata.takeWhile (· ≠ 0) = [0x73, 0x74, 0x61, 0x72, 0x74]

def receiveCommand (w : World) : World :=
  if hasFlag w.tcpClientFlag revcdataFlag then
    let w := if isStart w.tcpClientRevdata then
        { w with tcpClientFlag := setFlag w.tcpClientFlag startFlag }
      else w
    { w with tcpClientFlag := clearFlag w.tcpClientFlag revcdataFlag }
  else w

def mainPass (w : World) (index : U8) (memOk pbufOk fits : Bool) (wr : Err) : World :=
  let w := oledShowInterfaceData w index
  if hasFlag w.tcpClientFlag senddataFlag ∧ hasFlag w.tcpClientFlag startFlag then
    let w := sendEnvirPacketData w memOk pbufOk fits wr
    if w.mode = .running then
      receiveCommand { w with tcpClientFlag := clearFlag w.tcpClientFlag senddataFlag }
    else w
  else receiveCommand w

/-! ## Steps -/

inductive Step
  | wkUp (o : ConnectOutcome)
  | synAck (id : ℕ) (memOk : Bool)
  | data (id : ℕ) (p : Chain) (err : Err)
  | fin (id : ℕ) (fin : Err)
  | acked (id : ℕ) (fits : Bool) (wr : Err)
  | poll (id : ℕ) (fin : Err)
  | rst (id : ℕ)
  | timeout (id : ℕ)
  | tim2
  | key1
  | mainPass (index : U8) (memOk pbufOk fits : Bool) (wr : Err)

def Pcb.connected (p : Pcb) : Prop := p.state = .established ∨ p.state = .closeWait

def Pcb.active (p : Pcb) : Prop := p.state ≠ .closed ∧ p.state ≠ .listen ∧ p.state ≠ .timeWait

instance (p : Pcb) : Decidable p.connected := inferInstanceAs (Decidable (_ ∨ _))
instance (p : Pcb) : Decidable p.active := inferInstanceAs (Decidable (_ ∧ _))

/-- lwIP runs inside the main loop, on blocks it has not freed. -/
def World.serves (w : World) (id : ℕ) : Prop := w.mode = .running ∧ w.live id = true

instance (w : World) (id : ℕ) : Decidable (w.serves id) := inferInstanceAs (Decidable (_ ∧ _))

def enabled (w : World) : Step → Prop
  | .wkUp _ | .tim2 | .key1 => w.mode ≠ .stopped
  | .mainPass .. => w.mode = .running
  | .synAck id _ => w.serves id ∧ (w.pcbs id).state = .synSent
  | .data id p _ => w.serves id ∧ (w.pcbs id).connected ∧
      ((w.pcbs id).refused = true ∨ totLen p ≤ (w.pcbs id).rcvWnd)
  | .fin id _ => w.serves id ∧ (w.pcbs id).connected ∧ (w.pcbs id).refused = false ∧
      0 < (w.pcbs id).rcvWnd
  | .acked id .. => w.serves id ∧ (w.pcbs id).connected ∧ (w.pcbs id).sent = true
  | .poll id _ => w.serves id ∧ (w.pcbs id).active ∧ (w.pcbs id).poll = true
  | .rst id | .timeout id => w.serves id ∧ (w.pcbs id).active

instance (w : World) : (s : Step) → Decidable (enabled w s)
  | .wkUp _ | .tim2 | .key1 => inferInstanceAs (Decidable (_ ≠ _))
  | .mainPass .. => inferInstanceAs (Decidable (_ = _))
  | .synAck .. | .rst _ | .timeout _ => inferInstanceAs (Decidable (_ ∧ _))
  | .data .. | .acked .. | .poll .. => inferInstanceAs (Decidable (_ ∧ _ ∧ _))
  | .fin .. => inferInstanceAs (Decidable (_ ∧ _ ∧ _ ∧ _))

def react (w : World) : Step → World
  | .wkUp o => exti0IRQHandler w o
  | .synAck id memOk => inputSynAck w id memOk
  | .data id p err => inputData w id p err
  | .fin id fin => inputFin w id fin
  | .acked id fits wr => tcpSentClient w (w.pcbs id).callbackArg id fits wr
  | .poll id fin => (tcpPollClient w (w.pcbs id).callbackArg id fin).1
  | .rst id => inputReset w id
  | .timeout id => slowtmrRemove w id
  | .tim2 => tim2IRQHandler w
  | .key1 => exti3IRQHandler w
  | .mainPass index memOk pbufOk fits wr => mainPass w index memOk pbufOk fits wr

def step (w : World) (s : Step) : Option World := if enabled w s then some (react w s) else none

theorem step_eq_some {w w' : World} {s : Step} (h : step w s = some w') :
    enabled w s ∧ w' = react w s := by
  unfold step at h
  split at h
  · exact ⟨‹_›, (Option.some.inj h).symm⟩
  · exact absurd h (by simp)

theorem exec_react {w w' : World} {s : Step} {run : List Step}
    (h : exec step w (s :: run) = some w') : enabled w s ∧ exec step (react w s) run = some w' := by
  obtain ⟨w₁, hs, hrest⟩ := exec_cons h
  obtain ⟨hen, rfl⟩ := step_eq_some hs
  exact ⟨hen, hrest⟩

end EnvirMonitor.Client
