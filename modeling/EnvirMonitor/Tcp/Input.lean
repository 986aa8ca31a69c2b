import EnvirMonitor.Tcp.Receive

/-! `tcp_input` with the callbacks of the application, the calls the application makes from them
or at any other time, and the two timers. -/

namespace EnvirMonitor.Tcp
open Machine
open Client (TcpState tcpMss tcpWnd)

/-- `accepted` is data that `tcp_write` took, `received` data that the application took from
`recv`, and `eof` is `TCP_EVENT_CLOSED`. -/
inductive TcpEvent
  | sent (w : Segment)
  | accepted (data : List U8)
  | received (data : List U8)
  | eof
  | error
  deriving DecidableEq

/-- One end of a connection with `tcp_ticks`, whether it is `tcp_input_pcb`, and the events so far. -/
structure Endpoint where
  pcb : Pcb
  ticks : U32
  input : Bool
  log : List TcpEvent

/-- A call of the application. The Booleans tell whether the allocations for a FIN segment and
for an empty acknowledgement succeed. -/
inductive AppCall
  | write (data : List U8) (more : Bool) (alloc : ℕ → Bool)
  | recved (len : ℕ) (alloc : Bool)
  | output (alloc : Bool)
  | close (fin alloc : Bool)
  | abort (alloc : Bool)

namespace Endpoint

def dead (t : Endpoint) : Prop := t.pcb.state = .closed

instance (t : Endpoint) : Decidable t.dead := inferInstanceAs (Decidable (_ = _))

def emit (t : Endpoint) (ev : TcpEvent) : Endpoint := { t with log := t.log ++ [ev] }

def sends (t : Endpoint) (r : Pcb × List Segment) : Endpoint :=
  { t with pcb := r.1, log := t.log ++ r.2.map .sent }

/-- `tcp_output`, which returns at once inside of `tcp_input`. -/
def outputPcb (t : Endpoint) (alloc : Bool) (pcb : Pcb) : Pcb × List Segment :=
  if t.input then (pcb, []) else pcb.tcpOutput t.ticks alloc

def tcpOutput (t : Endpoint) (alloc : Bool) : Endpoint := t.sends (t.outputPcb alloc t.pcb)

def tcpWrite (t : Endpoint) (data : List U8) (more : Bool) (alloc : ℕ → Bool) : Endpoint :=
  match t.pcb.tcpWrite data more alloc with
  | (pcb, .ok) => ({ t with pcb := pcb } : Endpoint).emit (.accepted data)
  | (pcb, _) => { t with pcb := pcb }

def tcpRecved (t : Endpoint) (len : ℕ) (alloc : Bool) : Endpoint :=
  let (pcb, wndInflation) := ({ t.pcb with
    rcvWnd := min (u16 (t.pcb.rcvWnd + len)) tcpWnd } : Pcb).tcpUpdateRcvAnnWnd
  -- `wnd_inflation` is an `int`
  if (tcpWnd / 4 : ℕ) ≤ (BitVec.ofNat 32 wndInflation).toInt then
    ({ t with pcb := pcb.tcpAckNow } : Endpoint).tcpOutput alloc
  else { t with pcb := pcb }

def tcpClose (t : Endpoint) (fin alloc : Bool) : Endpoint :=
  let (pcb, ws, _) := t.pcb.tcpClose fin (t.outputPcb alloc)
  t.sends (pcb, ws)

/-- `tcp_abort`. In TIME_WAIT nobody is told. -/
def tcpAbort (t : Endpoint) (alloc : Bool) : Endpoint :=
  let t' := t.sends (t.pcb.tcpAbort (t.outputPcb alloc))
  if t.pcb.state = .timeWait then t' else t'.emit .error

def call (t : Endpoint) (c : AppCall) : Endpoint :=
  if t.dead then t
  else
    match c with
    | .write data more alloc => t.tcpWrite data more alloc
    | .recved len alloc => t.tcpRecved len alloc
    | .output alloc => t.tcpOutput alloc
    | .close fin alloc => t.tcpClose fin alloc
    | .abort alloc => t.tcpAbort alloc

def calls (t : Endpoint) (cs : List AppCall) : Endpoint := cs.foldl call t

/-! ## Callbacks -/

/-- What the application does in its callbacks during one `tcp_input` or `tcp_fasttmr`: the calls
it makes, and whether `recv` takes the data (returns `ERR_OK`). -/
structure Script where
  refused : List AppCall
  refusedTaken : Bool
  refusedClosed : List AppCall
  sent : List AppCall
  recv : List AppCall
  taken : Bool
  closed : List AppCall

/-- The FIN does not count in the window that the application has to open again. -/
def creditFin (t : Endpoint) : Endpoint :=
  { t with pcb := { t.pcb with
    rcvWnd := if t.pcb.rcvWnd ≠ tcpWnd then t.pcb.rcvWnd + 1 else t.pcb.rcvWnd } }

def eventClosed (t : Endpoint) (cs : List AppCall) : Endpoint := (t.creditFin.emit .eof).calls cs

/-- `TCP_EVENT_RECV` with data, which is refused again or for the first time. -/
def eventRecv (t : Endpoint) (data : List U8) (fin : Bool) (cs : List AppCall) (taken : Bool) :
    Endpoint :=
  if taken then (t.emit (.received data)).calls cs
  else
    let t := t.calls cs
    if t.dead then t else { t with pcb := { t.pcb with refusedData := some (data, fin) } }

def tcpProcessRefusedData (t : Endpoint) (s : Script) : Endpoint :=
  match t.pcb.refusedData with
  | none => t
  | some (data, fin) =>
    let t := ({ t with pcb := { t.pcb with refusedData := none } } : Endpoint).eventRecv data fin
      s.refused s.refusedTaken
    if ¬t.dead ∧ s.refusedTaken ∧ fin then t.eventClosed s.refusedClosed else t

/-! ## `tcp_input` -/

def tcpTimewaitInput (t : Endpoint) (w : Segment) (alloc : Bool) : Endpoint :=
  if w.rst then t
  else if w.syn ∧ tcpSeqBetween w.seqno t.pcb.rcvNxt
      (t.pcb.rcvNxt + BitVec.ofNat 32 t.pcb.rcvWnd) then
    t.emit (.sent ⟨w.ackno, w.seqno + BitVec.ofNat 32 w.tcplen, tcpWnd, false, false, true, false,
      true, []⟩)
  else if 0 < w.tcplen then
    ({ t with pcb := { t.pcb with tfAckNow := true } } : Endpoint).tcpOutput alloc
  else t

/-- The connection is removed, and its `errf` called where `notify` says so. -/
def remove (t : Endpoint) (alloc notify : Bool) : Endpoint :=
  let t := if notify then t.emit .error else t
  t.sends (t.pcb.tcpPcbRemove (t.outputPcb alloc))

def deliver (t : Endpoint) (data : List U8) (s : Script) (alloc : Bool) : Endpoint :=
  if t.pcb.tfRxclosed then t.tcpAbort alloc
  else t.eventRecv data false s.recv s.taken

def deliverFin (t : Endpoint) (s : Script) : Endpoint :=
  match t.pcb.refusedData with
  | some (data, _) => { t with pcb := { t.pcb with refusedData := some (data, true) } }
  | none => t.eventClosed s.closed

def deliverData (t : Endpoint) (recvData : Option (List U8)) (s : Script) (alloc : Bool) : Endpoint :=
  match recvData with
  | some data => if t.dead then t else t.deliver data s alloc
  | none => t

/-- The callbacks of `tcp_input` after `tcp_process`, each skipped once the connection is gone. -/
def callbacks (t : Endpoint) (r : Pcb.Processed) (s : Script) (alloc : Bool) : Endpoint :=
  let t := if 0 < t.pcb.acked then t.calls s.sent else t
  let t := t.deliverData r.recvData s alloc
  if t.dead ∨ ¬r.gotFin then t else t.deliverFin s

/-- `tcp_input` from `tcp_process` on. -/
def inputActive (t : Endpoint) (w : Segment) (s : Script) (alloc : Bool) : Endpoint :=
  let r := t.pcb.tcpProcess t.ticks w alloc
  let t := ({ t with input := true } : Endpoint).sends (r.pcb, r.out)
  if r.tfReset then { t.remove alloc true with input := false }
  else if r.tfClosed then { t.remove alloc (¬t.pcb.tfRxclosed) with input := false }
  else
    let t := { t.callbacks r s alloc with input := false }
    if t.dead then t else t.tcpOutput alloc

/-- `tcp_input` for a segment between the two ports of the connection. -/
def tcpInput (t : Endpoint) (w : Segment) (s : Script) (alloc : Bool) : Endpoint :=
  if t.dead then
    if w.rst then t
    else t.emit (.sent ⟨w.ackno, w.seqno + BitVec.ofNat 32 w.tcplen, tcpWnd, false, false, true,
      false, true, []⟩)
  else if t.pcb.state = .timeWait then t.tcpTimewaitInput w alloc
  else
    let t := t.tcpProcessRefusedData s
    if t.dead ∨ t.pcb.refusedData ≠ none ∧ 0 < w.tcplen then t else t.inputActive w s alloc

/-! ## The timers -/

/-- `tcp_slowtmr` for the connection, after `tcp_ticks` was counted. `late` tells that it has stayed
too long in its state; the application's `poll` and the `tcp_output` after it are calls of their
own. -/
def slowtmrPcb (t : Endpoint) (late : Bool) (past : ℕ) (alloc : Bool) : Endpoint :=
  if t.dead then t
  else if t.pcb.state = .timeWait then
    if late then { t with pcb := { t.pcb.purge with state := .closed } } else t
  else
    let t' := if t.pcb.nrtx = tcpMaxrtx then t else t.sends (t.pcb.slowRetransmit t.ticks past alloc)
    if t.pcb.nrtx = tcpMaxrtx ∨ late ∧ (t.pcb.state = .finWait2 ∨ t.pcb.state = .lastAck) then
      ({ t' with pcb := { t'.pcb.purge with state := .closed } } : Endpoint).emit .error
    else t'

def tcpSlowtmr (t : Endpoint) (late : Bool) (past : ℕ) (alloc : Bool) : Endpoint :=
  ({ t with ticks := t.ticks + 1 } : Endpoint).slowtmrPcb late past alloc

def tcpFasttmr (t : Endpoint) (s : Script) (alloc : Bool) : Endpoint :=
  if t.dead ∨ t.pcb.state = .timeWait then t
  else
    let t := if t.pcb.tfAckDelay then
        let t := ({ t with pcb := t.pcb.tcpAckNow } : Endpoint).tcpOutput alloc
        { t with pcb := { t.pcb with tfAckDelay := false, tfAckNow := false } }
      else t
    t.tcpProcessRefusedData s

end Endpoint
end EnvirMonitor.Tcp
