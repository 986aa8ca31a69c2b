import EnvirMonitor.Server.TcpServer

/-! All connections of the server at once: the control blocks lwIP has handed to it, the records
allocated for them, and the callbacks, each of which works on one block and its record. -/

namespace EnvirMonitor.Server.Connections
open Machine Lwip
open Client (TcpState Err tcpWnd hasFlag setFlag clearFlag)

/-! ## One control block -/

/-- `pcb->recv`: unset, the default of `tcp_alloc`, or the server's callback. -/
inductive RecvFn
  | null | tcpRecvNull | tcpRecvServer
  deriving DecidableEq

/-- `sent`, `errf` and `poll` are whether the server's callback is installed, `refused` and
`rxClosed` are `refused_data != NULL` and `TF_RXCLOSED`. -/
structure Pcb where
  state : TcpState
  callbackArg : Option ℕ
  recv : RecvFn
  sent : Bool
  errf : Bool
  poll : Bool
  rcvWnd : ℕ
  refused : Bool
  rxClosed : Bool
  deriving DecidableEq

namespace Pcb

def handshaken : Pcb :=
  ⟨.established, none, .tcpRecvNull, false, false, false, tcpWnd, false, false⟩

/-- `tcp_pcb_purge` -/
def purge (p : Pcb) : Pcb := { p with refused := false }

def tcpRecved (p : Pcb) (len : ℕ) : Pcb :=
  { p with rcvWnd := min ((p.rcvWnd + len) % 2 ^ 16) tcpWnd }

/-- The block after the `tcp_recved` calls of a callback's log, which is newest first. -/
def settle (p : Pcb) : List Event → Pcb
  | [] => p
  | .tcpRecved len :: log => (p.settle log).tcpRecved len
  | _ :: log => p.settle log

/-- The first component is what is left of the block; `fin` is what `tcp_send_fin` returns. -/
def tcpCloseShutdown (p : Pcb) (rstOnUnackedData : Bool) (fin : Err) : Option Pcb × Err :=
  if rstOnUnackedData ∧ (p.state = .established ∨ p.state = .closeWait) ∧
      (p.refused ∨ p.rcvWnd ≠ tcpWnd) then
    if p.state = .established then (some { p.purge with state := .timeWait }, .ok) else (none, .ok)
  else
    match p.state with
    | .closed | .listen | .synSent => (none, .ok)
    | .synRcvd | .established =>
      if fin = .ok then (some { p with state := .finWait1 }, fin) else (some p, fin)
    | .closeWait => if fin = .ok then (some { p with state := .lastAck }, fin) else (some p, fin)
    | _ => (some p, .ok)

def tcpClose (p : Pcb) (fin : Err) : Option Pcb × Err :=
  (if p.state ≠ .listen then { p with rxClosed := true } else p).tcpCloseShutdown true fin

/-- What `tcp_process` makes of an acceptable FIN; `acked` is whether the segment also
acknowledges ours. -/
def finReceived (p : Pcb) (acked : Bool) : Pcb :=
  match p.state with
  | .established => { p with state := .closeWait }
  | .finWait1 =>
    if acked then { p.purge with state := .timeWait } else { p with state := .closing }
  | .finWait2 => { p.purge with state := .timeWait }
  | _ => p

/-- The FIN takes one byte of the window, which is given back before the callback. -/
def finCounted (p : Pcb) : Pcb :=
  let wnd := p.rcvWnd - 1
  { p with rcvWnd := if wnd ≠ tcpWnd then wnd + 1 else wnd }

/-- Neither side of the connection is closed by us: lwIP frees such a block only if the peer, a
retransmission limit or a new connection makes it. -/
def IsOpen (p : Pcb) : Prop :=
  p.state = .synRcvd ∨ p.state = .established ∨ p.state = .closeWait

instance (p : Pcb) : Decidable p.IsOpen := inferInstanceAs (Decidable (_ ∨ _))

def Unread (p : Pcb) : Prop :=
  (p.state = .established ∨ p.state = .closeWait) ∧ (p.refused = true ∨ p.rcvWnd ≠ tcpWnd)

instance (p : Pcb) : Decidable p.Unread := inferInstanceAs (Decidable (_ ∧ _))

def Refuses (p : Pcb) (fin : Err) : Prop := p.IsOpen ∧ ¬ p.Unread ∧ fin ≠ .ok

instance (p : Pcb) (fin : Err) : Decidable (p.Refuses fin) := inferInstanceAs (Decidable (_ ∧ _))

end Pcb

/-! ## The system -/

/-- A block is in the table from the moment it is handed to the server until lwIP frees it; `es`
are the records that are allocated. -/
structure System where
  pcbs : ℕ → Option Pcb
  es : ℕ → Option ServerData
  heap : Heap
  tcpServerFlag : U8
  tcpServerRevdata : List U8
  running : Bool

namespace System
variable (s : System) (id : ℕ)

def setPcb (p : Option Pcb) : System := { s with pcbs := Function.update s.pcbs id p }

/-- A write to a block, without effect on one that lwIP has freed. -/
def configure (f : Pcb → Pcb) : System := s.setPcb id ((s.pcbs id).map f)

def memFree (e : ℕ) : System := { s with es := Function.update s.es e none }

/-- `while(1)`, or a callback without a record. -/
def halt : System := { s with running := false }

def world (d : ServerData) : World :=
  ⟨s.heap, d, s.tcpServerFlag, s.tcpServerRevdata, .registered, []⟩

def resume (e : ℕ) (w : World) : System where
  pcbs := Function.update s.pcbs id ((s.pcbs id).map (·.settle w.log))
  es := Function.update s.es e (some w.es)
  heap := w.heap
  tcpServerFlag := w.tcpServerFlag
  tcpServerRevdata := w.tcpServerRevdata
  running := w.phase = .registered

def onRecord (arg : Option ℕ) (f : World → World) : System :=
  match arg with
  | none => s.halt
  | some e =>
    match s.es e with
    | none => s.halt
    | some d => s.resume id e (f (s.world d))

end System

/-! ## Calls into lwIP -/

section
variable (s : System) (id : ℕ)

def tcpArg (arg : Option ℕ) : System := s.configure id fun p => { p with callbackArg := arg }

def tcpRecv (recv : RecvFn) : System := s.configure id fun p => { p with recv := recv }

def tcpSent (sent : Bool) : System := s.configure id fun p => { p with sent := sent }

def tcpErr (errf : Bool) : System := s.configure id fun p => { p with errf := errf }

def tcpPoll (poll : Bool) : System := s.configure id fun p => { p with poll := poll }

def tcpClose (fin : Err) : System × Err :=
  (s.setPcb id ((s.pcbs id).bind fun p => (p.tcpClose fin).1),
    (s.pcbs id).elim .ok fun p => (p.tcpClose fin).2)

/-- `if(arg!=NULL)mem_free(arg);` -/
def tcpErrServer (arg : Option ℕ) : System := arg.elim s s.memFree

def eventErr (p : Pcb) : System := if p.errf then tcpErrServer s p.callbackArg else s

/-- `tcp_abandon`, and with it what a reset from the peer or `tcp_slowtmr` does to a block. -/
def tcpAbandon : System :=
  match s.pcbs id with
  | none => s
  | some p => if p.state = .timeWait then s.setPcb id none else eventErr (s.setPcb id none) p

end

/-! ## The callbacks -/

section
variable (s : System) (id : ℕ)

/-- `es` is what `mem_malloc` returns. -/
def tcpAcceptServer (es : Option ℕ) : System :=
  match es with
  | none => s.halt
  | some e =>
    let s := { s with es := Function.update s.es e (some ⟨.accepted, none⟩) }
    let s := tcpArg s id (some e)
    let s := tcpRecv s id .tcpRecvServer
    let s := tcpSent s id true
    let s := tcpErr s id true
    let s := tcpPoll s id true
    { s with tcpServerFlag := setFlag s.tcpServerFlag connectFlag }

def tcpServerConnectClose (es : Option ℕ) (fin : Err) : System :=
  -- the result of tcp_close is dropped
  let s := (tcpClose s id fin).1
  let s := tcpArg s id none
  let s := tcpSent s id false
  let s := tcpRecv s id .null
  let s := tcpErr s id false
  let s := tcpPoll s id false
  let s := es.elim s s.memFree
  { s with tcpServerFlag := clearFlag s.tcpServerFlag connectFlag }

def tcpPollServer (arg : Option ℕ) (alloc : Bool) (answers : List (ℕ × Err)) (fin : Err) : System :=
  match arg with
  | none => tcpAbandon s id
  | some e =>
    match s.es e with
    | none => s.halt
    | some d =>
      if hasFlag s.tcpServerFlag senddataFlag then
        s.resume id e (Server.tcpPollServer (s.world d) alloc answers)
      else if d.state = .closing then tcpServerConnectClose s id (some e) fin
      else s

end

/-! ## Steps -/

/-- `es` is the record `mem_malloc` finds for a new connection; `fin` is what `tcp_send_fin` returns
where the step calls it. `remove` is a reset, a timeout, or an abort in favour of a new connection,
`request` other code that sets bit 7, `reuse` the use of freed memory by others. -/
inductive Input
  | accept (id : ℕ) (es : Option ℕ)
  | data (id : ℕ) (d : Delivery)
  | fin (id : ℕ) (acked : Bool) (fin : Err)
  | finAcked (id : ℕ)
  | sent (id : ℕ) (answers : List (ℕ × Err))
  | poll (id : ℕ) (alloc : Bool) (answers : List (ℕ × Err)) (fin : Err)
  | remove (id : ℕ)
  | request
  | reuse (i : ℕ) (pbuf : Pbuf)

section
variable (s : System) (id : ℕ)

/-- lwIP delivers with `ERR_OK` only, and then the callback takes all of it. -/
def inputData (d : Delivery) (p : Pcb) : System :=
  let len := segmentsLen d.segments
  let s := s.setPcb id (some { p with rcvWnd := p.rcvWnd - len })
  if p.rxClosed then tcpAbandon s id
  else
    match p.recv with
    | .tcpRecvServer => s.onRecord id p.callbackArg fun w =>
        (tcpRecvServer (deliver w d .ok) (some w.heap.fresh) .ok).1
    | _ => s.configure id (·.tcpRecved len)

def inputFin (acked : Bool) (fin : Err) (p : Pcb) : System :=
  let s := s.setPcb id (some (p.finReceived acked).finCounted)
  match p.recv with
  | .tcpRecvServer => s.onRecord id p.callbackArg fun w => (tcpRecvServer w none .ok).1
  | .tcpRecvNull => (tcpClose s id fin).1
  | .null => s

def inputFinAcked (p : Pcb) : System :=
  match p.state with
  | .finWait1 => s.setPcb id (some { p with state := .finWait2 })
  | .closing => s.setPcb id (some { p.purge with state := .timeWait })
  | .lastAck => if p.rxClosed then s.setPcb id none else tcpAbandon s id
  | _ => s

def eventSent (answers : List (ℕ × Err)) (p : Pcb) : System :=
  if p.sent then s.onRecord id p.callbackArg fun w => tcpSentServer w answers else s

def eventPoll (alloc : Bool) (answers : List (ℕ × Err)) (fin : Err) (p : Pcb) : System :=
  if p.poll then tcpPollServer s id p.callbackArg alloc answers fin else s

end

def react (s : System) : Input → System
  | .accept id es => tcpAcceptServer (s.setPcb id (some .handshaken)) id es
  | .data id d => (s.pcbs id).elim s (inputData s id d)
  | .fin id acked fin => (s.pcbs id).elim s (inputFin s id acked fin)
  | .finAcked id => (s.pcbs id).elim s (inputFinAcked s id)
  | .sent id answers => (s.pcbs id).elim s (eventSent s id answers)
  | .poll id alloc answers fin => (s.pcbs id).elim s (eventPoll s id alloc answers fin)
  | .remove id => tcpAbandon s id
  | .request => { s with tcpServerFlag := setFlag s.tcpServerFlag senddataFlag }
  | .reuse i pbuf => { s with heap := { s.heap with pbufs := Function.update s.heap.pbufs i pbuf } }

def active (s : System) (id : ℕ) : Bool := (s.pcbs id).any fun p => p.state ≠ .timeWait

def enabled (s : System) : Input → Bool
  | .accept id es => (s.pcbs id).isNone && es.all fun e => (s.es e).isNone
  | .data id _ | .fin id _ _ | .finAcked id | .sent id _ | .poll id _ _ _ => active s id
  | .remove id => (s.pcbs id).isSome
  | .request => true
  | .reuse i _ => !s.heap.live i

def step (s : System) (i : Input) : Option System :=
  if s.running && enabled s i then some (react s i) else none

theorem step_eq_some {s s' : System} {i : Input} (h : step s i = some s') :
    enabled s i = true ∧ s' = react s i := by
  unfold step at h
  split at h
  next hrun =>
    rw [Bool.and_eq_true] at hrun
    exact ⟨hrun.2, (Option.some.inj h).symm⟩
  next => cases h

/-- The server is listening, and nobody has connected yet. -/
def start (flag : U8) (revdata : List U8) : System where
  pcbs := fun _ => none
  es := fun _ => none
  heap := (listening flag revdata).heap
  tcpServerFlag := flag
  tcpServerRevdata := revdata
  running := true

end EnvirMonitor.Server.Connections
