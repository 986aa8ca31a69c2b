import EnvirMonitor.Tcp.Pcb

/-! Sending: `tcp_output`, the empty acknowledgement, the timers of retransmission and probing,
and closing. Each function returns the control block and the segments it passes to IP. -/

namespace EnvirMonitor.Tcp
open Machine
open Client (TcpState tcpMss tcpWnd)

namespace Pcb

/-- The right edge moves with what the header announces. -/
def announce (pcb : Pcb) : Pcb :=
  { pcb with rcvAnnRightEdge := pcb.rcvNxt + BitVec.ofNat 32 pcb.rcvAnnWnd }

/-- The segment of `tcp_output_alloc_header` with FIN and data added by its callers. -/
def header (pcb : Pcb) (seqno : U32) (fin : Bool) (data : List U8) : Segment :=
  { seqno, ackno := pcb.rcvNxt, wnd := pcb.rcvAnnWnd, syn := false, fin, rst := false, psh := false,
    ack := true, data }

/-- `alloc` tells whether the buffer is allocated. -/
def tcpSendEmptyAck (pcb : Pcb) (alloc : Bool) : Pcb × List Segment :=
  if ¬alloc then (pcb, [])
  else ({ pcb.announce with tfAckDelay := false, tfAckNow := false },
    [pcb.header pcb.sndNxt false []])

/-- `tcp_rst` with the sequence numbers of the control block. -/
def tcpRst (pcb : Pcb) : Segment :=
  ⟨pcb.sndNxt, pcb.rcvNxt, tcpWnd, false, false, true, false, true, []⟩

def tcpDoOutputNagle (pcb : Pcb) : Bool :=
  pcb.unacked = [] || pcb.tfNodelay || pcb.tfInfr ||
    (match pcb.unsent with
      | [] => false
      | [seg] => pcb.mss ≤ seg.data.length
      | _ => true) ||
    (pcb.sndBuf = 0 || tcpSndQueuelen ≤ pcb.sndQueuelen)

def tcpOutputSegment (pcb : Pcb) (ticks : U32) (seg : TcpSeg) : Pcb × Segment :=
  let pcb := pcb.announce
  let pcb := if pcb.rtime = -1 then { pcb with rtime := 0 } else pcb
  let pcb := if pcb.rttest = 0 then { pcb with rttest := ticks, rtseq := seg.seqno } else pcb
  (pcb, { pcb.header seg.seqno seg.fin seg.data with psh := seg.psh })

/-- The place of a segment that was sent in `unacked`. -/
def queueUnacked (unacked : List TcpSeg) (seg : TcpSeg) : List TcpSeg :=
  match unacked.getLast? with
  | none => [seg]
  | some useg => if tcpSeqLt seg.seqno useg.seqno then insertSeg seg unacked else unacked ++ [seg]

/-- The end of a window of `wnd` bytes is behind the segment. -/
def fitsWindow (pcb : Pcb) (wnd : ℕ) (seg : TcpSeg) : Prop :=
  (seg.seqno - pcb.lastack + BitVec.ofNat 32 seg.data.length).toNat ≤ wnd

instance (pcb : Pcb) (wnd : ℕ) (seg : TcpSeg) : Decidable (pcb.fitsWindow wnd seg) :=
  inferInstanceAs (Decidable (_ ≤ wnd))

def noteSent (pcb : Pcb) (seg : TcpSeg) : Pcb :=
  let sndNxt := seg.seqno + BitVec.ofNat 32 seg.tcplen
  { pcb with
    sndNxt := if tcpSeqLt pcb.sndNxt sndNxt then sndNxt else pcb.sndNxt
    unacked := if 0 < seg.tcplen then queueUnacked pcb.unacked seg else pcb.unacked }

def sendUnsent (pcb : Pcb) (ticks : U32) (seg : TcpSeg) (rest : List TcpSeg) : Pcb × Segment :=
  let res := { pcb with unsent := rest, tfAckDelay := false, tfAckNow := false }.tcpOutputSegment
    ticks seg
  (res.1.noteSent seg, res.2)

def outputLoop (ticks : U32) (wnd : ℕ) : List TcpSeg → Pcb → Pcb × List Segment
  | [], pcb => (pcb, [])
  | seg :: rest, pcb =>
    if pcb.fitsWindow wnd seg ∧ (pcb.tcpDoOutputNagle ∨ pcb.tfNaglememerr ∨ pcb.tfFin) then
      let (pcb, w) := pcb.sendUnsent ticks seg rest
      let (pcb, ws) := outputLoop ticks wnd rest pcb
      (pcb, w :: ws)
    else (pcb, [])

/-- `tcp_output` outside of `tcp_input`. -/
def tcpOutput (pcb : Pcb) (ticks : U32) (alloc : Bool) : Pcb × List Segment :=
  let wnd := min pcb.sndWnd pcb.cwnd
  if pcb.tfAckNow ∧ ∀ seg ∈ pcb.unsent.head?, ¬pcb.fitsWindow wnd seg then
    pcb.tcpSendEmptyAck alloc
  else
    let (pcb, ws) := outputLoop ticks wnd pcb.unsent pcb
    let pcb := if pcb.unsent = [] then { pcb with unsentOversize := 0 } else pcb
    ({ pcb with tfNaglememerr := false }, ws)

/-- `tcp_zero_window_probe`: a FIN without data or the first byte. -/
def tcpZeroWindowProbe (pcb : Pcb) (alloc : Bool) : Pcb × List Segment :=
  match (pcb.unacked ++ pcb.unsent).head? with
  | none => (pcb, [])
  | some seg =>
    if ¬alloc then (pcb, [])
    else
      let isFin := seg.fin ∧ seg.data = []
      (pcb.announce, [pcb.header seg.seqno isFin (seg.data.take 1)])

def tcpRexmitRto (pcb : Pcb) (ticks : U32) (alloc : Bool) : Pcb × List Segment :=
  if pcb.unacked = [] then (pcb, []) else pcb.requeueUnacked.tcpOutput ticks alloc

/-- The persist timer of `tcp_slowtmr` fires. -/
def persistNext (pcb : Pcb) : Pcb :=
  { pcb with
    persistCnt := 0
    persistBackoff := if pcb.persistBackoff < tcpPersistBackoff.length
      then pcb.persistBackoff + 1 else pcb.persistBackoff }

def countRtime (pcb : Pcb) : Pcb :=
  if 0 ≤ pcb.rtime then { pcb with rtime := s16 (pcb.rtime + 1) } else pcb

/-- What `tcp_slowtmr` changes before a retransmission. `past` is the byte found where `nrtx` is
behind the end of `tcp_backoff`. -/
def backOff (pcb : Pcb) (past : ℕ) : Pcb :=
  let ssthresh := min pcb.cwnd pcb.sndWnd / 2
  { pcb with
    rto := s16 ((pcb.sa / 8 + pcb.sv) * 2 ^ tcpBackoff.getD pcb.nrtx past)
    rtime := 0
    ssthresh := if ssthresh < pcb.mss * 2 then u16 (pcb.mss * 2) else ssthresh
    cwnd := pcb.mss }

/-- The retransmission of `tcp_slowtmr` for one connection that is not removed. -/
def slowRetransmit (pcb : Pcb) (ticks : U32) (past : ℕ) (alloc : Bool) : Pcb × List Segment :=
  if 0 < pcb.persistBackoff then
    let cnt := (pcb.persistCnt + 1) % 2 ^ 8
    if tcpPersistBackoff.getD (pcb.persistBackoff - 1) past ≤ cnt then
      pcb.persistNext.tcpZeroWindowProbe alloc
    else ({ pcb with persistCnt := cnt }, [])
  else
    let pcb := pcb.countRtime
    if pcb.unacked ≠ [] ∧ pcb.rto ≤ pcb.rtime then (pcb.backOff past).tcpRexmitRto ticks alloc
    else (pcb, [])

/-! ## Closing -/

/-- `tcp_pcb_remove`; `output` is `tcp_output` where it is called. -/
def tcpPcbRemove (pcb : Pcb) (output : Pcb → Pcb × List Segment) : Pcb × List Segment :=
  let pcb' := pcb.purge
  let (pcb', ws) :=
    if pcb'.state ≠ .timeWait ∧ pcb'.tfAckDelay then output pcb'.tcpAckNow else (pcb', [])
  ({ pcb' with state := .closed }, ws)

def tcpAbort (pcb : Pcb) (output : Pcb → Pcb × List Segment) : Pcb × List Segment :=
  let (pcb', ws) := pcb.tcpPcbRemove output
  if pcb.state = .timeWait then (pcb', ws) else (pcb', ws ++ [pcb.tcpRst])

def tcpClose (pcb : Pcb) (alloc : Bool) (output : Pcb → Pcb × List Segment) :
    Pcb × List Segment × Err :=
  let pcb := { pcb with tfRxclosed := true }
  if (pcb.state = .established ∨ pcb.state = .closeWait) ∧
      (pcb.refusedData ≠ none ∨ pcb.rcvWnd ≠ tcpWnd) then
    if pcb.state = .established then ({ pcb.purge with state := .timeWait }, [pcb.tcpRst], .ok)
    else ({ pcb.purge with state := .closed }, [pcb.tcpRst], .ok)
  else if pcb.state = .established ∨ pcb.state = .closeWait then
    match pcb.tcpSendFin alloc with
    | (pcb, .ok) =>
      let state := if pcb.state = .established then .finWait1 else .lastAck
      let (pcb, ws) := output { pcb with state := state }
      (pcb, ws, .ok)
    | (pcb, err) => (pcb, [], err)
  else (pcb, [], .ok)

end Pcb
end EnvirMonitor.Tcp
