import EnvirMonitor.Tcp.Output

/-! `tcp_receive` and `tcp_process` for a connection that is established: the acknowledgement of
a segment, its data, and the states of closing. -/

namespace EnvirMonitor.Tcp
open Machine
open Client (TcpState tcpMss tcpWnd)

namespace Pcb

/-! ## The acknowledgement of a segment -/

def updateSendWindow (pcb : Pcb) (w : Segment) : Pcb :=
  if tcpSeqLt pcb.sndWl1 w.seqno ∨ pcb.sndWl1 = w.seqno ∧ tcpSeqLt pcb.sndWl2 w.ackno ∨
      pcb.sndWl2 = w.ackno ∧ pcb.sndWnd < w.wnd then
    let pcb := { pcb with
      sndWnd := w.wnd
      sndWndMax := if pcb.sndWndMax < w.wnd then w.wnd else pcb.sndWndMax
      sndWl1 := w.seqno
      sndWl2 := w.ackno }
    if pcb.sndWnd = 0 then
      if pcb.persistBackoff = 0 then { pcb with persistCnt := 0, persistBackoff := 1 } else pcb
    else if 0 < pcb.persistBackoff then { pcb with persistBackoff := 0 }
    else pcb
  else pcb

def countDupack (pcb : Pcb) : Pcb :=
  if pcb.dupacks + 1 < 2 ^ 8 then { pcb with dupacks := pcb.dupacks + 1 } else pcb

/-- Clause 1 holds: the segment acknowledges nothing new. -/
def oldAck (pcb : Pcb) (w : Segment) (rightWndEdge : U32) : Pcb :=
  let pcb := { pcb with acked := 0 }
  if w.tcplen = 0 ∧ pcb.sndWl2 + BitVec.ofNat 32 pcb.sndWnd = rightWndEdge ∧ 0 ≤ pcb.rtime ∧
      pcb.lastack = w.ackno then
    let pcb := pcb.countDupack
    if 3 < pcb.dupacks then
      if pcb.cwnd < u16 (pcb.cwnd + pcb.mss) then { pcb with cwnd := pcb.cwnd + pcb.mss } else pcb
    else if pcb.dupacks = 3 then pcb.tcpRexmitFast
    else pcb
  else { pcb with dupacks := 0 }

def leaveRecovery (pcb : Pcb) : Pcb :=
  if pcb.tfInfr then { pcb with tfInfr := false, cwnd := pcb.ssthresh } else pcb

def creditAck (pcb : Pcb) (ackno : U32) : Pcb :=
  let acked := u16 (ackno - pcb.lastack).toNat
  { pcb with
    nrtx := 0
    rto := s16 (pcb.sa / 8 + pcb.sv)
    acked := acked
    sndBuf := u16 (pcb.sndBuf + acked)
    dupacks := 0
    lastack := ackno }

def openCwnd (pcb : Pcb) : Pcb :=
  if pcb.cwnd < pcb.ssthresh then
    if pcb.cwnd < u16 (pcb.cwnd + pcb.mss) then { pcb with cwnd := pcb.cwnd + pcb.mss } else pcb
  else
    let newCwnd := u16 (pcb.cwnd + pcb.mss * pcb.mss / pcb.cwnd)
    if pcb.cwnd < newCwnd then { pcb with cwnd := newCwnd } else pcb

/-- The segments left of a queue after those at its head that are `done` have been freed, with
`acked` and `snd_queuelen`. -/
def freeAcked (done : TcpSeg → Bool) : List TcpSeg → ℕ → ℕ → List TcpSeg × ℕ × ℕ
  | [], acked, queuelen => ([], acked, queuelen)
  | seg :: rest, acked, queuelen =>
    if done seg then
      freeAcked done rest (if acked ≠ 0 ∧ seg.fin then acked - 1 else acked) (queuelen - seg.clen)
    else (seg :: rest, acked, queuelen)

def freeUnacked (pcb : Pcb) (ackno : U32) : Pcb :=
  let (unacked, acked, queuelen) := freeAcked
    (fun seg => tcpSeqLeq (seg.seqno + BitVec.ofNat 32 seg.tcplen) ackno)
    pcb.unacked pcb.acked pcb.sndQueuelen
  { pcb with
    unacked := unacked
    acked := acked
    sndQueuelen := queuelen
    rtime := if unacked = [] then -1 else 0 }

def newAck (pcb : Pcb) (ackno : U32) : Pcb :=
  ((pcb.leaveRecovery.creditAck ackno).openCwnd).freeUnacked ackno

/-- Acknowledged segments that wait in `unsent` for their retransmission are freed. -/
def freeUnsent (pcb : Pcb) (ackno : U32) : Pcb :=
  let (unsent, acked, queuelen) := freeAcked
    (fun seg => tcpSeqBetween ackno (seg.seqno + BitVec.ofNat 32 seg.tcplen) pcb.sndNxt)
    pcb.unsent pcb.acked pcb.sndQueuelen
  { pcb with
    unsent := unsent
    acked := acked
    sndQueuelen := queuelen
    unsentOversize := if unsent = [] ∧ pcb.unsent ≠ [] then 0 else pcb.unsentOversize }

def estimateRtt (pcb : Pcb) (ticks ackno : U32) : Pcb :=
  if pcb.rttest ≠ 0 ∧ tcpSeqLt pcb.rtseq ackno then
    let m := s16 (ticks - pcb.rttest).toNat
    let m := s16 (m - pcb.sa / 8)
    let sa := s16 (pcb.sa + m)
    let m := if m < 0 then s16 (-m) else m
    let m := s16 (m - pcb.sv / 4)
    let sv := s16 (pcb.sv + m)
    { pcb with sa := sa, sv := sv, rto := s16 (sa / 8 + sv), rttest := 0 }
  else pcb

def receiveAck (pcb : Pcb) (ticks : U32) (w : Segment) : Pcb :=
  let rightWndEdge := BitVec.ofNat 32 pcb.sndWnd + pcb.sndWl2
  let pcb := pcb.updateSendWindow w
  let pcb :=
    if tcpSeqLeq w.ackno pcb.lastack then pcb.oldAck w rightWndEdge
    else if tcpSeqBetween w.ackno (pcb.lastack + 1) pcb.sndNxt then pcb.newAck w.ackno
    else { pcb with acked := 0 }
  (pcb.freeUnsent w.ackno).estimateRtt ticks w.ackno

/-! ## The data of a segment -/

def tcpUpdateRcvAnnWnd (pcb : Pcb) : Pcb × ℕ :=
  let newRightEdge := pcb.rcvNxt + BitVec.ofNat 32 pcb.rcvWnd
  if tcpSeqGeq newRightEdge
      (pcb.rcvAnnRightEdge + BitVec.ofNat 32 (min (tcpWnd / 2) pcb.mss)) then
    ({ pcb with rcvAnnWnd := pcb.rcvWnd }, (newRightEdge - pcb.rcvAnnRightEdge).toNat)
  else if tcpSeqGt pcb.rcvNxt pcb.rcvAnnRightEdge then ({ pcb with rcvAnnWnd := 0 }, 0)
  else ({ pcb with rcvAnnWnd := u16 (pcb.rcvAnnRightEdge - pcb.rcvNxt).toNat }, 0)

/-- What `tcp_process` leaves for `tcp_input`: `recv_data` and the bits of `recv_flags`. -/
structure Processed where
  pcb : Pcb
  out : List Segment
  recvData : Option (List U8)
  gotFin : Bool
  tfReset : Bool
  tfClosed : Bool

def unchanged (pcb : Pcb) : Processed := ⟨pcb, [], none, false, false, false⟩

/-- `inseg` as `tcp_receive` trims it. -/
structure Inseg where
  seqno : U32
  data : List U8
  fin : Bool

def Inseg.tcplen (inseg : Inseg) : ℕ := inseg.data.length + inseg.fin.toNat

def trimFront (pcb : Pcb) (inseg : Inseg) : Pcb × Inseg :=
  let tcplen := BitVec.ofNat 32 inseg.tcplen
  if tcpSeqBetween pcb.rcvNxt (inseg.seqno + 1) (inseg.seqno + tcplen - 1) then
    let off := (pcb.rcvNxt - inseg.seqno).toInt.toNat
    (pcb, { inseg with seqno := pcb.rcvNxt, data := inseg.data.drop off })
  else if tcpSeqLt inseg.seqno pcb.rcvNxt then (pcb.tcpAckNow, inseg)
  else (pcb, inseg)

def trimEnd (pcb : Pcb) (inseg : Inseg) : Inseg :=
  if pcb.rcvWnd < inseg.tcplen then { inseg with data := inseg.data.take pcb.rcvWnd, fin := false }
  else inseg

def takeData (pcb : Pcb) (inseg : Inseg) : Processed :=
  let inseg := pcb.trimEnd inseg
  let pcb := { pcb with
    rcvNxt := inseg.seqno + BitVec.ofNat 32 inseg.tcplen
    rcvWnd := pcb.rcvWnd - inseg.tcplen }
  { pcb := pcb.tcpUpdateRcvAnnWnd.1.tcpAck
    out := []
    recvData := if inseg.data = [] then none else some inseg.data
    gotFin := inseg.fin
    tfReset := false
    tfClosed := false }

def receiveData (pcb : Pcb) (w : Segment) (alloc : Bool) : Processed :=
  if 0 < w.tcplen ∧ (pcb.state = .established ∨ pcb.state = .finWait1 ∨ pcb.state = .finWait2) then
    let (pcb, inseg) := pcb.trimFront ⟨w.seqno, w.data, w.fin⟩
    if tcpSeqBetween inseg.seqno pcb.rcvNxt (pcb.rcvNxt + BitVec.ofNat 32 pcb.rcvWnd - 1) ∧
        pcb.rcvNxt = inseg.seqno then
      pcb.takeData inseg
    else
      let (pcb, out) := pcb.tcpSendEmptyAck alloc
      { pcb.unchanged with out := out }
  else if ¬tcpSeqBetween w.seqno pcb.rcvNxt (pcb.rcvNxt + BitVec.ofNat 32 pcb.rcvWnd - 1) then
    pcb.tcpAckNow.unchanged
  else pcb.unchanged

def tcpReceive (pcb : Pcb) (ticks : U32) (w : Segment) (alloc : Bool) : Processed :=
  (if w.ack then pcb.receiveAck ticks w else pcb).receiveData w alloc

/-! ## The state machine -/

def enterTimeWait (pcb : Pcb) : Pcb := { pcb.purge with state := .timeWait }

/-- `tcp_process` after `tcp_receive`. -/
def nextState (w : Segment) (r : Processed) : Processed :=
  let ackOfAll := w.ack ∧ w.ackno = r.pcb.sndNxt
  match r.pcb.state with
  | .established | .closeWait =>
    if r.gotFin then { r with pcb := { r.pcb.tcpAckNow with state := .closeWait } } else r
  | .finWait1 =>
    if r.gotFin then
      if ackOfAll then { r with pcb := r.pcb.tcpAckNow.enterTimeWait }
      else { r with pcb := { r.pcb.tcpAckNow with state := .closing } }
    else if ackOfAll then { r with pcb := { r.pcb with state := .finWait2 } }
    else r
  | .finWait2 => if r.gotFin then { r with pcb := r.pcb.tcpAckNow.enterTimeWait } else r
  | .closing => if ackOfAll then { r with pcb := r.pcb.enterTimeWait } else r
  | .lastAck => if ackOfAll then { r with tfClosed := true } else r
  | _ => r

def tcpProcess (pcb : Pcb) (ticks : U32) (w : Segment) (alloc : Bool) : Processed :=
  if w.rst then
    if tcpSeqBetween w.seqno pcb.rcvNxt (pcb.rcvNxt + BitVec.ofNat 32 pcb.rcvWnd) then
      { ({ pcb with tfAckDelay := false } : Pcb).unchanged with tfReset := true }
    else pcb.unchanged
  else if w.syn then pcb.tcpAckNow.unchanged
  else
    match pcb.state with
    | .established | .closeWait | .finWait1 | .finWait2 | .closing | .lastAck =>
      nextState w (pcb.tcpReceive ticks w alloc)
    | _ => pcb.unchanged

end Pcb
end EnvirMonitor.Tcp
