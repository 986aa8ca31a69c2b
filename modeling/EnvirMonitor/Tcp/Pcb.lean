import EnvirMonitor.Client.Lwip
import EnvirMonitor.Machine.SerialNumber
import EnvirMonitor.Machine.Slices

/-! The control block of a connection and what `tcp.c` and `tcp_out.c` do to it without sending:
queueing data and FIN, and putting segments back for retransmission. -/

namespace EnvirMonitor.Tcp
open Machine
open Client (TcpState tcpMss tcpWnd)

def tcpSndBuf : ℕ := 4 * tcpMss
def tcpSndQueuelen : ℕ := 4 * tcpSndBuf / tcpMss
def tcpSndqueuelenOverflow : ℕ := 0xffff - 3
def tcpOversize : ℕ := tcpMss
def tcpMaxrtx : ℕ := 12
def tcpBackoff : List ℕ := [1, 2, 3, 4, 5, 6, 7, 7, 7, 7, 7, 7, 7]
def tcpPersistBackoff : List ℕ := [3, 6, 12, 24, 48, 96, 120]

def u16 (n : ℕ) : ℕ := n % 2 ^ 16
def s16 (n : ℤ) : ℤ := n.bmod (2 ^ 16)

def tcpSeqLt (a b : U32) : Prop := (a - b).toInt < 0
def tcpSeqLeq (a b : U32) : Prop := (a - b).toInt ≤ 0
def tcpSeqGt (a b : U32) : Prop := 0 < (a - b).toInt
def tcpSeqGeq (a b : U32) : Prop := 0 ≤ (a - b).toInt

instance (a b : U32) : Decidable (tcpSeqLt a b) := inferInstanceAs (Decidable ((a - b).toInt < 0))
instance (a b : U32) : Decidable (tcpSeqLeq a b) := inferInstanceAs (Decidable ((a - b).toInt ≤ 0))
instance (a b : U32) : Decidable (tcpSeqGt a b) := inferInstanceAs (Decidable (0 < (a - b).toInt))
instance (a b : U32) : Decidable (tcpSeqGeq a b) := inferInstanceAs (Decidable (0 ≤ (a - b).toInt))

def tcpSeqBetween (a b c : U32) : Prop := tcpSeqGeq a b ∧ tcpSeqLeq a c

instance (a b c : U32) : Decidable (tcpSeqBetween a b c) :=
  inferInstanceAs (Decidable (tcpSeqGeq a b ∧ tcpSeqLeq a c))

/-- A segment on the link, between the two ports of the connection and with a right checksum. -/
structure Segment where
  seqno : U32
  ackno : U32
  wnd : ℕ
  syn : Bool
  fin : Bool
  rst : Bool
  psh : Bool
  ack : Bool
  data : List U8
  deriving DecidableEq

/-- `tcplen` of `tcp_input` -/
def Segment.tcplen (w : Segment) : ℕ := w.data.length + (w.fin || w.syn).toNat

/-- A segment of a queue; `clen` is the number of its buffers. -/
structure TcpSeg where
  seqno : U32
  data : List U8
  fin : Bool
  psh : Bool
  clen : ℕ
  deriving DecidableEq

def TcpSeg.tcplen (seg : TcpSeg) : ℕ := seg.data.length + seg.fin.toNat

inductive Err
  | ok | mem | buf | conn | abrt
  deriving DecidableEq

/-- `struct tcp_pcb` from ESTABLISHED on. `tfAckDelay` to `tfNaglememerr` are the bits of `flags`,
and `refusedData` holds data with its `PBUF_FLAG_TCP_FIN`. -/
structure Pcb where
  state : TcpState
  tfAckDelay : Bool
  tfAckNow : Bool
  tfInfr : Bool
  tfRxclosed : Bool
  tfFin : Bool
  tfNodelay : Bool
  tfNaglememerr : Bool
  rcvNxt : U32
  rcvWnd : ℕ
  rcvAnnWnd : ℕ
  rcvAnnRightEdge : U32
  rtime : ℤ
  mss : ℕ
  rttest : U32
  rtseq : U32
  sa : ℤ
  sv : ℤ
  rto : ℤ
  nrtx : ℕ
  dupacks : ℕ
  lastack : U32
  cwnd : ℕ
  ssthresh : ℕ
  sndNxt : U32
  sndWl1 : U32
  sndWl2 : U32
  sndLbb : U32
  sndWnd : ℕ
  sndWndMax : ℕ
  acked : ℕ
  sndBuf : ℕ
  sndQueuelen : ℕ
  unsentOversize : ℕ
  unsent : List TcpSeg
  unacked : List TcpSeg
  refusedData : Option (List U8 × Bool)
  persistCnt : ℕ
  persistBackoff : ℕ

namespace Pcb

/-- `tcp_pcb_purge` -/
def purge (pcb : Pcb) : Pcb :=
  if pcb.state = .closed ∨ pcb.state = .timeWait ∨ pcb.state = .listen then pcb
  else { pcb with refusedData := none, rtime := -1, unsent := [], unacked := [], unsentOversize := 0 }

def tcpAckNow (pcb : Pcb) : Pcb := { pcb with tfAckNow := true }

def tcpAck (pcb : Pcb) : Pcb :=
  if pcb.tfAckDelay then { pcb with tfAckDelay := false, tfAckNow := true }
  else { pcb with tfAckDelay := true }

/-! ## `tcp_write` -/

/-- The room that `tcp_pbuf_prealloc` leaves behind `length` bytes. -/
def tcpPbufPrealloc (pcb : Pcb) (length maxLength : ℕ) (more firstSeg : Bool) : ℕ :=
  if length < maxLength ∧ (more ∨ ¬pcb.tfNodelay ∧ (¬firstSeg ∨ pcb.unsent ≠ [] ∨ pcb.unacked ≠ []))
  then min maxLength ((length + tcpOversize + 3) / 4 * 4) - length
  else 0

def tcpWriteChecks (pcb : Pcb) (len : ℕ) : Pcb × Err :=
  if pcb.state ≠ .established ∧ pcb.state ≠ .closeWait then (pcb, .conn)
  else if len = 0 then (pcb, .ok)
  else if pcb.sndBuf < len then ({ pcb with tfNaglememerr := true }, .mem)
  else if tcpSndQueuelen ≤ pcb.sndQueuelen ∨ tcpSndqueuelenOverflow < pcb.sndQueuelen then
    ({ pcb with tfNaglememerr := true }, .mem)
  else (pcb, .ok)

/-- Phase 3: new segments from the sequence number `seq` on, while the queue has `slots` left.
`alloc` tells which requests for memory succeed. -/
def newSegments (pcb : Pcb) (more : Bool) (mssLocal : ℕ) (alloc : ℕ → Bool) :
    ℕ → ℕ → U32 → List U8 → ℕ → Option (List TcpSeg × ℕ)
  | slots, k, seq, left, oversize =>
    if left = [] then some ([], oversize)
    else
      match slots with
      | 0 => none
      | slots + 1 =>
        let seglen := min left.length mssLocal
        if ¬alloc (2 * k + 1) ∨ ¬alloc (2 * k + 2) then none
        else
          let seg : TcpSeg := ⟨seq, left.take seglen, false, false, 1⟩
          let oversize := tcpPbufPrealloc pcb seglen mssLocal more (k = 0)
          (newSegments pcb more mssLocal alloc slots (k + 1) (seq + BitVec.ofNat 32 seglen)
            (left.drop seglen) oversize).map fun (queue, oversize) => (seg :: queue, oversize)

structure Extension where
  /-- Bytes copied behind its data. -/
  ext : List U8
  /-- Buffers chained to it. -/
  clen : ℕ
  oversize : ℕ
  left : List U8
  /-- `seg` points to it. -/
  touched : Bool

/-- Phases 1 and 2: the room in the last buffer, then a new buffer in the same segment. -/
def extendLast (pcb : Pcb) (more : Bool) (mssLocal : ℕ) (alloc : ℕ → Bool) (data : List U8)
    (last : TcpSeg) : Option Extension :=
  let oversizeUsed := min pcb.unsentOversize data.length
  let oversize := pcb.unsentOversize - oversizeUsed
  let space := u16 (mssLocal + 2 ^ 16 - last.data.length - oversizeUsed)
  let left := data.drop oversizeUsed
  if left ≠ [] ∧ 0 < space ∧ 0 < last.data.length then
    let seglen := min space left.length
    if alloc 0 then
      some ⟨data.take (oversizeUsed + seglen), 1, tcpPbufPrealloc pcb seglen space more true,
        left.drop seglen, true⟩
    else none
  else some ⟨data.take oversizeUsed, 0, oversize, left, 0 < pcb.unsentOversize⟩

/-- Phases 1 and 2, which do nothing where `unsent` is empty. -/
def extension (pcb : Pcb) (more : Bool) (mssLocal : ℕ) (alloc : ℕ → Bool) (data : List U8) :
    Option Extension :=
  match pcb.unsent.getLast? with
  | some last => extendLast pcb more mssLocal alloc data last
  | none => some ⟨[], 0, 0, data, false⟩

def setPsh : List TcpSeg → List TcpSeg
  | [] => []
  | [seg] => [{ seg with psh := true }]
  | seg :: rest => seg :: setPsh rest

/-- The end of `tcp_write`: the changes recorded so far are made. -/
def commitWrite (pcb : Pcb) (more : Bool) (len : ℕ) (x : Extension) (queue : List TcpSeg)
    (oversize : ℕ) : Pcb :=
  let extended := pcb.unsent.modifyLast fun last =>
    { last with data := last.data ++ x.ext, clen := last.clen + x.clen }
  let unsent := extended ++ queue
  { pcb with
    unsent := if ¬more ∧ (x.touched ∨ queue ≠ []) then setPsh unsent else unsent
    unsentOversize := oversize
    sndLbb := pcb.sndLbb + BitVec.ofNat 32 len
    sndBuf := pcb.sndBuf - len
    sndQueuelen := pcb.sndQueuelen + x.clen + queue.length }

def writePhases (pcb : Pcb) (data : List U8) (more : Bool) (alloc : ℕ → Bool) : Option Pcb :=
  let mssLocal := min pcb.mss (pcb.sndWndMax / 2)
  (pcb.extension more mssLocal alloc data).bind fun x =>
    (newSegments pcb more mssLocal alloc (tcpSndQueuelen - (pcb.sndQueuelen + x.clen)) 0
      (pcb.sndLbb + BitVec.ofNat 32 (data.length - x.left.length)) x.left x.oversize).map
        fun (queue, oversize) => commitWrite pcb more data.length x queue oversize

/-- `tcp_write` with `TCP_WRITE_FLAG_COPY`; `more` is `TCP_WRITE_FLAG_MORE`. -/
def tcpWrite (pcb : Pcb) (data : List U8) (more : Bool) (alloc : ℕ → Bool) : Pcb × Err :=
  match tcpWriteChecks pcb data.length with
  | (pcb, .ok) =>
    match pcb.writePhases data more alloc with
    | some pcb => (pcb, .ok)
    | none => ({ pcb with tfNaglememerr := true }, .mem)
  | (pcb, err) => (pcb, err)

/-! ## FIN -/

/-- `tcp_enqueue_flags` with `TCP_FIN`, and whether its two allocations succeed. -/
def tcpEnqueueFin (pcb : Pcb) (alloc : Bool) : Pcb × Err :=
  if tcpSndQueuelen ≤ pcb.sndQueuelen ∨ tcpSndqueuelenOverflow < pcb.sndQueuelen then
    ({ pcb with tfNaglememerr := true }, .mem)
  else if pcb.sndBuf = 0 then (pcb, .mem)
  else if ¬alloc then ({ pcb with tfNaglememerr := true }, .mem)
  else
    ({ pcb with
      unsent := pcb.unsent ++ [⟨pcb.sndLbb, [], true, false, 1⟩]
      unsentOversize := 0
      sndLbb := pcb.sndLbb + 1
      sndBuf := pcb.sndBuf - 1
      tfFin := true
      sndQueuelen := pcb.sndQueuelen + 1 }, .ok)

def tcpSendFin (pcb : Pcb) (alloc : Bool) : Pcb × Err :=
  match pcb.unsent.getLast? with
  | some last =>
    if last.fin then tcpEnqueueFin pcb alloc
    else
      ({ pcb with
        unsent := pcb.unsent.modifyLast fun last => { last with fin := true }
        tfFin := true }, .ok)
  | none => tcpEnqueueFin pcb alloc

/-! ## Retransmission -/

def insertSeg (seg : TcpSeg) : List TcpSeg → List TcpSeg
  | [] => [seg]
  | cur :: rest =>
    if tcpSeqLt cur.seqno seg.seqno then cur :: insertSeg seg rest else seg :: cur :: rest

/-- `tcp_rexmit_rto` before its `tcp_output` -/
def requeueUnacked (pcb : Pcb) : Pcb :=
  { pcb with
    unsent := pcb.unacked ++ pcb.unsent
    unacked := []
    nrtx := (pcb.nrtx + 1) % 2 ^ 8
    rttest := 0 }

def tcpRexmit (pcb : Pcb) : Pcb :=
  match pcb.unacked with
  | [] => pcb
  | seg :: rest =>
    { pcb with
      unacked := rest
      unsent := insertSeg seg pcb.unsent
      unsentOversize :=
        if ∀ cur ∈ pcb.unsent, tcpSeqLt cur.seqno seg.seqno then 0 else pcb.unsentOversize
      nrtx := (pcb.nrtx + 1) % 2 ^ 8
      rttest := 0 }

def tcpRexmitFast (pcb : Pcb) : Pcb :=
  if pcb.unacked ≠ [] ∧ ¬pcb.tfInfr then
    let pcb := pcb.tcpRexmit
    let ssthresh := if pcb.sndWnd < pcb.cwnd then pcb.sndWnd / 2 else pcb.cwnd / 2
    let ssthresh := if ssthresh < 2 * pcb.mss then u16 (2 * pcb.mss) else ssthresh
    { pcb with ssthresh := ssthresh, cwnd := u16 (ssthresh + 3 * pcb.mss), tfInfr := true }
  else pcb

end Pcb
end EnvirMonitor.Tcp
