import EnvirMonitor.Client.TcpClient
import EnvirMonitor.Lwip.Pbuf
import EnvirMonitor.Machine.GuardedRuns

/-! The callbacks of a connection that `tcp_accept_server` has accepted, with a log of the pbuf
references they obtain and release and of the bytes they are given and credit to the window. -/

namespace EnvirMonitor.Server
open Machine Lwip
open Client (Err hasFlag setFlag clearFlag)

def tcpServerRxBufsize : ℕ := 100

/-- `"this server send test\r\n"` -/
def tcpServerSendbuf : List U8 :=
  [0x74, 0x68, 0x69, 0x73, 0x20, 0x73, 0x65, 0x72, 0x76, 0x65, 0x72, 0x20, 0x73, 0x65, 0x6E, 0x64,
    0x20, 0x74, 0x65, 0x73, 0x74, 0x0D, 0x0A]

/-- The bits of `tcp_server_flag`: a client is connected, data was received, data is to be sent. -/
def connectFlag : ℕ := 5
def revcdataFlag : ℕ := 6
def senddataFlag : ℕ := 7

inductive ServerState
  | none | accepted | closing
  deriving DecidableEq

structure ServerData where
  state : ServerState
  p : Option ℕ

/-- The callbacks are registered; one of them waits for lwIP, or loops for ever; the server has
closed the connection; lwIP has. The record is freed in the last two. -/
inductive Phase
  | listening | registered | busy | stuck | closed | gone
  deriving DecidableEq

inductive Event
  | obtained (p : ℕ)
  | pbufRef (p : ℕ)
  | pbufFree (p : ℕ)
  | dealloc (p : ℕ)
  | tcpWrite (p len : ℕ) (err : Err)
  | delivered (len : ℕ) (err : Err)
  | tcpRecved (len : ℕ)

/-- The log is newest first. -/
structure World where
  heap : Heap
  es : ServerData
  tcpServerFlag : U8
  tcpServerRevdata : List U8
  phase : Phase
  log : List Event

def released (freed : List ℕ) (p : ℕ) (log : List Event) : List Event :=
  freed.reverse.map .dealloc ++ .pbufFree p :: log

namespace World

def emit (w : World) (e : Event) : World := { w with log := e :: w.log }

def setP (w : World) (p : Option ℕ) : World := { w with es := { w.es with p := p } }

def ref (w : World) (p : ℕ) : World := { w with heap := pbufRef w.heap p }.emit (.pbufRef p)

/-- `es->p = ptr->next; if(es->p) pbuf_ref(es->p);` -/
def nextSegment (w : World) (ptr : ℕ) : World :=
  let next := (w.heap.pbufs ptr).next
  let w := w.setP next
  match next with
  | some q => w.ref q
  | none => w

def free (w : World) (p : ℕ) : World :=
  let r := Lwip.pbufFree w.heap p
  { w with heap := r.1, log := released r.2 p w.log }

end World

def listening (flag : U8) (revdata : List U8) : World where
  heap := ⟨fun _ => ⟨none, [], 0, 0⟩, fun _ => false, 0⟩
  es := ⟨.none, none⟩
  tcpServerFlag := flag
  tcpServerRevdata := revdata
  phase := .listening
  log := []

def tcpAcceptServer (w : World) (memOk : Bool) : World :=
  if memOk then
    { w with
      es := ⟨.accepted, none⟩
      phase := .registered
      tcpServerFlag := setFlag w.tcpServerFlag connectFlag }
  else { w with phase := .stuck }

def tcpRecved (w : World) (len : ℕ) : World := w.emit (.tcpRecved len)

/-- The copy loop of `tcp_recv_server`, and whether it has ended. The step is `temp = p->next`. -/
def copyRevdata (h : Heap) (p : ℕ) : ℕ → Option ℕ → ℕ → List U8 → List U8 × Bool
  | _, none, _, buf => (buf, true)
  | 0, some _, _, buf => (buf, false)
  | fuel + 1, some temp, dataLen, buf =>
    let payload := (h.pbufs temp).payload
    let room := tcpServerRxBufsize - dataLen
    let buf := memcpyAt buf dataLen (if payload.length > room then payload.take room else payload)
    let dataLen := dataLen + payload.length
    if dataLen > tcpServerRxBufsize then (buf, true)
    else copyRevdata h p fuel (h.pbufs p).next dataLen buf

/-- A loop that is not over after this many turns is never over. -/
def copyTurns : ℕ := tcpServerRxBufsize + 2

def tcpRecvServer (w : World) (p : Option ℕ) (err : Err) : World × Err :=
  match p with
  | none => ({ w with es := ⟨.closing, none⟩ }, .ok)
  | some p =>
    if err ≠ .ok then (w.free p, err)
    else if w.es.state = .accepted then
      let r := copyRevdata w.heap p copyTurns (some p) 0 (List.replicate tcpServerRxBufsize 0)
      let w := { w with tcpServerRevdata := r.1 }
      if r.2 then
        let w := { w with tcpServerFlag := setFlag w.tcpServerFlag revcdataFlag }
        ((tcpRecved w (w.heap.pbufs p).totLen).free p, .ok)
      else ({ w with phase := .stuck }, .ok)
    else
      let w := tcpRecved w (w.heap.pbufs p).totLen
      ((w.setP none).free p, .ok)

/-- `answers` are `tcp_sndbuf` and the result of `tcp_write`, turn by turn; where they run out,
the call goes on. -/
def tcpServerSenddata : World → List (ℕ × Err) → World
  | w, [] =>
    match w.es.p with
    | none => w
    | some _ => { w with phase := .busy }
  | w, (sndbuf, wrErr) :: answers =>
    match w.es.p with
    | none => w
    | some ptr =>
      let len := (w.heap.pbufs ptr).len
      if len ≤ sndbuf then
        let w := w.emit (.tcpWrite ptr len wrErr)
        if wrErr = .ok then
          tcpServerSenddata (tcpRecved ((w.nextSegment ptr).free ptr) len) answers
        else if wrErr = .mem then w.setP (some ptr)
        else w
      else w

def tcpSentServer (w : World) (answers : List (ℕ × Err)) : World :=
  if w.es.p.isSome then tcpServerSenddata w answers else w

def tcpServerConnectClose (w : World) : World :=
  { w with phase := .closed, tcpServerFlag := clearFlag w.tcpServerFlag connectFlag }

/-- `es->p = pbuf_alloc(..)` and `pbuf_take`. -/
def newMessage (w : World) : World :=
  let p := w.heap.fresh
  let w := { w with heap := pbufAlloc w.heap tcpServerSendbuf.length }.emit (.obtained p)
  let w := w.setP (some p)
  { w with heap := pbufTake w.heap p tcpServerSendbuf }

/-- What the poll does after `tcp_server_senddata`, if that has returned. -/
def messageSent (w : World) : World :=
  if w.phase = .busy then w
  else
    let w := { w with tcpServerFlag := clearFlag w.tcpServerFlag senddataFlag }
    match w.es.p with
    | some p => w.free p
    | none => w

/-- `alloc` is whether the pool has a pbuf. -/
def tcpPollServer (w : World) (alloc : Bool) (answers : List (ℕ × Err)) : World :=
  if hasFlag w.tcpServerFlag senddataFlag then
    if alloc then messageSent (tcpServerSenddata (newMessage w) answers)
    else { w.setP none with phase := .stuck }
  else if w.es.state = .closing then tcpServerConnectClose w
  else w

/-- lwIP has freed the connection, and the record goes with it. -/
def tcpErrServer (w : World) : World := { w with phase := .gone }

/-! ## Steps -/

/-- The data of a callback: a chain whose total length is a `u16_t`. -/
structure Delivery where
  head : Segment
  rest : List Segment
  lt : segmentsLen (head :: rest) < 2 ^ 16

def Delivery.segments (d : Delivery) : List Segment := d.head :: d.rest

/-- `request` is other code that sets bit 7, `reuse` the use of freed memory by others. -/
inductive Input
  | recv (d : Delivery) (err : Err)
  | fin (err : Err)
  | sent (answers : List (ℕ × Err))
  | poll (alloc : Bool) (answers : List (ℕ × Err))
  | err
  | request
  | reuse (i : ℕ) (pbuf : Pbuf)

def deliver (w : World) (d : Delivery) (err : Err) : World :=
  { w with heap := handOver w.heap d.segments }.emit (.obtained w.heap.fresh)
    |>.emit (.delivered (segmentsLen d.segments) err)

def react (w : World) : Input → World
  | .recv d err => (tcpRecvServer (deliver w d err) (some w.heap.fresh) err).1
  | .fin err => (tcpRecvServer w none err).1
  | .sent answers => tcpSentServer w answers
  | .poll alloc answers => tcpPollServer w alloc answers
  | .err => tcpErrServer w
  | .request => { w with tcpServerFlag := setFlag w.tcpServerFlag senddataFlag }
  | .reuse i pbuf => { w with heap := { w.heap with pbufs := Function.update w.heap.pbufs i pbuf } }

def enabled (w : World) : Input → Prop
  | .reuse i _ => w.phase = .registered ∧ w.heap.live i = false
  | _ => w.phase = .registered

instance (w : World) : (i : Input) → Decidable (enabled w i)
  | .reuse _ _ => inferInstanceAs (Decidable (_ ∧ _))
  | .recv _ _ | .fin _ | .sent _ | .poll _ _ | .err | .request => inferInstanceAs (Decidable (_ = _))

def step (w : World) (i : Input) : Option World := if enabled w i then some (react w i) else none

theorem step_eq_some {w w' : World} {i : Input} (h : step w i = some w') :
    enabled w i ∧ w' = react w i := by
  unfold step at h
  split at h
  · exact ⟨‹_›, (Option.some.inj h).symm⟩
  · cases h

theorem registered_of_enabled {w : World} {i : Input} (h : enabled w i) : w.phase = .registered := by
  cases i with
  | reuse i pbuf => exact h.1
  | recv d err | fin err | sent answers | poll alloc answers | err | request => exact h

def accepted (flag : U8) (revdata : List U8) : World := tcpAcceptServer (listening flag revdata) true

/-! ## Releasing and sending -/

section
variable (w : World) (p : ℕ)

theorem free_es : (w.free p).es = w.es := by
  unfold World.free
  generalize Lwip.pbufFree w.heap p = r
  rfl

theorem free_phase : (w.free p).phase = w.phase := by
  unfold World.free
  generalize Lwip.pbufFree w.heap p = r
  rfl

theorem free_log : (w.free p).log = released (Lwip.pbufFree w.heap p).2 p w.log := by
  unfold World.free
  generalize Lwip.pbufFree w.heap p = r
  rfl

theorem free_heap : (w.free p).heap = (Lwip.pbufFree w.heap p).1 := by
  unfold World.free
  generalize Lwip.pbufFree w.heap p = r
  rfl

theorem free_fresh : (w.free p).heap.fresh = w.heap.fresh := by
  rw [free_heap]
  exact (frees_pbufFree w.heap p).fresh

end

theorem setP_self {w : World} {p : Option ℕ} (h : w.es.p = p) : w.setP p = w := by
  rw [World.setP, ← h]

theorem senddata_null {w : World} (h : w.es.p = none) (answers : List (ℕ × Err)) :
    tcpServerSenddata w answers = w := by
  cases answers with
  | nil => rw [tcpServerSenddata, h]
  | cons a answers => rw [tcpServerSenddata, h]

theorem nextSegment_last {w : World} {ptr : ℕ} (h : (w.heap.pbufs ptr).next = none) :
    w.nextSegment ptr = w.setP none := by rw [World.nextSegment, h]

theorem newMessage_pbuf (w : World) : ((newMessage w).heap.pbufs w.heap.fresh).next = none ∧
    ((newMessage w).heap.pbufs w.heap.fresh).len = tcpServerSendbuf.length := by
  simp [newMessage, pbufTake, pbufAlloc, Heap.new, World.setP, World.emit, Pbuf.len, memcpyAt]

/-! ## Where the copy loop ends -/

/-- The first pbuf is too long for the buffer, or the second one is not empty. -/
def CopyEnds (h : Heap) (p : ℕ) : Prop :=
  tcpServerRxBufsize < (h.pbufs p).len ∨ ∀ q ∈ (h.pbufs p).next, 0 < (h.pbufs q).len

theorem copyRevdata_null (h : Heap) (p fuel dataLen : ℕ) (buf : List U8) :
    (copyRevdata h p fuel none dataLen buf).2 = true := by cases fuel <;> rfl

theorem copyRevdata_turn (h : Heap) (p fuel temp dataLen : ℕ) (buf : List U8) : ∃ buf',
    (copyRevdata h p (fuel + 1) (some temp) dataLen buf).2 =
      if tcpServerRxBufsize < dataLen + (h.pbufs temp).len then true
      else (copyRevdata h p fuel (h.pbufs p).next (dataLen + (h.pbufs temp).len) buf').2 := by
  by_cases hfull : tcpServerRxBufsize < dataLen + (h.pbufs temp).len
  · refine ⟨buf, ?_⟩
    rw [copyRevdata, if_pos hfull, if_pos (by exact hfull)]
  · let payload := (h.pbufs temp).payload
    let room := tcpServerRxBufsize - dataLen
    refine ⟨memcpyAt buf dataLen
      (if payload.length > room then payload.take room else payload), ?_⟩
    rw [copyRevdata, if_neg hfull, if_neg (by exact hfull)]
    rfl

theorem copyRevdata_second {h : Heap} {p q : ℕ} (hnext : (h.pbufs p).next = some q)
    (hq : 0 < (h.pbufs q).len) {fuel dataLen : ℕ} (hfuel : tcpServerRxBufsize < dataLen + fuel)
    (hlen : dataLen ≤ tcpServerRxBufsize) (buf : List U8) :
    (copyRevdata h p fuel (some q) dataLen buf).2 = true := by
  induction fuel generalizing dataLen buf with
  | zero => omega
  | succ fuel ih =>
    obtain ⟨buf', hturn⟩ := copyRevdata_turn h p fuel q dataLen buf
    rw [hturn, hnext]
    split_ifs with hfull
    · rfl
    · exact ih (by omega) (by omega) buf'

theorem copyRevdata_empty {h : Heap} {p q : ℕ} (hnext : (h.pbufs p).next = some q)
    (hq : (h.pbufs q).len = 0) (fuel : ℕ) {dataLen : ℕ} (hlen : dataLen ≤ tcpServerRxBufsize)
    (buf : List U8) : (copyRevdata h p fuel (some q) dataLen buf).2 = false := by
  induction fuel generalizing dataLen buf with
  | zero => rfl
  | succ fuel ih =>
    obtain ⟨buf', hturn⟩ := copyRevdata_turn h p fuel q dataLen buf
    rw [hturn, hnext, hq, Nat.add_zero, if_neg (by omega)]
    exact ih hlen buf'

theorem copyRevdata_ends {h : Heap} {p : ℕ} (hends : CopyEnds h p) (buf : List U8) :
    (copyRevdata h p copyTurns (some p) 0 buf).2 = true := by
  obtain ⟨buf', hturn⟩ := copyRevdata_turn h p (tcpServerRxBufsize + 1) p 0 buf
  rw [copyTurns, hturn, Nat.zero_add]
  split_ifs with hlong
  · rfl
  · cases hnext : (h.pbufs p).next with
    | none => exact copyRevdata_null ..
    | some q =>
      have hq : 0 < (h.pbufs q).len := hends.elim (fun hl => absurd hl hlong) fun hq => hq q hnext
      exact copyRevdata_second hnext hq (by omega) (by omega) buf'

theorem copyRevdata_never {h : Heap} {p : ℕ} (hends : ¬ CopyEnds h p) (fuel : ℕ) (buf : List U8) :
    (copyRevdata h p fuel (some p) 0 buf).2 = false := by
  obtain ⟨hshort, hempty⟩ := not_or.mp hends
  obtain ⟨q, hempty⟩ := not_forall.mp hempty
  obtain ⟨hnext, hq⟩ := Classical.not_imp.mp hempty
  cases fuel with
  | zero => rfl
  | succ fuel =>
    obtain ⟨buf', hturn⟩ := copyRevdata_turn h p fuel p 0 buf
    rw [hturn, Nat.zero_add, if_neg hshort, hnext]
    exact copyRevdata_empty hnext (by omega) fuel (by omega) buf'

end EnvirMonitor.Server
