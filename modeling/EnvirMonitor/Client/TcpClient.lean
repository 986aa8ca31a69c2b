import EnvirMonitor.Client.Lwip
import EnvirMonitor.Machine.ReleaseLog

/-! The client's callbacks. Its close sequence goes on calling lwIP with the block that
`tcp_abort` has freed, whatever the state of the connection. -/

namespace EnvirMonitor.Client
open Machine

def startFlag : ℕ := 4
def connectFlag : ℕ := 5
def revcdataFlag : ℕ := 6
def senddataFlag : ℕ := 7

def tcpClientMaxrxBuffsize : ℕ := 20

def boot : World where
  tcpClientFlag := 0
  tcpClientRevdata := List.replicate tcpClientMaxrxBuffsize 0
  clientPcb := none
  pcbs := fun _ => Pcb.fresh
  live := fun _ => false
  nextPcb := 0
  es := fun _ => ⟨.none, 0, false⟩
  nextEs := 0
  prestatus := 0xFF
  preindex := 0xFF
  prestart := 0xFF
  timecnt := 0
  mode := .running
  log := []

def hasFlag (f : U8) (n : ℕ) : Bool := f.getLsbD n

def setFlag (f : U8) (n : ℕ) : U8 := f ||| (1#8 <<< n)

def clearFlag (f : U8) (n : ℕ) : U8 := f &&& ~~~(1#8 <<< n)

theorem hasFlag_setFlag (f : U8) {m n : ℕ} (hn : n < 8) :
    hasFlag (setFlag f m) n = (hasFlag f n || decide (n = m)) := by
  simp only [hasFlag, setFlag, BitVec.getLsbD_or, BitVec.getLsbD_shiftLeft, hn, decide_true,
    Bool.true_and, BitVec.getLsbD_one]
  congr 1
  grind

theorem hasFlag_clearFlag (f : U8) {m n : ℕ} (hn : n < 8) :
    hasFlag (clearFlag f m) n = (hasFlag f n && decide (n ≠ m)) := by
  simp only [hasFlag, clearFlag, BitVec.getLsbD_and, BitVec.getLsbD_not, BitVec.getLsbD_shiftLeft,
    hn, decide_true, Bool.true_and, BitVec.getLsbD_one]
  congr 1
  grind

@[simp] theorem hasFlag_zero (n : ℕ) : hasFlag 0 n = false := by simp [hasFlag]

/-! ## Closing the client -/

def tcpClientConnectClose (w : World) (id : ℕ) (es : Option ℕ) (fin : Err) : World :=
  let w := (tcpClose w id fin).1
  let w := tcpAbort w id
  -- by now the block has been freed
  let w := tcpArg w id none
  let w := tcpRecv w id .null
  let w := tcpSent w id false
  let w := tcpErr w id false
  let w := tcpPoll w id false
  let w := match es with
    | some es => w.memFree es
    | none => w
  { w with tcpClientFlag := 0, clientPcb := none }

def closeEvents (w : World) (id : ℕ) (es : Option ℕ) (fin : Err) : List Event :=
  (tcpClientConnectClose { w with log := [] } id es fin).log

def lateEvents (id : ℕ) (es : Option ℕ) : List Event :=
  es.toList.map .memFree ++
    [.call .tcpPoll id, .call .tcpErr id, .call .tcpSent id, .call .tcpRecv id]

theorem log_close (w : World) (id : ℕ) (es : Option ℕ) (fin : Err) :
    (tcpClientConnectClose w id es fin).log =
      lateEvents id es ++ .call .tcpArg id :: (tcpAbort (tcpClose w id fin).1 id).log := by
  cases es <;> rfl

theorem frame_close (w : World) (id : ℕ) (es : Option ℕ) (fin : Err) :
    let w' := tcpAbort (tcpClose w id fin).1 id
    (tcpClientConnectClose w id es fin).live = w'.live ∧
      (tcpClientConnectClose w id es fin).nextPcb = w'.nextPcb ∧
      (tcpClientConnectClose w id es fin).mode = w'.mode := by
  cases es <;> simp [tcpClientConnectClose, tcpArg, tcpRecv, tcpSent, tcpErr, tcpPoll,
    World.memFree, World.emit]

/-- No close keeps the rule that lwIP is not called with a block it has freed. -/
theorem close_calls_freed_pcb (w : World) (id : ℕ) (es : Option ℕ) (fin : Err) :
    ¬ NoUseAfterFree (Event.freesPcb id) (Event.touchesPcb id) (closeEvents w id es fin) := by
  rw [closeEvents, log_close, log_tcpAbort]
  intro h
  exact not_noUseAfterFree_of_use (f := .pcbFree id) (by simp [Event.touchesPcb]) (by simp)
    (by simp [Event.freesPcb]) (noUseAfterFree_of_append h)

def closeWaitWorld : World :=
  { boot with
    pcbs := fun _ => ⟨.closeWait, some 0, .tcpRecvClient, true, true, true, tcpWnd, false, false⟩
    live := fun id => decide (id = 0)
    nextPcb := 1
    es := fun _ => ⟨.closing, 0, false⟩
    nextEs := 1 }

theorem close_after_fin_calls_freed_pcb :
    ¬ NoUseAfterFree (Event.freesPcb 0) (Event.touchesPcb 0)
      (closeEvents closeWaitWorld 0 (some 0) .ok) := by decide

/-- Where `tcp_close` has freed the block, `tcp_abort` frees it a second time. -/
theorem countP_freesPcb_closeEvents (w : World) (id : ℕ) (es : Option ℕ) (fin : Err) :
    (closeEvents w id es fin).countP (Event.freesPcb id) =
      if (w.pcbs id).freedByClose then 2 else 1 := by
  have hcall (fn : LwipCall) : Event.freesPcb id (.call fn id) = false := rfl
  have hfree : Event.freesPcb id (.pcbFree id) = true := by simp [Event.freesPcb]
  have hlate : (lateEvents id es).countP (Event.freesPcb id) = 0 := by
    cases es <;> simp [lateEvents, Event.freesPcb]
  have herr (p : Pcb) : (if p.state = .timeWait then [] else p.errEvents).countP
      (Event.freesPcb id) = 0 := by
    refine List.countP_eq_zero.mpr fun e he => ?_
    split_ifs at he
    · exact absurd he List.not_mem_nil
    · obtain ⟨es, rfl⟩ := mem_errEvents he
      simp [Event.freesPcb]
  rw [closeEvents, log_close, log_tcpAbort, log_tcpClose, List.countP_append, hlate]
  simp only [List.countP_cons, List.countP_append, herr, hcall, hfree]
  by_cases hclose : (w.pcbs id).freedByClose
  · simp [hclose, hfree]
  · simp [hclose]

/-! ## The callbacks -/

abbrev Chain := List (List U8)

def totLen (p : Chain) : ℕ := (p.map List.length).sum

def memcpy (buf src : List U8) : List U8 := src ++ buf.drop src.length

def copyRevdata : Chain → ℕ → List U8 → List U8
  | [], _, buf => buf
  | seg :: rest, dataLen, buf =>
    let room := tcpClientMaxrxBuffsize - dataLen
    let buf := memcpy buf (if seg.length > room then seg.take room else seg)
    let dataLen := dataLen + seg.length
    if dataLen > tcpClientMaxrxBuffsize then buf else copyRevdata rest dataLen buf

namespace World

def fault (w : World) : World := { w with mode := .stopped }

def newEs (w : World) (d : ClientData) : World :=
  ({ w with nextEs := w.nextEs + 1 }.emit (.memMalloc w.nextEs)).emit (.esAccess w.nextEs)
    |>.setEs w.nextEs d

end World

/-- `ret_err`, unset when `mem_malloc` fails, makes no difference to the block. -/
def tcpConnectClient (w : World) (id : ℕ) (err : Err) (memOk : Bool) (fin : Err) : World :=
  if err = .ok then
    if memOk then
      let es := w.nextEs
      let w := w.newEs ⟨.connected, id, false⟩
      let w := tcpArg w id (some es)
      let w := tcpRecv w id .tcpRecvClient
      let w := tcpPoll w id true
      let w := tcpSent w id true
      let w := tcpErr w id true
      { w with tcpClientFlag := setFlag w.tcpClientFlag connectFlag }
    else w
  else tcpClientConnectClose w id none fin

def tcpRecvClient (w : World) (arg : Option ℕ) (id : ℕ) (p : Option Chain) (err : Err) :
    World × Err :=
  match p, arg with
  | none, none => (w.fault, .ok)
  | none, some es =>
    ((w.emit (.esAccess es)).setEs es { w.es es with state := .closing, p := false }, .ok)
  | some p, arg =>
    if err ≠ .ok then (w, err)
    else
      match arg with
      | none => (w.fault, .ok)
      | some es =>
        let w := w.emit (.esAccess es)
        if (w.es es).state = .connected then
          let revdata := copyRevdata p 0 (List.replicate tcpClientMaxrxBuffsize 0)
          let w := { w with
            tcpClientRevdata := revdata
            tcpClientFlag := setFlag w.tcpClientFlag revcdataFlag }
          (tcpRecved w id (totLen p), .ok)
        else
          let w := tcpRecved w id (totLen p)
          (w.setEs es { w.es es with p := false }, .ok)

/-- The loop over a chain of one pbuf, with its uses of the block logged as `use`, and whether
`es->p` is left set. `fits` is the comparison with `tcp_sndbuf`, `wr` the answer of `tcp_write`. -/
def tcpClientSenddata (w : World) (use : Event) (fits : Bool) (wr : Err) : World × Bool :=
  let w := w.emit use
  if fits then (w.emit use, decide (wr ≠ .ok)) else (w, true)

def tcpSentClient (w : World) (arg : Option ℕ) (id : ℕ) (fits : Bool) (wr : Err) : World :=
  match arg with
  | none => w.fault
  | some es =>
    let w := w.emit (.esAccess es)
    if (w.es es).p then
      let (w, p) := tcpClientSenddata w (.call .tcpWrite id) fits wr
      w.setEs es { w.es es with p := p }
    else w

def tcpPollClient (w : World) (arg : Option ℕ) (id : ℕ) (fin : Err) : World × Err :=
  match arg with
  | some es =>
    let w := w.emit (.esAccess es)
    if (w.es es).state = .closing then (tcpClientConnectClose w id (some es) fin, .ok) else (w, .ok)
  | none => (tcpAbort w id, .abrt)

end EnvirMonitor.Client
