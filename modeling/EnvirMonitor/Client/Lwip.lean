import EnvirMonitor.Machine.Words
import Mathlib.Tactic

/-! The TCP control blocks of lwIP as the client sees them: the calls that close, abort and
configure a connection, the callbacks lwIP makes, and a log of what is called, freed and used. -/

namespace EnvirMonitor.Client
open Machine

def tcpMss : ℕ := 1500 - 40
def tcpWnd : ℕ := 2 * tcpMss

/-- `err_t`, as far as the client tells its values apart. -/
inductive Err
  | ok | mem | abrt | rst
  deriving DecidableEq

inductive TcpState
  | closed | listen | synSent | synRcvd | established | finWait1 | finWait2 | closeWait | closing
  | lastAck | timeWait
  deriving DecidableEq

/-- `pcb->recv`: unset, the default of `tcp_alloc`, or the client's callback. -/
inductive RecvFn
  | null | tcpRecvNull | tcpRecvClient
  deriving DecidableEq

/-- `refused` and `rxClosed` are `refused_data != NULL` and `TF_RXCLOSED`. -/
structure Pcb where
  state : TcpState
  callbackArg : Option ℕ
  recv : RecvFn
  sent : Bool
  errf : Bool
  poll : Bool
  rcvWnd : ℕ
  refused : Bool
  rxClosed : Bool

namespace Pcb

def fresh : Pcb := ⟨.closed, none, .tcpRecvNull, false, false, false, tcpWnd, false, false⟩

def purge (p : Pcb) : Pcb :=
  if p.state = .closed ∨ p.state = .timeWait ∨ p.state = .listen then p
  else { p with refused := false }

/-- `tcp_pcb_remove` -/
def remove (p : Pcb) : Pcb := { p.purge with state := .closed }

end Pcb

inductive LwipCall
  | tcpClose | tcpAbort | tcpArg | tcpRecv | tcpSent | tcpErr | tcpPoll | tcpRecved | tcpWrite

/-- `mainUse` is an access of the main loop through `client_pcb`. -/
inductive Event
  | call (fn : LwipCall) (pcb : ℕ)
  | mainUse (pcb : Option ℕ)
  | pcbFree (pcb : ℕ)
  | memMalloc (es : ℕ)
  | memFree (es : ℕ)
  | esAccess (es : ℕ)

namespace Event

def freesPcb (id : ℕ) : Event → Bool
  | .pcbFree pcb => pcb = id
  | _ => false

def touchesPcb (id : ℕ) : Event → Bool
  | .call _ pcb => pcb = id
  | .pcbFree pcb => pcb = id
  | _ => false

def mainUsesPcb (id : ℕ) : Event → Bool
  | .mainUse (some pcb) => pcb = id
  | _ => false

def freesEs (id : ℕ) : Event → Bool
  | .memFree es => es = id
  | _ => false

def touchesEs (id : ℕ) : Event → Bool
  | .memFree es => es = id
  | .esAccess es => es = id
  | _ => false

end Event

inductive ClientState
  | none | connected | closing
  deriving DecidableEq

/-- `struct _tcp_client_data`; `p` is `p != NULL`. -/
structure ClientData where
  state : ClientState
  pcb : ℕ
  p : Bool

inductive Mode
  | running | mainStopped | stopped
  deriving DecidableEq

/-- Control blocks and connection records are numbered by their allocation; the contents of a
freed one stay readable. The log is newest first. -/
structure World where
  tcpClientFlag : U8
  tcpClientRevdata : List U8
  clientPcb : Option ℕ
  pcbs : ℕ → Pcb
  live : ℕ → Bool
  nextPcb : ℕ
  es : ℕ → ClientData
  nextEs : ℕ
  prestatus : U8
  preindex : U8
  prestart : U8
  timecnt : U8
  mode : Mode
  log : List Event

namespace World

def emit (w : World) (e : Event) : World := { w with log := e :: w.log }

def setPcb (w : World) (id : ℕ) (p : Pcb) : World :=
  { w with pcbs := Function.update w.pcbs id p }

def setEs (w : World) (es : ℕ) (d : ClientData) : World := { w with es := Function.update w.es es d }

/-- `memp_free(MEMP_TCP_PCB, pcb)` -/
def mempFree (w : World) (id : ℕ) : World :=
  { w with live := Function.update w.live id false }.emit (.pcbFree id)

def memFree (w : World) (es : ℕ) : World := w.emit (.memFree es)

end World

/-! ## Configuring a connection -/

def configure (w : World) (fn : LwipCall) (id : ℕ) (f : Pcb → Pcb) : World :=
  (w.emit (.call fn id)).setPcb id (f (w.pcbs id))

def tcpArg (w : World) (id : ℕ) (arg : Option ℕ) : World :=
  configure w .tcpArg id fun p => { p with callbackArg := arg }

def tcpRecv (w : World) (id : ℕ) (recv : RecvFn) : World :=
  configure w .tcpRecv id fun p => { p with recv := recv }

def tcpSent (w : World) (id : ℕ) (sent : Bool) : World :=
  configure w .tcpSent id fun p => { p with sent := sent }

def tcpErr (w : World) (id : ℕ) (errf : Bool) : World :=
  configure w .tcpErr id fun p => { p with errf := errf }

def tcpPoll (w : World) (id : ℕ) (poll : Bool) : World :=
  configure w .tcpPoll id fun p => { p with poll := poll }

def tcpRecved (w : World) (id : ℕ) (len : ℕ) : World :=
  configure w .tcpRecved id fun p => { p with rcvWnd := min ((p.rcvWnd + len) % 2 ^ 16) tcpWnd }

section
variable (w : World) (fn : LwipCall) (id : ℕ) (f : Pcb → Pcb)

@[simp] theorem configure_flag : (configure w fn id f).tcpClientFlag = w.tcpClientFlag := rfl
@[simp] theorem configure_clientPcb : (configure w fn id f).clientPcb = w.clientPcb := rfl
@[simp] theorem configure_live : (configure w fn id f).live = w.live := rfl
@[simp] theorem configure_nextPcb : (configure w fn id f).nextPcb = w.nextPcb := rfl
@[simp] theorem configure_es : (configure w fn id f).es = w.es := rfl
@[simp] theorem configure_nextEs : (configure w fn id f).nextEs = w.nextEs := rfl
@[simp] theorem configure_mode : (configure w fn id f).mode = w.mode := rfl
@[simp] theorem configure_log : (configure w fn id f).log = .call fn id :: w.log := rfl

@[simp] theorem configure_pcbs_self : (configure w fn id f).pcbs id = f (w.pcbs id) := by
  simp [configure, World.setPcb]

theorem configure_pcbs_ne {i : ℕ} (hi : i ≠ id) : (configure w fn id f).pcbs i = w.pcbs i := by
  simp [configure, World.setPcb, World.emit, hi]

end

/-! ## Closing and aborting -/

/-- `fin` is what `tcp_send_fin` returns. -/
def tcpCloseShutdown (w : World) (id : ℕ) (rstOnUnackedData : Bool) (fin : Err) : World × Err :=
  let p := w.pcbs id
  if rstOnUnackedData ∧ (p.state = .established ∨ p.state = .closeWait) ∧
      (p.refused ∨ p.rcvWnd ≠ tcpWnd) then
    if p.state = .established then (w.setPcb id { p.purge with state := .timeWait }, .ok)
    else ((w.setPcb id p.purge).mempFree id, .ok)
  else
    match p.state with
    | .closed => (w.mempFree id, .ok)
    | .listen | .synSent => ((w.setPcb id p.remove).mempFree id, .ok)
    | .synRcvd | .established =>
      if fin = .ok then (w.setPcb id { p with state := .finWait1 }, fin) else (w, fin)
    | .closeWait => if fin = .ok then (w.setPcb id { p with state := .lastAck }, fin) else (w, fin)
    | _ => (w, .ok)

def Pcb.freedByClose (p : Pcb) : Prop :=
  p.state = .closed ∨ p.state = .listen ∨ p.state = .synSent ∨
    p.state = .closeWait ∧ (p.refused = true ∨ p.rcvWnd ≠ tcpWnd)

instance (p : Pcb) : Decidable p.freedByClose := inferInstanceAs (Decidable (_ ∨ _))

def tcpClose (w : World) (id : ℕ) (fin : Err) : World × Err :=
  let w := w.emit (.call .tcpClose id)
  let p := w.pcbs id
  let w := if p.state ≠ .listen then w.setPcb id { p with rxClosed := true } else w
  tcpCloseShutdown w id true fin

theorem setPcb_self (w : World) (id : ℕ) : w.setPcb id (w.pcbs id) = w := by
  simp [World.setPcb]

theorem setPcb_setPcb (w : World) (id : ℕ) (p q : Pcb) :
    (w.setPcb id p).setPcb id q = w.setPcb id q := by
  simp [World.setPcb]

theorem tcpCloseShutdown_eq (w : World) (id : ℕ) (fin : Err) :
    ∃ p, (tcpCloseShutdown w id true fin).1 =
      if (w.pcbs id).freedByClose then (w.setPcb id p).mempFree id else w.setPcb id p := by
  have hkeep : w = w.setPcb id (w.pcbs id) := (setPcb_self w id).symm
  obtain ⟨state, hstate⟩ : ∃ state, (w.pcbs id).state = state := ⟨_, rfl⟩
  simp only [tcpCloseShutdown, Pcb.freedByClose, hstate]
  cases state <;> simp
  case closed => exact ⟨_, congrArg (World.mempFree · id) hkeep⟩
  case listen | synSent => exact ⟨_, rfl⟩
  case established | synRcvd => split_ifs <;> first | exact ⟨_, rfl⟩ | exact ⟨_, hkeep⟩
  case closeWait => split_ifs <;> first | exact ⟨_, rfl⟩ | exact ⟨_, hkeep⟩
  all_goals exact ⟨_, hkeep⟩

theorem tcpClose_eq (w : World) (id : ℕ) (fin : Err) : ∃ p, (tcpClose w id fin).1 =
    if (w.pcbs id).freedByClose then ((w.emit (.call .tcpClose id)).setPcb id p).mempFree id
    else (w.emit (.call .tcpClose id)).setPcb id p := by
  unfold tcpClose
  generalize hw₀ : w.emit (.call .tcpClose id) = w₀
  have hpcb : w.pcbs id = w₀.pcbs id := hw₀ ▸ rfl
  rw [hpcb]
  by_cases hlisten : (w₀.pcbs id).state = .listen
  · simpa only [hlisten, ne_eq, not_true_eq_false, if_false] using tcpCloseShutdown_eq w₀ id fin
  · simp only [ne_eq, hlisten, not_false_eq_true, if_true]
    obtain ⟨p, hp⟩ := tcpCloseShutdown_eq (w₀.setPcb id { w₀.pcbs id with rxClosed := true }) id fin
    have hfree : ((w₀.setPcb id { w₀.pcbs id with rxClosed := true }).pcbs id).freedByClose ↔
        (w₀.pcbs id).freedByClose := by simp [World.setPcb, Pcb.freedByClose]
    simp only [setPcb_setPcb, hfree] at hp
    exact ⟨p, hp⟩

theorem log_tcpClose (w : World) (id : ℕ) (fin : Err) : (tcpClose w id fin).1.log =
    (if (w.pcbs id).freedByClose then [.pcbFree id] else []) ++ .call .tcpClose id :: w.log := by
  obtain ⟨p, hp⟩ := tcpClose_eq w id fin
  rw [hp]
  split_ifs <;> rfl

def tcpErrClient (w : World) (arg : Option ℕ) : World :=
  match arg with
  | some es => w.memFree es
  | none => w

def eventErr (w : World) (errf : Bool) (arg : Option ℕ) : World :=
  if errf then tcpErrClient w arg else w

def Pcb.errEvents (p : Pcb) : List Event :=
  match p.errf, p.callbackArg with
  | true, some es => [.memFree es]
  | _, _ => []

theorem eventErr_eq (w : World) (p : Pcb) :
    eventErr w p.errf p.callbackArg = { w with log := p.errEvents ++ w.log } := by
  unfold Pcb.errEvents
  cases p.errf <;> cases p.callbackArg <;> rfl

def tcpAbandon (w : World) (id : ℕ) : World :=
  let p := w.pcbs id
  if p.state = .timeWait then (w.setPcb id p.remove).mempFree id
  else eventErr ((w.setPcb id p.remove).mempFree id) p.errf p.callbackArg

def tcpAbort (w : World) (id : ℕ) : World := tcpAbandon (w.emit (.call .tcpAbort id)) id

theorem tcpAbort_eq (w : World) (id : ℕ) : tcpAbort w id =
    let w' := ((w.emit (.call .tcpAbort id)).setPcb id (w.pcbs id).remove).mempFree id
    { w' with log :=
      (if (w.pcbs id).state = .timeWait then [] else (w.pcbs id).errEvents) ++ w'.log } := by
  have hpcb : (w.emit (.call .tcpAbort id)).pcbs id = w.pcbs id := rfl
  simp only [tcpAbort, tcpAbandon, eventErr_eq, hpcb]
  split_ifs <;> rfl

theorem frame_tcpAbort (w : World) (id : ℕ) :
    (tcpAbort w id).live = Function.update w.live id false ∧
      (tcpAbort w id).nextPcb = w.nextPcb ∧ (tcpAbort w id).mode = w.mode := by
  rw [tcpAbort_eq]
  exact ⟨rfl, rfl, rfl⟩

theorem log_tcpAbort (w : World) (id : ℕ) : (tcpAbort w id).log =
    (if (w.pcbs id).state = .timeWait then [] else (w.pcbs id).errEvents) ++
      .pcbFree id :: .call .tcpAbort id :: w.log := by
  rw [tcpAbort_eq]
  rfl

theorem mem_errEvents {p : Pcb} {e : Event} (h : e ∈ p.errEvents) : ∃ es, e = .memFree es := by
  unfold Pcb.errEvents at h
  split at h
  · exact ⟨_, List.mem_singleton.mp h⟩
  · exact absurd h List.not_mem_nil

/-! ## The end of a connection that the peer or the timer decides -/

/-- `tcp_input` on an acceptable RST: the err callback runs before the block is freed. -/
def inputReset (w : World) (id : ℕ) : World :=
  let p := w.pcbs id
  let w := eventErr w p.errf p.callbackArg
  (w.setPcb id p.remove).mempFree id

/-- `tcp_slowtmr` after the last retransmission: the block is freed first. -/
def slowtmrRemove (w : World) (id : ℕ) : World :=
  let p := w.pcbs id
  eventErr ((w.setPcb id p.purge).mempFree id) p.errf p.callbackArg

end EnvirMonitor.Client
