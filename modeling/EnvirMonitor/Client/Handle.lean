import EnvirMonitor.Client.Record

/-! `client_pcb` and the flags over whole runs: they agree with lwIP's own view of the connection
as long as it ends through the client's close sequence, and a reset leaves the handle behind. -/

namespace EnvirMonitor.Client
open Machine

/-! ## The handle -/

structure HandleOk (w : World) : Prop where
  handle : ∀ id, w.clientPcb = some id →
    w.live id = true ∧ ((w.pcbs id).state = .synSent ∨ (w.pcbs id).connected)
  flags : hasFlag w.tcpClientFlag startFlag = true ∨ hasFlag w.tcpClientFlag connectFlag = true →
    ∃ id, w.clientPcb = some id ∧ w.live id = true ∧ (w.pcbs id).connected
  uses : ∀ id, NoUseAfterFree (Event.freesPcb id) (Event.mainUsesPcb id) w.log
  null : .mainUse none ∉ w.log
  restart : (∀ id, w.live id = false) → ∃ w', step w (.wkUp .connected) = some w' ∧
    ∃ id, w'.clientPcb = some id ∧ w'.live id = true ∧ (w'.pcbs id).state = .synSent

/-- The connection ends through `tcp_client_connect_close` alone, and every attempt to open one
gets as far as sending its SYN. -/
def EndsByClose (w : World) : Step → Prop
  | .wkUp o => w.clientPcb = none → o = .connected
  | .rst id | .timeout id => w.clientPcb ≠ some id
  -- without a record, lwIP itself answers the FIN by closing
  | .fin id fin => (w.pcbs id).callbackArg = none →
      fin ≠ .ok ∧ (w.pcbs id).rcvWnd = tcpWnd
  | .data id _ _ => ¬ ((w.pcbs id).refused = false ∧ (w.pcbs id).rxClosed = true)
  | _ => True

instance (w : World) : (s : Step) → Decidable (EndsByClose w s)
  | .wkUp _ | .fin .. => inferInstanceAs (Decidable (_ → _))
  | .rst _ | .timeout _ => inferInstanceAs (Decidable (_ ≠ _))
  | .data .. => inferInstanceAs (Decidable (¬ _))
  | .synAck .. | .acked .. | .poll .. | .tim2 | .key1 | .mainPass .. => isTrue trivial

/-! ## The log -/

structure LogInv (w : World) : Prop where
  unfreed : ∀ id, w.live id = true → ∀ e ∈ w.log, e.freesPcb id = false
  fresh : ∀ id, w.nextPcb ≤ id → w.live id = false ∧ ∀ e ∈ w.log, e.freesPcb id = false
  uses : ∀ id, NoUseAfterFree (Event.freesPcb id) (Event.mainUsesPcb id) w.log
  null : .mainUse none ∉ w.log

theorem Mild.freesPcb {w : World} {e : Event} (h : Mild w e) (id : ℕ) : e.freesPcb id = false := by
  cases e <;> first | rfl | exact h.elim

theorem eq_mainUse {e : Event} {id : ℕ} (h : e.mainUsesPcb id = true) :
    e = .mainUse (some id) := by
  cases e with
  | mainUse p =>
    cases p with
    | some i =>
      obtain rfl : i = id := of_decide_eq_true h
      rfl
    | none => exact absurd h Bool.false_ne_true
  | _ => exact absurd h Bool.false_ne_true

theorem logInv_append {w w' : World} (hL : LogInv w) (hlive : w'.live = w.live)
    (hnext : w'.nextPcb = w.nextPcb) {new : List Event} (hlog : w'.log = new ++ w.log)
    (hfree : ∀ e ∈ new, ∀ id, e.freesPcb id = false)
    (huse : ∀ p, .mainUse p ∈ new → ∃ id, p = some id ∧ w.live id = true) : LogInv w' := by
  have hunfreed {id : ℕ} (hold : ∀ e ∈ w.log, e.freesPcb id = false) :
      ∀ e ∈ w'.log, e.freesPcb id = false := by
    intro e he
    rw [hlog] at he
    exact (List.mem_append.mp he).elim (fun he => hfree e he id) (hold e)
  refine ⟨fun id hid => ?_, fun id hid => ?_, fun id => ?_, fun hnull => ?_⟩
  · exact hunfreed (hL.unfreed id (hlive ▸ hid))
  · rw [hnext] at hid
    exact ⟨hlive ▸ (hL.fresh id hid).1, hunfreed (hL.fresh id hid).2⟩
  · rw [hlog]
    -- a live block may be used, a dead one is not used any more
    cases hid : w.live id with
    | true =>
      apply noUseAfterFree_append_unfreed
      · exact noUseAfterFree_of_unfreed fun e he => hfree e he id
      · exact hL.unfreed id hid
    | false =>
      refine noUseAfterFree_append_unused (hL.uses id) fun e he => ?_
      by_contra hmain
      obtain rfl := eq_mainUse (Bool.eq_true_of_not_eq_false hmain)
      obtain ⟨i, hi, hlive⟩ := huse _ he
      rw [← Option.some.inj hi, hid] at hlive
      exact Bool.noConfusion hlive
  · rw [hlog] at hnull
    rcases List.mem_append.mp hnull with hnull | hnull
    · obtain ⟨i, hi, -⟩ := huse _ hnull
      exact absurd hi (by simp)
    · exact hL.null hnull

theorem logInv_keeps {w w' : World} (hL : LogInv w) (h : Keeps w w') {id : ℕ}
    (hclient : w.clientPcb = some id) (hlive : w.live id = true) : LogInv w' := by
  obtain ⟨new, hlog, hnew⟩ := h.log
  exact logInv_append hL h.live h.nextPcb hlog (fun e he => (hnew e he).freesPcb)
    fun p hp => ⟨id, (hnew _ hp).trans hclient, hlive⟩

theorem logInv_newPcb {w : World} (hL : LogInv w) (p : Pcb) : LogInv (w.newPcb p) := by
  refine ⟨fun id hid => ?_, fun id hid => ?_, hL.uses, hL.null⟩
  · rcases eq_or_ne id w.nextPcb with rfl | hne
    · exact (hL.fresh _ le_rfl).2
    · exact hL.unfreed id (by simpa [World.newPcb, hne] using hid)
  · have hlt : w.nextPcb < id := hid
    have hfresh := hL.fresh id hlt.le
    exact ⟨by simpa [World.newPcb, hlt.ne'] using hfresh.1, hfresh.2⟩

/-! ## Closing -/

def Event.closesOnly (id : ℕ) : Event → Prop
  | .mainUse _ => False
  | .pcbFree i => i = id
  | _ => True

structure ClosedBy (id : ℕ) (w w' : World) : Prop where
  clientPcb : w'.clientPcb = none
  flag : w'.tcpClientFlag = 0
  live : w'.live = Function.update w.live id false
  nextPcb : w'.nextPcb = w.nextPcb
  mode : w'.mode = w.mode
  log : ∃ new, w'.log = new ++ w.log ∧ ∀ e ∈ new, e.closesOnly id

theorem closesOnly_tcpClose (w : World) (id : ℕ) (fin : Err) :
    ∃ new, (tcpClose w id fin).1.log = new ++ w.log ∧ ∀ e ∈ new, e.closesOnly id := by
  rw [log_tcpClose]
  split_ifs
  · refine ⟨[.pcbFree id, .call .tcpClose id], rfl, ?_⟩
    exact List.forall_mem_cons.mpr ⟨rfl, List.forall_mem_singleton.mpr trivial⟩
  · exact ⟨[.call .tcpClose id], rfl, List.forall_mem_singleton.mpr trivial⟩

theorem closesOnly_tcpAbort (w : World) (id : ℕ) :
    ∃ new, (tcpAbort w id).log = new ++ w.log ∧ ∀ e ∈ new, e.closesOnly id := by
  have hfree : ∀ e ∈ [Event.pcbFree id, .call .tcpAbort id], e.closesOnly id :=
    List.forall_mem_cons.mpr ⟨rfl, List.forall_mem_singleton.mpr trivial⟩
  rw [log_tcpAbort]
  split_ifs
  · exact ⟨[.pcbFree id, .call .tcpAbort id], rfl, hfree⟩
  · refine ⟨(w.pcbs id).errEvents ++ [.pcbFree id, .call .tcpAbort id],
      by rw [List.append_assoc]; rfl, List.forall_mem_append.mpr ⟨fun e he => ?_, hfree⟩⟩
    obtain ⟨es, rfl⟩ := mem_errEvents he
    trivial

theorem closesOnly_lateEvents (id : ℕ) (es : Option ℕ) : ∀ e ∈ lateEvents id es, e.closesOnly id := by
  cases es <;> simp [lateEvents, Event.closesOnly]

theorem closesOnly_close (w : World) (id : ℕ) (es : Option ℕ) (fin : Err) :
    ∃ new, (tcpClientConnectClose w id es fin).log = new ++ w.log ∧
      ∀ e ∈ new, e.closesOnly id := by
  obtain ⟨close, hclose, hcloses⟩ := closesOnly_tcpClose w id fin
  obtain ⟨abort, habort, haborts⟩ := closesOnly_tcpAbort (tcpClose w id fin).1 id
  refine ⟨lateEvents id es ++ (.call .tcpArg id :: (abort ++ close)), ?_, ?_⟩
  · rw [log_close, habort, hclose, List.append_assoc, List.cons_append, List.append_assoc]
  · refine List.forall_mem_append.mpr ⟨closesOnly_lateEvents id es, ?_⟩
    exact List.forall_mem_cons.mpr ⟨trivial, List.forall_mem_append.mpr ⟨haborts, hcloses⟩⟩

theorem closedBy_close (w : World) (id : ℕ) (es : Option ℕ) (fin : Err) :
    ClosedBy id w (tcpClientConnectClose w id es fin) := by
  obtain ⟨p, hclose⟩ := tcpClose_eq w id fin
  have hframe : (tcpClose w id fin).1.nextPcb = w.nextPcb ∧ (tcpClose w id fin).1.mode = w.mode ∧
      Function.update (tcpClose w id fin).1.live id false = Function.update w.live id false := by
    rw [hclose]
    split_ifs
    · exact ⟨rfl, rfl, Function.update_idem ..⟩
    · exact ⟨rfl, rfl, rfl⟩
  obtain ⟨hnext, hmode, hlive⟩ := hframe
  obtain ⟨hlive', hnext', hmode'⟩ := frame_close w id es fin
  obtain ⟨hlive'', hnext'', hmode''⟩ := frame_tcpAbort (tcpClose w id fin).1 id
  exact ⟨rfl, rfl, hlive'.trans (hlive''.trans hlive), hnext'.trans (hnext''.trans hnext),
    hmode'.trans (hmode''.trans hmode), closesOnly_close w id es fin⟩

theorem logInv_closed {w w' : World} (hL : LogInv w) {id : ℕ} (hid : w.live id = true)
    (h : ClosedBy id w w') : LogInv w' := by
  obtain ⟨new, hlog, hnew⟩ := h.log
  have hfree (i : ℕ) (hi : i ≠ id) : ∀ e ∈ new, e.freesPcb i = false := by
    intro e he
    have := hnew e he
    cases e with
    | pcbFree j =>
      rw [Event.closesOnly] at this
      simp [Event.freesPcb, this, hi.symm]
    | _ => rfl
  have huse (i : ℕ) : ∀ e ∈ new, e.mainUsesPcb i = false := by
    intro e he
    have := hnew e he
    cases e with
    | mainUse p => exact this.elim
    | _ => rfl
  have hne {i : ℕ} (hi : w'.live i = true) : i ≠ id ∧ w.live i = true := by
    rw [h.live] at hi
    rcases eq_or_ne i id with rfl | hne
    · simp at hi
    · exact ⟨hne, by simpa [hne] using hi⟩
  refine ⟨fun i hi e he => ?_, fun i hi => ?_, fun i => ?_, fun hmem => ?_⟩
  · obtain ⟨hne, hlive⟩ := hne hi
    rw [hlog] at he
    exact (List.mem_append.mp he).elim (hfree i hne e) (hL.unfreed i hlive e)
  · rw [h.nextPcb] at hi
    obtain ⟨hdead, hunfreed⟩ := hL.fresh i hi
    have hne : i ≠ id := by
      rintro rfl
      rw [hid] at hdead
      exact Bool.noConfusion hdead
    refine ⟨by rw [h.live, Function.update_of_ne hne, hdead], fun e he => ?_⟩
    rw [hlog] at he
    exact (List.mem_append.mp he).elim (hfree i hne e) (hunfreed e)
  · rw [hlog]
    exact noUseAfterFree_append_unused (hL.uses i) (huse i)
  · rw [hlog] at hmem
    exact (List.mem_append.mp hmem).elim (fun he => hnew _ he) hL.null

/-! ## The phases of the client -/

structure FlagsClear (f : U8) : Prop where
  start : hasFlag f startFlag = false
  connect : hasFlag f connectFlag = false
  revcdata : hasFlag f revcdataFlag = false

structure Idle (w : World) : Prop where
  client : w.clientPcb = none
  dead : ∀ id, w.live id = false
  flags : FlagsClear w.tcpClientFlag
  mode : w.mode = .running

structure Joined (w : World) (id : ℕ) : Prop where
  state : (w.pcbs id).connected
  recv : (w.pcbs id).recv = .tcpRecvClient
  arg : ∃ es, (w.pcbs id).callbackArg = some es

structure Unjoined (w : World) (id : ℕ) : Prop where
  state : (w.pcbs id).state = .synSent ∨ (w.pcbs id).connected
  recv : (w.pcbs id).recv = .tcpRecvNull
  arg : (w.pcbs id).callbackArg = none
  sent : (w.pcbs id).sent = false
  poll : (w.pcbs id).poll = false
  flags : FlagsClear w.tcpClientFlag

structure Holds (w : World) (id : ℕ) : Prop where
  client : w.clientPcb = some id
  live : w.live id = true
  others : ∀ i ≠ id, w.live i = false
  phase : Joined w id ∨ Unjoined w id

structure HandleInv (w : World) : Prop where
  log : LogInv w
  phase : Idle w ∨ ∃ id, Holds w id

theorem flagsClear_zero : FlagsClear 0 := by constructor <;> exact hasFlag_zero _

theorem FlagsClear.setSenddata {f : U8} (h : FlagsClear f) : FlagsClear (setFlag f senddataFlag) := by
  constructor <;> rw [hasFlag_setFlag _ (by decide)]
  · rw [h.start]
    rfl
  · rw [h.connect]
    rfl
  · rw [h.revcdata]
    rfl

theorem FlagsClear.clear {f : U8} (h : FlagsClear f) (n : ℕ) : FlagsClear (clearFlag f n) := by
  constructor <;> rw [hasFlag_clearFlag _ (by decide)]
  · rw [h.start, Bool.false_and]
  · rw [h.connect, Bool.false_and]
  · rw [h.revcdata, Bool.false_and]

theorem eq_of_live {w : World} {id i : ℕ} (h : Holds w id) (hi : w.live i = true) : i = id := by
  by_contra hne
  rw [h.others i hne] at hi
  exact Bool.noConfusion hi

theorem Holds.keeps {w w' : World} {id : ℕ} (h : Holds w id) (hk : Keeps w w')
    (hphase : Joined w' id ∨ Unjoined w' id) : Holds w' id :=
  ⟨hk.clientPcb.trans h.client, hk.live ▸ h.live, fun i hi => hk.live ▸ h.others i hi, hphase⟩

theorem handleInv_keeps {w w' : World} {id : ℕ} (hL : LogInv w) (h : Holds w id) (hk : Keeps w w')
    (hphase : Joined w' id ∨ Unjoined w' id) : HandleInv w' :=
  ⟨logInv_keeps hL hk h.client h.live, Or.inr ⟨id, h.keeps hk hphase⟩⟩

theorem Joined.keeps {w w' : World} {id : ℕ} (h : Joined w id) (hk : Keeps w w')
    (hstate : (w'.pcbs id).state = (w.pcbs id).state) : Joined w' id := by
  refine ⟨?_, (hk.pcbs id).recv.trans h.recv, ?_⟩
  · rw [Pcb.connected, hstate]
    exact h.state
  · rw [(hk.pcbs id).arg]
    exact h.arg

/-! ### The main loop and the interrupts -/

theorem pcbs_oledShowInterfaceData (w : World) (index : U8) :
    (oledShowInterfaceData w index).pcbs = w.pcbs := by
  simp only [oledShowInterfaceData]
  split_ifs <;> rfl

theorem pcbs_receiveCommand (w : World) : (receiveCommand w).pcbs = w.pcbs := by
  simp only [receiveCommand]
  split_ifs <;> rfl

theorem state_sendEnvirPacketData (w : World) (memOk pbufOk fits : Bool) (wr : Err) (i : ℕ) :
    ((sendEnvirPacketData w memOk pbufOk fits wr).pcbs i).state = (w.pcbs i).state := by
  have hset (id : ℕ) : ((w.setPcb id { w.pcbs id with sent := true }).pcbs i).state =
      (w.pcbs i).state := by
    rcases eq_or_ne i id with rfl | hi
    · simp [World.setPcb]
    · simp [World.setPcb, hi]
  simp only [sendEnvirPacketData, tcpClientSenddata]
  split_ifs
  all_goals try rfl
  all_goals
    cases hclient : w.clientPcb with
    | none => simp [World.emit, hclient]
    | some id => simpa [World.emit, hclient, World.setPcb] using hset id

theorem state_mainPass (w : World) (index : U8) (memOk pbufOk fits : Bool) (wr : Err) (i : ℕ) :
    ((mainPass w index memOk pbufOk fits wr).pcbs i).state = (w.pcbs i).state := by
  have holed := pcbs_oledShowInterfaceData w index
  simp only [mainPass]
  split_ifs
  · rw [pcbs_receiveCommand]
    exact (state_sendEnvirPacketData _ memOk pbufOk fits wr i).trans (by rw [holed])
  · rw [state_sendEnvirPacketData, holed]
  · rw [pcbs_receiveCommand, holed]

theorem mainPass_of_flagsClear {w : World} (h : FlagsClear w.tcpClientFlag) (index : U8)
    (memOk pbufOk fits : Bool) (wr : Err) : ∃ prestatus preindex prestart,
      mainPass w index memOk pbufOk fits wr =
        { w with prestatus := prestatus, preindex := preindex, prestart := prestart } := by
  obtain ⟨a, b, c, holed⟩ : ∃ a b c, oledShowInterfaceData w index =
      { w with prestatus := a, preindex := b, prestart := c } := by
    simp only [oledShowInterfaceData]
    have hconnect := h.connect
    split_ifs <;> first | exact ⟨_, _, _, rfl⟩ | simp_all
  -- neither the upload nor a command runs
  refine ⟨a, b, c, ?_⟩
  simp [mainPass, holed, h.start, receiveCommand, h.revcdata]

/-! ### Deliveries -/

theorem state_tcpRecved (w : World) (id len : ℕ) :
    ((tcpRecved w id len).pcbs id).state = (w.pcbs id).state := by simp [tcpRecved]

theorem state_tcpRecvClient (w : World) (arg : Option ℕ) (id : ℕ) (p : Option Chain) (err : Err) :
    ((tcpRecvClient w arg id p err).1.pcbs id).state = (w.pcbs id).state := by
  cases p with
  | none => cases arg <;> rfl
  | some p =>
    simp only [tcpRecvClient]
    split_ifs
    · rfl
    · cases arg with
      | none => rfl
      | some es =>
        dsimp only
        split_ifs
        · exact state_tcpRecved _ id _
        · exact state_tcpRecved _ id _

theorem state_inputData (w : World) {id : ℕ}
    (hopen : ¬ ((w.pcbs id).refused = false ∧ (w.pcbs id).rxClosed = true)) (p : Chain) (err : Err) :
    ((inputData w id p err).pcbs id).state = (w.pcbs id).state := by
  simp only [inputData]
  rw [if_neg hopen]
  generalize hw₀ : w.setPcb id _ = w₀
  have hset : (w₀.pcbs id).state = (w.pcbs id).state := by
    rw [← hw₀]
    simp only [World.setPcb, Function.update_self]
    split_ifs <;> rfl
  have hrecv : ((eventRecv w₀ id p err).1.pcbs id).state = (w₀.pcbs id).state := by
    unfold eventRecv
    split
    · exact state_tcpRecvClient _ _ _ _ _
    · exact state_tcpRecved _ id _
  split_ifs
  · exact hrecv.trans hset
  · simpa [World.setPcb] using hrecv.trans hset

theorem unjoined_inputData {w : World} {id : ℕ} (h : Unjoined w id)
    (hopen : ¬ ((w.pcbs id).refused = false ∧ (w.pcbs id).rxClosed = true)) (p : Chain) (err : Err) :
    Unjoined (inputData w id p err) id := by
  have hstate := state_inputData w hopen p err
  simp only [inputData] at hstate ⊢
  rw [if_neg hopen] at hstate ⊢
  generalize hw₀ : w.setPcb id _ = w₀ at hstate ⊢
  have hrecv : (w₀.pcbs id).recv = .tcpRecvNull ∧ (w₀.pcbs id).callbackArg = none ∧
      (w₀.pcbs id).sent = false ∧ (w₀.pcbs id).poll = false := by
    rw [← hw₀]
    simp only [World.setPcb, Function.update_self]
    split_ifs <;> exact ⟨h.recv, h.arg, h.sent, h.poll⟩
  -- `tcp_recv_null` acknowledges the data and drops it
  have hevent : eventRecv w₀ id p err = (tcpRecved w₀ id (totLen p), .ok) := by
    simp [eventRecv, hrecv.1, tcpRecvNull]
  rw [hevent] at hstate ⊢
  rw [if_pos (Or.inl rfl)] at hstate ⊢
  refine ⟨?_, ?_, ?_, ?_, ?_, hw₀ ▸ h.flags⟩
  · rw [Pcb.connected, hstate]
    exact h.state
  · simpa [tcpRecved] using hrecv.1
  · simpa [tcpRecved] using hrecv.2.1
  · simpa [tcpRecved] using hrecv.2.2.1
  · simpa [tcpRecved] using hrecv.2.2.2

def Pcb.afterFin (p : Pcb) : Pcb :=
  { p with
    state := .closeWait
    rcvWnd := if p.rcvWnd - 1 ≠ tcpWnd then p.rcvWnd - 1 + 1 else p.rcvWnd - 1 }

theorem inputFin_joined {w : World} {id : ℕ} (h : Joined w id) (hlive : w.live id = true)
    (fin : Err) : Keeps w (inputFin w id fin) ∧ ((inputFin w id fin).pcbs id).state = .closeWait := by
  have hkeep : Keeps w (w.setPcb id (w.pcbs id).afterFin) :=
    keeps_setPcb ⟨rfl, rfl, rfl, by simp [Pcb.afterFin]⟩
  have hself : (w.setPcb id (w.pcbs id).afterFin).pcbs id = (w.pcbs id).afterFin :=
    Function.update_self ..
  have hfin : inputFin w id fin = (tcpRecvClient (w.setPcb id (w.pcbs id).afterFin)
      ((w.setPcb id (w.pcbs id).afterFin).pcbs id).callbackArg id none .ok).1 := by
    have hrecv : ((w.setPcb id (w.pcbs id).afterFin).pcbs id).recv = .tcpRecvClient := by
      rw [hself]
      exact h.recv
    show eventClosed (w.setPcb id (w.pcbs id).afterFin) id fin = _
    rw [eventClosed, hrecv]
  rw [hfin]
  refine ⟨hkeep.trans (keeps_tcpRecvClient (w := w.setPcb id (w.pcbs id).afterFin) hlive _ _), ?_⟩
  rw [state_tcpRecvClient, hself]
  rfl

theorem inputFin_unjoined {w : World} {id : ℕ} (h : Unjoined w id) {fin : Err} (hfin : fin ≠ .ok)
    (hwnd : (w.pcbs id).rcvWnd = tcpWnd) (hrefused : (w.pcbs id).refused = false) :
    inputFin w id fin = (w.emit (.call .tcpClose id)).setPcb id
      { (w.pcbs id).afterFin with rxClosed := true } := by
  have hself : (w.setPcb id (w.pcbs id).afterFin).pcbs id = (w.pcbs id).afterFin :=
    Function.update_self ..
  have hclose : inputFin w id fin = (tcpClose (w.setPcb id (w.pcbs id).afterFin) id fin).1 := by
    have hrecv : ((w.setPcb id (w.pcbs id).afterFin).pcbs id).recv = .tcpRecvNull := by
      rw [hself]
      exact h.recv
    show eventClosed (w.setPcb id (w.pcbs id).afterFin) id fin = _
    rw [eventClosed, hrecv]
    rfl
  have hwnd' : (w.pcbs id).afterFin.rcvWnd = tcpWnd := by
    simp [Pcb.afterFin, hwnd, tcpWnd, tcpMss]
  have hrefused' : (w.pcbs id).afterFin.refused = false := hrefused
  have hstate : (w.pcbs id).afterFin.state = .closeWait := rfl
  rw [hclose]
  simp [tcpClose, tcpCloseShutdown, World.emit, World.setPcb, hwnd', hrefused', hstate, hfin]

theorem pcbs_tcpSentClient (w : World) (arg : Option ℕ) (id : ℕ) (fits : Bool) (wr : Err) :
    (tcpSentClient w arg id fits wr).pcbs = w.pcbs := by
  cases arg with
  | none => rfl
  | some es =>
    simp only [tcpSentClient, tcpClientSenddata]
    split_ifs <;> rfl

/-! ## Runs -/

theorem handleInv_exti0 {w : World} (hI : HandleInv w) {o : ConnectOutcome}
    (hC : w.clientPcb = none → o = .connected) : HandleInv (exti0IRQHandler w o) := by
  rcases hI.phase with hidle | ⟨id, h⟩
  · obtain rfl := hC hidle.client
    have hinit : exti0IRQHandler w .connected = w.newPcb { Pcb.fresh with state := .synSent } :=
      if_pos hidle.client
    rw [hinit]
    refine ⟨logInv_newPcb hI.log _, Or.inr ⟨w.nextPcb, rfl, ?_, fun i hi => ?_, Or.inr ?_⟩⟩
    · simp [World.newPcb]
    · simpa [World.newPcb, hi] using hidle.dead i
    · exact ⟨by simp [World.newPcb], by simp [World.newPcb, Pcb.fresh],
        by simp [World.newPcb, Pcb.fresh], by simp [World.newPcb, Pcb.fresh],
        by simp [World.newPcb, Pcb.fresh], hidle.flags⟩
  · have hsame : exti0IRQHandler w o = w := if_neg (by simp [h.client])
    rwa [hsame]

theorem handleInv_joins {w w' : World} (hL : LogInv w) {id : ℕ} (h : Holds w id)
    (hj : Joins id w w') : HandleInv w' := by
  obtain ⟨new, hlog, hnew⟩ := hj.log
  refine ⟨logInv_append hL hj.live hj.nextPcb hlog (fun e he i => ?_) fun p hp => ?_,
    Or.inr ⟨id, hj.clientPcb.trans h.client, ?_, fun i hi => ?_,
      Or.inl ⟨Or.inl hj.state, hj.recv, _, hj.arg⟩⟩⟩
  · rcases hnew e he with ⟨fn, rfl⟩ | rfl | rfl <;> rfl
  · rcases hnew _ hp with ⟨fn, hfn⟩ | hfn | hfn <;> exact absurd hfn (by simp)
  · rw [hj.live]
    exact h.live
  · rw [hj.live]
    exact h.others i hi

theorem unjoined_established {w : World} {id : ℕ} (h : Unjoined w id) :
    Unjoined (w.setPcb id { w.pcbs id with state := .established }) id := by
  constructor
  · exact Or.inr (Or.inl (by simp [World.setPcb]))
  · simpa [World.setPcb] using h.recv
  · simpa [World.setPcb] using h.arg
  · simpa [World.setPcb] using h.sent
  · simpa [World.setPcb] using h.poll
  · exact h.flags

theorem handleInv_synAck {w : World} (hL : LogInv w) {id : ℕ} (h : Holds w id)
    (hstate : (w.pcbs id).state = .synSent) (memOk : Bool) : HandleInv (inputSynAck w id memOk) := by
  have hunjoined : Unjoined w id := by
    rcases h.phase with hj | hu
    · rcases hj.state with hs | hs <;> exact absurd (hs.symm.trans hstate) (by simp)
    · exact hu
  cases memOk with
  | true => exact handleInv_joins hL h (joins_inputSynAck w id)
  | false =>
    have hset : inputSynAck w id false =
        w.setPcb id { w.pcbs id with state := .established } := by
      simp [inputSynAck, tcpConnectClient]
    rw [hset]
    exact handleInv_keeps hL h (keeps_setPcb ⟨rfl, rfl, rfl, by simp⟩)
      (Or.inr (unjoined_established hunjoined))

theorem handleInv_fin {w : World} (hL : LogInv w) {id : ℕ} (h : Holds w id)
    (hrefused : (w.pcbs id).refused = false) {fin : Err} (hC : EndsByClose w (.fin id fin)) :
    HandleInv (inputFin w id fin) := by
  rcases h.phase with hj | hu
  · obtain ⟨hkeep, hstate⟩ := inputFin_joined hj h.live fin
    refine handleInv_keeps hL h hkeep (Or.inl ⟨Or.inr hstate, (hkeep.pcbs id).recv.trans hj.recv, ?_⟩)
    rw [(hkeep.pcbs id).arg]
    exact hj.arg
  · obtain ⟨hfin, hwnd⟩ := hC hu.arg
    have hcall : Keeps w (w.emit (.call .tcpClose id)) := keeps_emit trivial
    rw [inputFin_unjoined hu hfin hwnd hrefused]
    have hset : Keeps (w.emit (.call .tcpClose id))
        ((w.emit (.call .tcpClose id)).setPcb id
          { (w.pcbs id).afterFin with rxClosed := true }) :=
      keeps_setPcb ⟨rfl, rfl, rfl, by simp [Pcb.afterFin]⟩
    refine handleInv_keeps hL h (hcall.trans hset) (Or.inr ?_)
    constructor
    · exact Or.inr (Or.inr (by simp [World.setPcb, Pcb.afterFin]))
    · simpa [World.setPcb, Pcb.afterFin] using hu.recv
    · simpa [World.setPcb, Pcb.afterFin] using hu.arg
    · simpa [World.setPcb, Pcb.afterFin] using hu.sent
    · simpa [World.setPcb, Pcb.afterFin] using hu.poll
    · exact hu.flags

theorem handleInv_poll {w : World} (hL : LogInv w) {id : ℕ} (h : Holds w id) (hmode : w.mode = .running)
    (hpoll : (w.pcbs id).poll = true) (fin : Err) : HandleInv (react w (.poll id fin)) := by
  rcases h.phase with hj | hu
  · obtain ⟨es, harg⟩ := hj.arg
    simp only [react, harg, tcpPollClient]
    split_ifs with hclosing
    · have hclosed := closedBy_close (w.emit (.esAccess es)) id (some es) fin
      have hL' : LogInv (w.emit (.esAccess es)) :=
        logInv_keeps hL (keeps_emit ⟨id, h.live, harg⟩) h.client h.live
      refine ⟨logInv_closed hL' h.live hclosed, Or.inl ⟨hclosed.clientPcb, fun i => ?_, ?_, ?_⟩⟩
      · rw [hclosed.live]
        rcases eq_or_ne i id with rfl | hi
        · exact Function.update_self ..
        · exact (Function.update_of_ne hi ..).trans (h.others i hi)
      · rw [hclosed.flag]
        exact flagsClear_zero
      · exact hclosed.mode.trans hmode
    · exact handleInv_keeps hL h (keeps_emit ⟨id, h.live, harg⟩)
        (Or.inl ⟨hj.state, hj.recv, hj.arg⟩)
  · rw [hu.poll] at hpoll
    exact Bool.noConfusion hpoll

theorem handleInv_mainPass {w : World} (hI : HandleInv w) (index : U8) (memOk pbufOk fits : Bool)
    (wr : Err) : HandleInv (mainPass w index memOk pbufOk fits wr) := by
  have hquiet (hf : FlagsClear w.tcpClientFlag) := mainPass_of_flagsClear hf index memOk pbufOk fits wr
  rcases hI.phase with hidle | ⟨id, h⟩
  · obtain ⟨a, b, c, hpass⟩ := hquiet hidle.flags
    rw [hpass]
    exact ⟨logInv_append hI.log rfl rfl (List.nil_append _).symm (by simp) (by simp),
      Or.inl ⟨hidle.client, hidle.dead, hidle.flags, hidle.mode⟩⟩
  · apply handleInv_keeps hI.log h (keeps_mainPass w index memOk pbufOk fits wr)
    rcases h.phase with hj | hu
    · exact Or.inl (hj.keeps (keeps_mainPass w index memOk pbufOk fits wr)
        (state_mainPass w index memOk pbufOk fits wr id))
    · obtain ⟨a, b, c, hpass⟩ := hquiet hu.flags
      rw [hpass]
      exact Or.inr ⟨hu.state, hu.recv, hu.arg, hu.sent, hu.poll, hu.flags⟩

theorem handleInv_flags {w w' : World} (hI : HandleInv w) (hkeep : Keeps w w')
    (hpcbs : w'.pcbs = w.pcbs) (hlog : w'.log = w.log) (hmode : w'.mode = w.mode)
    (hflags : FlagsClear w.tcpClientFlag → FlagsClear w'.tcpClientFlag) : HandleInv w' := by
  rcases hI.phase with hidle | ⟨id, h⟩
  · refine ⟨logInv_append hI.log hkeep.live hkeep.nextPcb
      (hlog.trans (List.nil_append _).symm) (by simp) (by simp),
      Or.inl ⟨hkeep.clientPcb.trans hidle.client, fun i => ?_, hflags hidle.flags,
        hmode.trans hidle.mode⟩⟩
    rw [hkeep.live]
    exact hidle.dead i
  · refine handleInv_keeps hI.log h hkeep (h.phase.imp (fun hj => hj.keeps hkeep (by rw [hpcbs]))
      fun hu => ?_)
    constructor
    · rw [hpcbs]
      exact hu.state
    · rw [hpcbs]
      exact hu.recv
    · rw [hpcbs]
      exact hu.arg
    · rw [hpcbs]
      exact hu.sent
    · rw [hpcbs]
      exact hu.poll
    · exact hflags hu.flags

theorem handleInv_step {w w' : World} {s : Step} (hI : HandleInv w) (hC : EndsByClose w s)
    (h : step w s = some w') : HandleInv w' := by
  obtain ⟨hen, rfl⟩ := step_eq_some h
  -- lwIP serves no block but the one the handle designates
  have hserved {id : ℕ} (hlive : w.live id = true) : Holds w id := by
    rcases hI.phase with hidle | ⟨i, hi⟩
    · rw [hidle.dead] at hlive
      exact Bool.noConfusion hlive
    · exact eq_of_live hi hlive ▸ hi
  cases s with
  | wkUp o => exact handleInv_exti0 hI hC
  | synAck id memOk => exact handleInv_synAck hI.log (hserved hen.1.2) hen.2 memOk
  | data id p err =>
    have hh := hserved hen.1.2
    have hkeep := keeps_inputData hh.live hC p err
    apply handleInv_keeps hI.log hh hkeep
    rcases hh.phase with hj | hu
    · exact Or.inl (hj.keeps hkeep (state_inputData w hC p err))
    · exact Or.inr (unjoined_inputData hu hC p err)
  | fin id fin => exact handleInv_fin hI.log (hserved hen.1.2) hen.2.2.1 hC
  | acked id fits wr =>
    have hh := hserved hen.1.2
    have hkeep := keeps_tcpSentClient hh.live fits wr
    refine handleInv_keeps hI.log hh hkeep (Or.inl ?_)
    rcases hh.phase with hj | hu
    · have hpcbs := pcbs_tcpSentClient w (w.pcbs id).callbackArg id fits wr
      exact hj.keeps hkeep (congrArg (fun pcbs => (pcbs id).state) hpcbs)
    · exact absurd (hu.sent.symm.trans hen.2.2) (by simp)
  | poll id fin => exact handleInv_poll hI.log (hserved hen.1.2) hen.1.1 hen.2.2 fin
  | rst id => exact absurd (hserved hen.1.2).client hC
  | timeout id => exact absurd (hserved hen.1.2).client hC
  | tim2 =>
    refine handleInv_flags hI (keeps_tim2 w) ?_ ?_ ?_ fun hf => ?_
    all_goals
      simp only [react, tim2IRQHandler]
      split_ifs
    all_goals first | rfl | exact hf.setSenddata | exact hf
  | key1 =>
    exact handleInv_flags hI (keeps_key1 w) rfl rfl rfl fun hf => hf.clear startFlag
  | mainPass index memOk pbufOk fits wr => exact handleInv_mainPass hI index memOk pbufOk fits wr

theorem handleInv_boot : HandleInv boot :=
  ⟨⟨nofun, fun _ _ => ⟨rfl, by simp [boot]⟩, fun _ => trivial, by simp [boot]⟩,
    Or.inl ⟨rfl, fun _ => rfl, flagsClear_zero, rfl⟩⟩

theorem handleOk_of_inv {w : World} (hI : HandleInv w) : HandleOk w := by
  refine ⟨fun id hid => ?_, fun hflag => ?_, hI.log.uses, hI.log.null, fun hdead => ?_⟩
  · rcases hI.phase with hidle | ⟨i, hi⟩
    · exact absurd (hidle.client.symm.trans hid) (by simp)
    · obtain rfl : i = id := by simpa [hi.client] using hid
      exact ⟨hi.live, hi.phase.elim (fun hj => Or.inr hj.state) fun hu => hu.state⟩
  · have hset : ¬ FlagsClear w.tcpClientFlag := fun hf => by simp [hf.start, hf.connect] at hflag
    rcases hI.phase with hidle | ⟨i, hi⟩
    · exact absurd hidle.flags hset
    · refine ⟨i, hi.client, hi.live, hi.phase.elim (fun hj => hj.state) fun hu => ?_⟩
      exact absurd hu.flags hset
  · rcases hI.phase with hidle | ⟨i, hi⟩
    · have hinit : exti0IRQHandler w .connected = w.newPcb { Pcb.fresh with state := .synSent } :=
        if_pos hidle.client
      have hen : enabled w (.wkUp .connected) := by simp [enabled, hidle.mode]
      refine ⟨exti0IRQHandler w .connected, if_pos hen, w.nextPcb, ?_⟩
      rw [hinit]
      exact ⟨rfl, by simp [World.newPcb], by simp [World.newPcb]⟩
    · exact absurd (hdead i) (by simp [hi.live])

theorem handle_ok (run : List Step) {w : World} (hC : Guarded step EndsByClose boot run)
    (h : exec step boot run = some w) : HandleOk w :=
  handleOk_of_inv
    (exec_guarded (fun _ _ _ hI hC hs => handleInv_step hI hC hs) handleInv_boot hC h)

/-- A connection that uploads, is closed by the server, and is opened again. -/
def reconnectRun : List Step :=
  [.wkUp .connected, .synAck 0 true, .data 0 [[0x73, 0x74, 0x61, 0x72, 0x74]] .ok,
    .mainPass 1 true true true .ok, .tim2, .mainPass 1 true true true .ok, .key1, .fin 0 .ok,
    .poll 0 .ok, .wkUp .connected]

theorem handle_ok_reconnect : ∃ w, exec step boot reconnectRun = some w ∧
    w.clientPcb = some 1 ∧ HandleOk w :=
  ⟨(exec step boot reconnectRun).get (by decide), by simp, by decide,
    handle_ok reconnectRun (by decide) (by simp)⟩

/-- The server refuses the connection; no err callback is registered yet. -/
def refusedRun : List Step := [.wkUp .connected, .rst 0]

theorem handle_dangles_after_reset : ∃ w, exec step boot refusedRun = some w ∧ ¬ HandleOk w := by
  refine ⟨(exec step boot refusedRun).get (by decide), by simp, fun h => ?_⟩
  have hlive := (h.handle 0 (by decide)).1
  revert hlive
  decide

end EnvirMonitor.Client
