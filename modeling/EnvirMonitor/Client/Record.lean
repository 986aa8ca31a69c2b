import EnvirMonitor.Client.Steps

/-! The connection record is released exactly once in every run that never polls a connection
whose record is CLOSING; such a poll releases it twice. -/

namespace EnvirMonitor.Client
open Machine

/-! ## Steps that release nothing -/

structure SameCallbacks (p q : Pcb) : Prop where
  arg : q.callbackArg = p.callbackArg
  recv : q.recv = p.recv
  errf : q.errf = p.errf
  state : q.state = .synSent → p.state = .synSent

/-- Events that release nothing, and touch only records of live blocks. -/
def Mild (w : World) : Event → Prop
  | .call .. => True
  | .mainUse p => p = w.clientPcb
  | .esAccess es => ∃ id, w.live id = true ∧ (w.pcbs id).callbackArg = some es
  | _ => False

structure Keeps (w w' : World) : Prop where
  live : w'.live = w.live
  nextPcb : w'.nextPcb = w.nextPcb
  nextEs : w'.nextEs = w.nextEs
  clientPcb : w'.clientPcb = w.clientPcb
  pcbs : ∀ id, SameCallbacks (w.pcbs id) (w'.pcbs id)
  owner : ∀ es, (w'.es es).pcb = (w.es es).pcb
  log : ∃ new, w'.log = new ++ w.log ∧ ∀ e ∈ new, Mild w e

theorem SameCallbacks.refl (p : Pcb) : SameCallbacks p p := ⟨rfl, rfl, rfl, id⟩

theorem Keeps.mild {w w' : World} (h : Keeps w w') {e : Event} (he : Mild w' e) : Mild w e := by
  cases e with
  | call fn pcb => trivial
  | mainUse p => exact he.trans h.clientPcb
  | esAccess es =>
    obtain ⟨id, hlive, harg⟩ := he
    exact ⟨id, by rw [← h.live]; exact hlive, by rw [← (h.pcbs id).arg]; exact harg⟩
  | pcbFree _ | memMalloc _ | memFree _ => exact he

theorem Keeps.refl (w : World) : Keeps w w :=
  ⟨rfl, rfl, rfl, rfl, fun _ => SameCallbacks.refl _, fun _ => rfl, [], rfl, by simp⟩

theorem Keeps.trans {w₁ w₂ w₃ : World} (h : Keeps w₁ w₂) (h' : Keeps w₂ w₃) : Keeps w₁ w₃ where
  live := h'.live.trans h.live
  nextPcb := h'.nextPcb.trans h.nextPcb
  nextEs := h'.nextEs.trans h.nextEs
  clientPcb := h'.clientPcb.trans h.clientPcb
  pcbs id := ⟨(h'.pcbs id).arg.trans (h.pcbs id).arg, (h'.pcbs id).recv.trans (h.pcbs id).recv,
    (h'.pcbs id).errf.trans (h.pcbs id).errf, fun hs => (h.pcbs id).state ((h'.pcbs id).state hs)⟩
  owner es := (h'.owner es).trans (h.owner es)
  log := by
    obtain ⟨new, hlog, hnew⟩ := h.log
    obtain ⟨new', hlog', hnew'⟩ := h'.log
    refine ⟨new' ++ new, by rw [hlog', hlog, List.append_assoc], fun e he => ?_⟩
    rcases List.mem_append.mp he with he | he
    · exact h.mild (hnew' e he)
    · exact hnew e he

theorem keeps_emit {w : World} {e : Event} (he : Mild w e) : Keeps w (w.emit e) :=
  ⟨rfl, rfl, rfl, rfl, fun _ => SameCallbacks.refl _, fun _ => rfl, [e], rfl,
    fun _ h => List.mem_singleton.mp h ▸ he⟩

theorem sameCallbacks_setPcb {w : World} {id : ℕ} {p : Pcb} (h : SameCallbacks (w.pcbs id) p)
    (i : ℕ) : SameCallbacks (w.pcbs i) ((w.setPcb id p).pcbs i) := by
  rcases eq_or_ne i id with rfl | hi
  · simpa [World.setPcb] using h
  · simpa [World.setPcb, hi] using SameCallbacks.refl (w.pcbs i)

theorem keeps_setPcb {w : World} {id : ℕ} {p : Pcb} (h : SameCallbacks (w.pcbs id) p) :
    Keeps w (w.setPcb id p) :=
  ⟨rfl, rfl, rfl, rfl, sameCallbacks_setPcb h, fun _ => rfl, [], rfl, by simp⟩

theorem keeps_setEs {w : World} {es : ℕ} {d : ClientData} (h : d.pcb = (w.es es).pcb) :
    Keeps w (w.setEs es d) := by
  refine ⟨rfl, rfl, rfl, rfl, fun _ => SameCallbacks.refl _, fun i => ?_, [], rfl, by simp⟩
  rcases eq_or_ne i es with rfl | hi
  · simpa [World.setEs] using h
  · simp [World.setEs, hi]

theorem keeps_of_eq {w w' : World} (hlive : w'.live = w.live) (hpcb : w'.nextPcb = w.nextPcb)
    (hes : w'.nextEs = w.nextEs) (hclient : w'.clientPcb = w.clientPcb) (hpcbs : w'.pcbs = w.pcbs)
    (howner : w'.es = w.es) (hlog : w'.log = w.log) : Keeps w w' :=
  ⟨hlive, hpcb, hes, hclient, fun _ => hpcbs ▸ SameCallbacks.refl _, fun _ => howner ▸ rfl, [],
    hlog, by simp⟩

theorem keeps_tcpRecved (w : World) (id len : ℕ) : Keeps w (tcpRecved w id len) :=
  (keeps_emit (e := .call .tcpRecved id) trivial).trans (keeps_setPcb ⟨rfl, rfl, rfl, fun h => h⟩)

theorem keeps_tcpRecvClient {w : World} {id : ℕ} (hlive : w.live id = true) (p : Option Chain)
    (err : Err) : Keeps w (tcpRecvClient w (w.pcbs id).callbackArg id p err).1 := by
  cases harg : (w.pcbs id).callbackArg with
  | none =>
    cases p with
    | none => exact keeps_of_eq rfl rfl rfl rfl rfl rfl rfl
    | some p =>
      by_cases herr : err = .ok
      · subst herr
        exact keeps_of_eq rfl rfl rfl rfl rfl rfl rfl
      · simpa [tcpRecvClient, herr] using Keeps.refl w
  | some es =>
    have hacc : Keeps w (w.emit (.esAccess es)) := keeps_emit ⟨id, hlive, harg⟩
    cases p with
    | none => exact hacc.trans (keeps_setEs rfl)
    | some p =>
      by_cases herr : err = .ok
      · subst herr
        apply hacc.trans
        simp only [tcpRecvClient, ne_eq, not_true_eq_false, if_false]
        split_ifs
        · apply Keeps.trans _ (keeps_tcpRecved _ id (totLen p))
          exact keeps_of_eq rfl rfl rfl rfl rfl rfl rfl
        · exact (keeps_tcpRecved _ _ _).trans (keeps_setEs rfl)
      · simpa [tcpRecvClient, herr] using Keeps.refl w

theorem keeps_eventRecv {w : World} {id : ℕ} (hlive : w.live id = true) (p : Chain) (err : Err) :
    Keeps w (eventRecv w id p err).1 := by
  unfold eventRecv
  split
  · exact keeps_tcpRecvClient hlive _ _
  · exact keeps_tcpRecved _ _ _

theorem keeps_tcpSentClient {w : World} {id : ℕ} (hlive : w.live id = true) (fits : Bool)
    (wr : Err) : Keeps w (tcpSentClient w (w.pcbs id).callbackArg id fits wr) := by
  cases harg : (w.pcbs id).callbackArg with
  | none => exact keeps_of_eq rfl rfl rfl rfl rfl rfl rfl
  | some es =>
    refine Keeps.trans (keeps_emit (e := .esAccess es) ⟨id, hlive, harg⟩) ?_
    have hwrite (w : World) : Keeps w (w.emit (.call .tcpWrite id)) := keeps_emit trivial
    simp only [tcpSentClient, tcpClientSenddata]
    split_ifs
    · exact ((hwrite _).trans (hwrite _)).trans (keeps_setEs rfl)
    · exact (hwrite _).trans (keeps_setEs rfl)
    · exact Keeps.refl _

theorem keeps_tim2 (w : World) : Keeps w (tim2IRQHandler w) := by
  simp only [tim2IRQHandler]
  split_ifs <;> exact keeps_of_eq rfl rfl rfl rfl rfl rfl rfl

theorem keeps_key1 (w : World) : Keeps w (exti3IRQHandler w) :=
  keeps_of_eq rfl rfl rfl rfl rfl rfl rfl

theorem keeps_oledShowInterfaceData (w : World) (index : U8) :
    Keeps w (oledShowInterfaceData w index) := by
  have huse {w' : World} (h : Keeps w w') : Keeps w (w'.emit (.mainUse w'.clientPcb)) :=
    h.trans (keeps_emit rfl)
  simp only [oledShowInterfaceData]
  split_ifs
  · exact huse (keeps_of_eq rfl rfl rfl rfl rfl rfl rfl)
  · exact keeps_of_eq rfl rfl rfl rfl rfl rfl rfl
  · exact keeps_of_eq rfl rfl rfl rfl rfl rfl rfl
  · exact huse (keeps_of_eq rfl rfl rfl rfl rfl rfl rfl)
  · exact keeps_of_eq rfl rfl rfl rfl rfl rfl rfl
  · exact Keeps.refl w

theorem keeps_sendEnvirPacketData (w : World) (memOk pbufOk fits : Bool) (wr : Err) :
    Keeps w (sendEnvirPacketData w memOk pbufOk fits wr) := by
  have huse (w : World) : Keeps w (w.emit (.mainUse w.clientPcb)) := keeps_emit rfl
  have hsent (w : World) :
      Keeps w (w.clientPcb.elim w fun id => w.setPcb id { w.pcbs id with sent := true }) := by
    cases w.clientPcb with
    | none => exact Keeps.refl w
    | some id => exact keeps_setPcb ⟨rfl, rfl, rfl, fun h => h⟩
  simp only [sendEnvirPacketData, tcpClientSenddata]
  split_ifs
  · exact (((huse w).trans (hsent _)).trans (huse _)).trans (huse _)
  · exact ((huse w).trans (hsent _)).trans (huse _)
  · exact keeps_of_eq rfl rfl rfl rfl rfl rfl rfl
  · exact keeps_of_eq rfl rfl rfl rfl rfl rfl rfl

theorem keeps_receiveCommand (w : World) : Keeps w (receiveCommand w) := by
  simp only [receiveCommand]
  split_ifs
  · exact keeps_of_eq rfl rfl rfl rfl rfl rfl rfl
  · exact keeps_of_eq rfl rfl rfl rfl rfl rfl rfl
  · exact Keeps.refl w

theorem keeps_mainPass (w : World) (index : U8) (memOk pbufOk fits : Bool) (wr : Err) :
    Keeps w (mainPass w index memOk pbufOk fits wr) := by
  have holed := keeps_oledShowInterfaceData w index
  simp only [mainPass]
  split_ifs
  · refine (holed.trans (keeps_sendEnvirPacketData _ memOk pbufOk fits wr)).trans ?_
    refine Keeps.trans ?_ (keeps_receiveCommand _)
    exact keeps_of_eq rfl rfl rfl rfl rfl rfl rfl
  · exact holed.trans (keeps_sendEnvirPacketData _ memOk pbufOk fits wr)
  · exact holed.trans (keeps_receiveCommand _)

/-! ## Steps that release a block -/

structure Dies (id : ℕ) (w w' : World) : Prop where
  live : w'.live = Function.update w.live id false
  nextPcb : w'.nextPcb = w.nextPcb
  nextEs : w'.nextEs = w.nextEs
  pcbs : ∀ i ≠ id, SameCallbacks (w.pcbs i) (w'.pcbs i)
  owner : ∀ es, (w'.es es).pcb = (w.es es).pcb
  log : ∃ new, w'.log = new ++ w.log ∧ (∀ e ∈ new, ∀ es, e.touchesEs es = e.freesEs es) ∧
    ∀ es, new.countP (Event.freesEs es) =
      if (w.pcbs id).errf = true ∧ (w.pcbs id).callbackArg = some es then 1 else 0

def Event.sparesEs (e : Event) : Prop := ∀ es, e.touchesEs es = false ∧ e.freesEs es = false

theorem errEvents_log (p : Pcb) {pre post : List Event} (hpre : ∀ e ∈ pre, e.sparesEs)
    (hpost : ∀ e ∈ post, e.sparesEs) :
    (∀ e ∈ pre ++ p.errEvents ++ post, ∀ es, e.touchesEs es = e.freesEs es) ∧
    ∀ es, (pre ++ p.errEvents ++ post).countP (Event.freesEs es) =
      if p.errf = true ∧ p.callbackArg = some es then 1 else 0 := by
  have hzero {l : List Event} (h : ∀ e ∈ l, e.sparesEs) (es : ℕ) :
      l.countP (Event.freesEs es) = 0 :=
    List.countP_eq_zero.mpr fun e he => by simp [(h e he es).2]
  constructor
  · intro e he es
    rw [List.mem_append, List.mem_append] at he
    rcases he with (he | he) | he
    · rw [(hpre e he es).1, (hpre e he es).2]
    · revert he
      unfold Pcb.errEvents
      cases p.errf <;> cases p.callbackArg <;> simp +contextual [Event.touchesEs, Event.freesEs]
    · rw [(hpost e he es).1, (hpost e he es).2]
  · intro es
    rw [List.countP_append, List.countP_append, hzero hpre, hzero hpost, zero_add, add_zero]
    unfold Pcb.errEvents
    cases p.errf <;> cases p.callbackArg <;> simp [Event.freesEs]

theorem pcbs_setPcb_ne (w : World) {id i : ℕ} (p : Pcb) (hi : i ≠ id) :
    SameCallbacks (w.pcbs i) ((w.setPcb id p).pcbs i) := by
  simpa [World.setPcb, hi] using SameCallbacks.refl (w.pcbs i)

theorem dies_inputReset (w : World) (id : ℕ) : Dies id w (inputReset w id) := by
  simp only [inputReset, eventErr_eq]
  refine ⟨rfl, rfl, rfl, fun i hi => pcbs_setPcb_ne _ _ hi, fun _ => rfl,
    [.pcbFree id] ++ (w.pcbs id).errEvents ++ [], ?_, errEvents_log _ ?_ ?_⟩
  · rw [List.append_nil]
    rfl
  · exact fun e he es => List.mem_singleton.mp he ▸ ⟨rfl, rfl⟩
  · simp

theorem dies_slowtmrRemove (w : World) (id : ℕ) : Dies id w (slowtmrRemove w id) := by
  simp only [slowtmrRemove, eventErr_eq]
  refine ⟨rfl, rfl, rfl, fun i hi => pcbs_setPcb_ne _ _ hi, fun _ => rfl,
    [] ++ (w.pcbs id).errEvents ++ [.pcbFree id], ?_, errEvents_log _ ?_ ?_⟩
  · rw [List.nil_append, List.append_assoc]
    rfl
  · simp
  · exact fun e he es => List.mem_singleton.mp he ▸ ⟨rfl, rfl⟩

theorem dies_tcpAbort {w : World} {id : ℕ} (h : (w.pcbs id).state ≠ .timeWait) :
    Dies id w (tcpAbort w id) := by
  have hstate : ((w.emit (.call .tcpAbort id)).pcbs id).state ≠ .timeWait := h
  simp only [tcpAbort, tcpAbandon, eventErr_eq]
  rw [if_neg hstate]
  refine ⟨rfl, rfl, rfl, fun i hi => pcbs_setPcb_ne _ _ hi, fun _ => rfl,
    [] ++ (w.pcbs id).errEvents ++ [.pcbFree id, .call .tcpAbort id], ?_, errEvents_log _ ?_ ?_⟩
  · rw [List.nil_append, List.append_assoc]
    rfl
  · simp
  · intro e he es
    rcases List.mem_pair.mp he with rfl | rfl <;> exact ⟨rfl, rfl⟩

theorem dies_mempFree {w : World} {id : ℕ} (h : (w.pcbs id).callbackArg = none) :
    Dies id w (w.mempFree id) := by
  refine ⟨rfl, rfl, rfl, fun i _ => SameCallbacks.refl _, fun _ => rfl, [.pcbFree id], rfl, ?_, ?_⟩
  · exact fun e he es => List.mem_singleton.mp he ▸ rfl
  · simp [h, Event.freesEs]

theorem Dies.after {w₁ w₂ w₃ : World} {id : ℕ} (hk : Keeps w₁ w₂)
    (hlog : ∃ new, w₂.log = new ++ w₁.log ∧ ∀ e ∈ new, e.sparesEs) (h : Dies id w₂ w₃) :
    Dies id w₁ w₃ := by
  obtain ⟨new, hlog, hnew⟩ := hlog
  obtain ⟨new', hlog', huse, hcount⟩ := h.log
  refine ⟨by rw [h.live, hk.live], h.nextPcb.trans hk.nextPcb, h.nextEs.trans hk.nextEs, ?_,
    fun es => (h.owner es).trans (hk.owner es), new' ++ new, by rw [hlog', hlog, List.append_assoc],
    ?_, ?_⟩
  · exact fun i hi => ⟨(h.pcbs i hi).arg.trans (hk.pcbs i).arg,
      (h.pcbs i hi).recv.trans (hk.pcbs i).recv, (h.pcbs i hi).errf.trans (hk.pcbs i).errf,
      fun hs => (hk.pcbs i).state ((h.pcbs i hi).state hs)⟩
  · intro e he es
    rcases List.mem_append.mp he with he | he
    · exact huse e he es
    · rw [(hnew e he es).1, (hnew e he es).2]
  · intro es
    have hzero : new.countP (Event.freesEs es) = 0 :=
      List.countP_eq_zero.mpr fun e he => by simp [(hnew e he es).2]
    rw [List.countP_append, hcount, hzero, (hk.pcbs id).errf, (hk.pcbs id).arg, add_zero]

theorem sameCallbacks_purge (p : Pcb) : SameCallbacks p p.purge := by
  unfold Pcb.purge
  split_ifs
  · exact SameCallbacks.refl p
  · exact ⟨rfl, rfl, rfl, fun h => h⟩

theorem sameCallbacks_remove (p : Pcb) : SameCallbacks p p.remove :=
  ⟨(sameCallbacks_purge p).arg, (sameCallbacks_purge p).recv, (sameCallbacks_purge p).errf,
    by simp [Pcb.remove]⟩

theorem dies_setPcb_mempFree {w : World} {id : ℕ} {p : Pcb} (hp : SameCallbacks (w.pcbs id) p)
    (h : (w.pcbs id).callbackArg = none) : Dies id w ((w.setPcb id p).mempFree id) :=
  (dies_mempFree (by simpa [World.setPcb, hp.arg] using h)).after (keeps_setPcb hp) ⟨[], rfl, by simp⟩

theorem tcpCloseShutdown_cases {w : World} {id : ℕ} (h : (w.pcbs id).callbackArg = none)
    (rstOnUnackedData : Bool) (fin : Err) :
    Keeps w (tcpCloseShutdown w id rstOnUnackedData fin).1 ∨
      Dies id w (tcpCloseShutdown w id rstOnUnackedData fin).1 := by
  have hpurge := sameCallbacks_purge (w.pcbs id)
  simp only [tcpCloseShutdown]
  split_ifs
  · exact Or.inl (keeps_setPcb ⟨hpurge.arg, hpurge.recv, hpurge.errf, by simp⟩)
  · exact Or.inr (dies_setPcb_mempFree hpurge h)
  · split
    · exact Or.inr (dies_mempFree h)
    · exact Or.inr (dies_setPcb_mempFree (sameCallbacks_remove _) h)
    · exact Or.inr (dies_setPcb_mempFree (sameCallbacks_remove _) h)
    · exact Or.inl (keeps_setPcb ⟨rfl, rfl, rfl, by simp⟩)
    · exact Or.inl (keeps_setPcb ⟨rfl, rfl, rfl, by simp⟩)
    · exact Or.inl (keeps_setPcb ⟨rfl, rfl, rfl, by simp⟩)
    · exact Or.inl (Keeps.refl w)
  · split
    · exact Or.inr (dies_mempFree h)
    · exact Or.inr (dies_setPcb_mempFree (sameCallbacks_remove _) h)
    · exact Or.inr (dies_setPcb_mempFree (sameCallbacks_remove _) h)
    · exact Or.inl (Keeps.refl w)
    · exact Or.inl (Keeps.refl w)
    · exact Or.inl (Keeps.refl w)
    · exact Or.inl (Keeps.refl w)

theorem tcpClose_cases {w : World} {id : ℕ} (h : (w.pcbs id).callbackArg = none) (fin : Err) :
    Keeps w (tcpClose w id fin).1 ∨ Dies id w (tcpClose w id fin).1 := by
  have hcall : Keeps w (w.emit (.call .tcpClose id)) := keeps_emit trivial
  have hspare : ∀ e ∈ [Event.call .tcpClose id], e.sparesEs :=
    fun e he es => List.mem_singleton.mp he ▸ ⟨rfl, rfl⟩
  -- the call is logged, and the receive side marked closed, before anything is decided
  have hafter {w₀ : World} (hk : Keeps w w₀) (hlog : w₀.log = [.call .tcpClose id] ++ w.log) :
      Keeps w (tcpCloseShutdown w₀ id true fin).1 ∨ Dies id w (tcpCloseShutdown w₀ id true fin).1 :=
    (tcpCloseShutdown_cases ((hk.pcbs id).arg.trans h) true fin).imp hk.trans
      (Dies.after hk ⟨_, hlog, hspare⟩)
  simp only [tcpClose]
  split_ifs
  · exact hafter (hcall.trans (keeps_setPcb ⟨rfl, rfl, rfl, fun h => h⟩)) rfl
  · exact hafter hcall rfl

theorem sameCallbacks_inputData (pcb : Pcb) (n : ℕ) : SameCallbacks pcb
    (if pcb.refused then { pcb with refused := false } else { pcb with rcvWnd := n }) := by
  split_ifs <;> exact ⟨rfl, rfl, rfl, fun h => h⟩

theorem keeps_inputData {w : World} {id : ℕ} (hlive : w.live id = true)
    (hopen : ¬ ((w.pcbs id).refused = false ∧ (w.pcbs id).rxClosed = true)) (p : Chain) (err : Err) :
    Keeps w (inputData w id p err) := by
  simp only [inputData]
  rw [if_neg hopen]
  generalize hw₀ : w.setPcb id _ = w₀
  have hkeep : Keeps w w₀ := hw₀ ▸ keeps_setPcb (sameCallbacks_inputData _ _)
  have hrecv := hkeep.trans (keeps_eventRecv (hkeep.live ▸ hlive) p err)
  split_ifs
  · exact hrecv
  · exact hrecv.trans (keeps_setPcb ⟨rfl, rfl, rfl, fun h => h⟩)

theorem dies_inputData {w : World} {id : ℕ} (hstate : (w.pcbs id).state ≠ .timeWait)
    (hclosed : (w.pcbs id).refused = false ∧ (w.pcbs id).rxClosed = true) (p : Chain) (err : Err) :
    Dies id w (inputData w id p err) := by
  simp only [inputData]
  rw [if_pos hclosed]
  refine Dies.after (keeps_setPcb (sameCallbacks_inputData _ _)) ⟨[], rfl, by simp⟩ (dies_tcpAbort ?_)
  simpa [World.setPcb, hclosed.1] using hstate

theorem inputFin_cases {w : World} {id : ℕ} (hlive : w.live id = true)
    (hrecv : (w.pcbs id).recv = .tcpRecvNull → (w.pcbs id).callbackArg = none) (fin : Err) :
    Keeps w (inputFin w id fin) ∨ Dies id w (inputFin w id fin) := by
  simp only [inputFin, eventClosed]
  generalize hw₀ : w.setPcb id _ = w₀
  have hkeep : Keeps w w₀ := hw₀ ▸ keeps_setPcb ⟨rfl, rfl, rfl, by simp⟩
  have hlog : w₀.log = w.log := hw₀ ▸ rfl
  split
  · exact Or.inl (hkeep.trans (keeps_tcpRecvClient (hkeep.live ▸ hlive) _ _))
  · rename_i hnull
    have harg := (hkeep.pcbs id).arg.trans (hrecv ((hkeep.pcbs id).recv.symm.trans hnull))
    exact (tcpClose_cases harg fin).imp hkeep.trans (Dies.after hkeep ⟨[], hlog, by simp⟩)
  · exact Or.inl hkeep

/-! ## Ownership of the records -/

/-- The record hangs on a live block whose err callback will release it. -/
structure Owned (w : World) (es : ℕ) : Prop where
  live : w.live (w.es es).pcb = true
  arg : (w.pcbs (w.es es).pcb).callbackArg = some es
  recv : (w.pcbs (w.es es).pcb).recv = .tcpRecvClient
  errf : (w.pcbs (w.es es).pcb).errf = true
  unfreed : ∀ e ∈ w.log, e.freesEs es = false

structure Released (w : World) (es : ℕ) : Prop where
  dead : w.live (w.es es).pcb = false
  freed : ∃ e ∈ w.log, e.freesEs es = true

structure RecordInv (w : World) : Prop where
  record : ∀ es < w.nextEs, Owned w es ∨ Released w es
  bound : ∀ es < w.nextEs, (w.es es).pcb < w.nextPcb
  log : ∀ es < w.nextEs, NoUseAfterFree (Event.freesEs es) (Event.touchesEs es) w.log
  fresh : ∀ es, w.nextEs ≤ es → ∀ e ∈ w.log, e.touchesEs es = false
  registered : ∀ id es, w.live id = true → (w.pcbs id).callbackArg = some es →
    es < w.nextEs ∧ (w.es es).pcb = id
  unconnected : ∀ id, w.live id = true → (w.pcbs id).state = .synSent →
    (w.pcbs id).callbackArg = none
  allocated : ∀ id, w.live id = true → id < w.nextPcb

theorem Event.touchesEs_of_freesEs {e : Event} {es : ℕ} (h : e.freesEs es = true) :
    e.touchesEs es = true := by
  cases e <;> simp_all [Event.freesEs, Event.touchesEs]

theorem Mild.freesEs {w : World} {e : Event} (h : Mild w e) (es : ℕ) : e.freesEs es = false := by
  cases e <;> first | rfl | exact h.elim

theorem Mild.touchesEs {w : World} (hI : RecordInv w) {e : Event} (h : Mild w e) {es : ℕ}
    (htouch : e.touchesEs es = true) : es < w.nextEs ∧ w.live (w.es es).pcb = true := by
  cases e with
  | esAccess i =>
    obtain ⟨id, hlive, harg⟩ := h
    obtain ⟨hlt, hpcb⟩ := hI.registered id i hlive harg
    obtain rfl : i = es := by simpa [Event.touchesEs] using htouch
    exact ⟨hlt, by rw [hpcb]; exact hlive⟩
  | memFree _ => exact h.elim
  | call _ _ | mainUse _ | pcbFree _ | memMalloc _ => exact absurd htouch (by simp [Event.touchesEs])

theorem Owned.transfer {w w' : World} {es : ℕ} (h : Owned w es)
    (howner : (w'.es es).pcb = (w.es es).pcb)
    (hlive : w'.live (w.es es).pcb = w.live (w.es es).pcb)
    (hsame : SameCallbacks (w.pcbs (w.es es).pcb) (w'.pcbs (w.es es).pcb))
    (hlog : ∀ e ∈ w'.log, e.freesEs es = false) : Owned w' es where
  live := by rw [howner, hlive, h.live]
  arg := by rw [howner, hsame.arg, h.arg]
  recv := by rw [howner, hsame.recv, h.recv]
  errf := by rw [howner, hsame.errf, h.errf]
  unfreed := hlog

theorem Released.transfer {w w' : World} {es : ℕ} (h : Released w es)
    (howner : (w'.es es).pcb = (w.es es).pcb)
    (hlive : w'.live (w.es es).pcb = w.live (w.es es).pcb) (hlog : w.log ⊆ w'.log) :
    Released w' es := by
  obtain ⟨e, he, hfree⟩ := h.freed
  exact ⟨by rw [howner, hlive, h.dead], e, hlog he, hfree⟩

theorem Keeps.events {w w' : World} (hI : RecordInv w) (h : Keeps w w') :
    ∃ new, w'.log = new ++ w.log ∧ ∀ e ∈ new, ∀ es, e.freesEs es = false ∧
      (w.nextEs ≤ es ∨ w.live (w.es es).pcb = false → e.touchesEs es = false) := by
  obtain ⟨new, hlog, hnew⟩ := h.log
  refine ⟨new, hlog, fun e he es => ⟨(hnew e he).freesEs es, fun hes => ?_⟩⟩
  by_contra htouch
  obtain ⟨hlt, hlive⟩ := (hnew e he).touchesEs hI (by simpa using htouch)
  rcases hes with hes | hes
  · omega
  · rw [hlive] at hes
    exact Bool.noConfusion hes

theorem recordInv_keeps {w w' : World} (hI : RecordInv w) (h : Keeps w w') : RecordInv w' := by
  obtain ⟨new, hlog, hnew⟩ := h.events hI
  constructor
  · intro es hes
    rw [h.nextEs] at hes
    have hlive := congrFun h.live (w.es es).pcb
    refine (hI.record es hes).imp (fun ho => ho.transfer (h.owner es) hlive (h.pcbs _) ?_)
      fun hr => hr.transfer (h.owner es) hlive (hlog ▸ List.subset_append_right _ _)
    intro e he
    rw [hlog] at he
    exact (List.mem_append.mp he).elim (fun he => (hnew e he es).1) (ho.unfreed e)
  · intro es hes
    rw [h.nextEs] at hes
    rw [h.owner, h.nextPcb]
    exact hI.bound es hes
  · intro es hes
    rw [h.nextEs] at hes
    rw [hlog]
    rcases hI.record es hes with ho | hr
    · apply noUseAfterFree_append_unfreed
      · exact noUseAfterFree_of_unfreed fun e he => (hnew e he es).1
      · exact ho.unfreed
    · apply noUseAfterFree_append_unused (hI.log es hes)
      exact fun e he => (hnew e he es).2 (Or.inr hr.dead)
  · intro es hes e he
    rw [h.nextEs] at hes
    rw [hlog] at he
    exact (List.mem_append.mp he).elim (fun he => (hnew e he es).2 (Or.inl hes))
      (hI.fresh es hes e)
  · intro id es hlive harg
    rw [h.live] at hlive
    rw [(h.pcbs id).arg] at harg
    rw [h.nextEs, h.owner]
    exact hI.registered id es hlive harg
  · intro id hlive hstate
    rw [h.live] at hlive
    rw [(h.pcbs id).arg]
    exact hI.unconnected id hlive ((h.pcbs id).state hstate)
  · intro id hlive
    rw [h.live] at hlive
    rw [h.nextPcb]
    exact hI.allocated id hlive

theorem live_of_dies {w w' : World} {id i : ℕ} (h : Dies id w w') (hi : w'.live i = true) :
    i ≠ id ∧ w.live i = true := by
  rw [h.live] at hi
  rcases eq_or_ne i id with rfl | hne
  · simp at hi
  · exact ⟨hne, by simpa [hne] using hi⟩

theorem Dies.events {w w' : World} {id : ℕ} (h : Dies id w w') : ∃ new, w'.log = new ++ w.log ∧
    ∀ es, (w.pcbs id).callbackArg ≠ some es → ∀ e ∈ new,
      e.freesEs es = false ∧ e.touchesEs es = false := by
  obtain ⟨new, hlog, huse, hcount⟩ := h.log
  refine ⟨new, hlog, fun es hes e he => ?_⟩
  have hzero := hcount es
  rw [if_neg fun hc => hes hc.2] at hzero
  have hfree : e.freesEs es = false := by simpa using List.countP_eq_zero.mp hzero e he
  exact ⟨hfree, (huse e he es).trans hfree⟩

/-- The record of `id` is released with it, every other one stays as it is. -/
theorem Dies.record {w w' : World} {id : ℕ} (hI : RecordInv w) (hid : w.live id = true)
    (h : Dies id w w') {es : ℕ} (hes : es < w.nextEs) : Owned w' es ∨ Released w' es := by
  rcases eq_or_ne (w.es es).pcb id with hpcb | hpcb
  · obtain ⟨new, hlog, -, hcount⟩ := h.log
    rcases hI.record es hes with ho | hr
    · have hone := hcount es
      have harg := ho.arg
      have herrf := ho.errf
      rw [hpcb] at harg herrf
      rw [if_pos ⟨herrf, harg⟩] at hone
      have hpos : 0 < new.countP (Event.freesEs es) := by omega
      obtain ⟨e, he, hfree⟩ := List.countP_pos_iff.mp hpos
      refine Or.inr ⟨?_, e, hlog ▸ List.mem_append_left _ he, hfree⟩
      rw [h.owner, h.live, hpcb]
      exact Function.update_self ..
    · have hdead := hr.dead
      rw [hpcb, hid] at hdead
      exact Bool.noConfusion hdead
  · obtain ⟨new, hlog, hnew⟩ := h.events
    have harg : (w.pcbs id).callbackArg ≠ some es :=
      fun harg => hpcb (hI.registered id es hid harg).2
    have hlive : w'.live (w.es es).pcb = w.live (w.es es).pcb := by
      rw [h.live, Function.update_of_ne hpcb]
    refine (hI.record es hes).imp (fun ho => ho.transfer (h.owner es) hlive (h.pcbs _ hpcb) ?_)
      fun hr => hr.transfer (h.owner es) hlive (hlog ▸ List.subset_append_right _ _)
    intro e he
    rw [hlog] at he
    exact (List.mem_append.mp he).elim (fun he => (hnew es harg e he).1) (ho.unfreed e)

theorem Dies.noUseAfterFree {w w' : World} {id : ℕ} (hI : RecordInv w) (hid : w.live id = true)
    (h : Dies id w w') {es : ℕ} (hes : es < w.nextEs) :
    NoUseAfterFree (Event.freesEs es) (Event.touchesEs es) w'.log := by
  by_cases harg : (w.pcbs id).callbackArg = some es
  · obtain ⟨new, hlog, huse, hcount⟩ := h.log
    rw [hlog]
    apply noUseAfterFree_append_unfreed
    · apply noUseAfterFree_of_countP_le_one fun e he => huse e he es
      rw [hcount es]
      split_ifs <;> omega
    · rcases hI.record es hes with ho | hr
      · exact ho.unfreed
      · have hdead := hr.dead
        rw [(hI.registered id es hid harg).2, hid] at hdead
        exact Bool.noConfusion hdead
  · obtain ⟨new, hlog, hnew⟩ := h.events
    rw [hlog]
    exact noUseAfterFree_append_unused (hI.log es hes) fun e he => (hnew es harg e he).2

theorem recordInv_dies {w w' : World} {id : ℕ} (hI : RecordInv w) (hid : w.live id = true)
    (h : Dies id w w') : RecordInv w' := by
  constructor
  · intro es hes
    rw [h.nextEs] at hes
    exact h.record hI hid hes
  · intro es hes
    rw [h.nextEs] at hes
    rw [h.owner, h.nextPcb]
    exact hI.bound es hes
  · intro es hes
    rw [h.nextEs] at hes
    exact h.noUseAfterFree hI hid hes
  · intro es hes e he
    obtain ⟨new, hlog, hnew⟩ := h.events
    rw [h.nextEs] at hes
    rw [hlog] at he
    have harg : (w.pcbs id).callbackArg ≠ some es := fun harg => by
      have := (hI.registered id es hid harg).1
      omega
    exact (List.mem_append.mp he).elim (fun he => (hnew es harg e he).2) (hI.fresh es hes e)
  · intro i es hlive harg
    obtain ⟨hne, hlive⟩ := live_of_dies h hlive
    rw [(h.pcbs i hne).arg] at harg
    rw [h.nextEs, h.owner]
    exact hI.registered i es hlive harg
  · intro i hlive hstate
    obtain ⟨hne, hlive⟩ := live_of_dies h hlive
    rw [(h.pcbs i hne).arg]
    exact hI.unconnected i hlive ((h.pcbs i hne).state hstate)
  · intro i hlive
    rw [h.nextPcb]
    exact hI.allocated i (live_of_dies h hlive).2

theorem recordInv_newPcb {w : World} (hI : RecordInv w) {p : Pcb} (hp : p.callbackArg = none) :
    RecordInv (w.newPcb p) := by
  have hother {es : ℕ} (hes : es < w.nextEs) : (w.es es).pcb ≠ w.nextPcb := (hI.bound es hes).ne
  constructor
  · intro es hes
    have hlive : (w.newPcb p).live (w.es es).pcb = w.live (w.es es).pcb :=
      Function.update_of_ne (hother hes) ..
    have hpcb : (w.newPcb p).pcbs (w.es es).pcb = w.pcbs (w.es es).pcb :=
      Function.update_of_ne (hother hes) ..
    exact (hI.record es hes).imp
      (fun ho => ho.transfer rfl hlive (hpcb ▸ SameCallbacks.refl _) ho.unfreed)
      fun hr => hr.transfer rfl hlive (List.Subset.refl _)
  · exact fun es hes => (hI.bound es hes).trans (Nat.lt_succ_self _)
  · exact hI.log
  · exact hI.fresh
  · intro i es hlive harg
    rcases eq_or_ne i w.nextPcb with rfl | hi
    · simp [World.newPcb, hp] at harg
    · exact hI.registered i es (by simpa [World.newPcb, hi] using hlive)
        (by simpa [World.newPcb, hi] using harg)
  · intro i hlive hstate
    rcases eq_or_ne i w.nextPcb with rfl | hi
    · simpa [World.newPcb] using hp
    · have := hI.unconnected i (by simpa [World.newPcb, hi] using hlive)
        (by simpa [World.newPcb, hi] using hstate)
      simpa [World.newPcb, hi] using this
  · intro i hlive
    rcases eq_or_ne i w.nextPcb with rfl | hi
    · exact Nat.lt_succ_self _
    · exact (hI.allocated i (by simpa [World.newPcb, hi] using hlive)).trans (Nat.lt_succ_self _)

structure Joins (id : ℕ) (w w' : World) : Prop where
  live : w'.live = w.live
  clientPcb : w'.clientPcb = w.clientPcb
  nextPcb : w'.nextPcb = w.nextPcb
  nextEs : w'.nextEs = w.nextEs + 1
  arg : (w'.pcbs id).callbackArg = some w.nextEs
  recv : (w'.pcbs id).recv = .tcpRecvClient
  errf : (w'.pcbs id).errf = true
  state : (w'.pcbs id).state = .established
  pcbs : ∀ i ≠ id, w'.pcbs i = w.pcbs i
  es : w'.es = Function.update w.es w.nextEs ⟨.connected, id, false⟩
  log : ∃ new, w'.log = new ++ w.log ∧ ∀ e ∈ new,
    (∃ fn, e = .call fn id) ∨ e = .memMalloc w.nextEs ∨ e = .esAccess w.nextEs

theorem joins_inputSynAck (w : World) (id : ℕ) : Joins id w (inputSynAck w id true) := by
  simp only [inputSynAck, tcpConnectClient, if_true, tcpArg, tcpRecv, tcpPoll, tcpSent, tcpErr]
  constructor
  · simp [World.newEs, World.setEs, World.emit, World.setPcb]
  · simp [World.newEs, World.setEs, World.emit, World.setPcb]
  · simp [World.newEs, World.setEs, World.emit, World.setPcb]
  · simp [World.newEs, World.setEs, World.emit, World.setPcb]
  · simp [World.setPcb]
  · simp
  · simp
  · simp [World.newEs, World.setEs, World.emit, World.setPcb]
  · intro i hi
    simp [configure_pcbs_ne, hi, World.newEs, World.setEs, World.emit, World.setPcb]
  · simp [World.newEs, World.setEs, World.emit, World.setPcb]
  · refine ⟨[.call .tcpErr id, .call .tcpSent id, .call .tcpPoll id, .call .tcpRecv id,
      .call .tcpArg id, .esAccess w.nextEs, .memMalloc w.nextEs], ?_, ?_⟩
    · simp [World.newEs, World.setEs, World.emit, World.setPcb]
    · simp

theorem Joins.events {w w' : World} {id : ℕ} (h : Joins id w w') : ∃ new, w'.log = new ++ w.log ∧
    ∀ e ∈ new, ∀ es, e.freesEs es = false ∧ (es ≠ w.nextEs → e.touchesEs es = false) := by
  obtain ⟨new, hlog, hevents⟩ := h.log
  refine ⟨new, hlog, fun e he es => ?_⟩
  rcases hevents e he with ⟨fn, rfl⟩ | rfl | rfl <;>
    simp +contextual [Event.freesEs, Event.touchesEs, eq_comm]

theorem Joins.owned {w w' : World} {id : ℕ} (hI : RecordInv w) (hlive : w.live id = true)
    (h : Joins id w w') : Owned w' w.nextEs := by
  have hself : w'.es w.nextEs = ⟨.connected, id, false⟩ := by rw [h.es, Function.update_self]
  have hunfreed : ∀ e ∈ w'.log, e.freesEs w.nextEs = false := by
    obtain ⟨new, hlog, hnew⟩ := h.events
    intro e he
    rw [hlog] at he
    refine (List.mem_append.mp he).elim (fun he => (hnew e he _).1) fun he => ?_
    have htouch := hI.fresh _ le_rfl e he
    by_contra hfree
    rw [Event.touchesEs_of_freesEs (by simpa using hfree)] at htouch
    exact Bool.noConfusion htouch
  refine ⟨?_, ?_, ?_, ?_, hunfreed⟩ <;> rw [hself]
  · rw [h.live]
    exact hlive
  · exact h.arg
  · exact h.recv
  · exact h.errf

theorem Joins.record {w w' : World} {id : ℕ} (hI : RecordInv w)
    (harg : (w.pcbs id).callbackArg = none) (h : Joins id w w') {es : ℕ} (hes : es < w.nextEs) :
    Owned w' es ∨ Released w' es := by
  obtain ⟨new, hlog, hnew⟩ := h.events
  have hold : (w'.es es).pcb = (w.es es).pcb := by rw [h.es, Function.update_of_ne hes.ne]
  have hl := congrFun h.live (w.es es).pcb
  refine (hI.record es hes).imp (fun ho => ho.transfer hold hl ?_ fun e he => ?_)
    fun hr => hr.transfer hold hl (hlog ▸ List.subset_append_right _ _)
  · have hne : (w.es es).pcb ≠ id := fun hpcb => by
      have := ho.arg
      rw [hpcb, harg] at this
      exact absurd this (by simp)
    exact h.pcbs _ hne ▸ SameCallbacks.refl _
  · rw [hlog] at he
    exact (List.mem_append.mp he).elim (fun he => (hnew e he es).1) (ho.unfreed e)

theorem recordInv_joins {w w' : World} {id : ℕ} (hI : RecordInv w) (hlive : w.live id = true)
    (harg : (w.pcbs id).callbackArg = none) (h : Joins id w w') :
    RecordInv w' := by
  obtain ⟨new, hlog, hnew⟩ := h.events
  have hold {es : ℕ} (hes : es < w.nextEs) : w'.es es = w.es es := by
    rw [h.es, Function.update_of_ne hes.ne]
  have hself : w'.es w.nextEs = ⟨.connected, id, false⟩ := by rw [h.es, Function.update_self]
  have hcases {es : ℕ} (hes : es < w'.nextEs) : es < w.nextEs ∨ es = w.nextEs := by
    rw [h.nextEs] at hes
    omega
  constructor
  · intro es hes
    rcases hcases hes with hes | rfl
    · exact h.record hI harg hes
    · exact Or.inl (h.owned hI hlive)
  · intro es hes
    rw [h.nextPcb]
    rcases hcases hes with hes | rfl
    · rw [hold hes]
      exact hI.bound es hes
    · rw [hself]
      exact hI.allocated id hlive
  · intro es hes
    rcases hcases hes with hes | rfl
    · rw [hlog]
      exact noUseAfterFree_append_unused (hI.log es hes) fun e he => (hnew e he es).2 hes.ne
    · exact noUseAfterFree_of_unfreed (h.owned hI hlive).unfreed
  · intro es hes e he
    rw [h.nextEs] at hes
    rw [hlog] at he
    exact (List.mem_append.mp he).elim (fun he => (hnew e he es).2 (by omega))
      (hI.fresh es (by omega) e)
  · intro i es hl ha
    rw [h.live] at hl
    rcases eq_or_ne i id with rfl | hi
    · obtain rfl : w.nextEs = es := by simpa [h.arg] using ha
      rw [h.nextEs, hself]
      exact ⟨Nat.lt_succ_self _, rfl⟩
    · rw [h.pcbs i hi] at ha
      obtain ⟨hlt, hpcb⟩ := hI.registered i es hl ha
      rw [h.nextEs, hold hlt]
      exact ⟨by omega, hpcb⟩
  · intro i hl hs
    rw [h.live] at hl
    rcases eq_or_ne i id with rfl | hi
    · exact absurd (h.state.symm.trans hs) (by simp)
    · rw [h.pcbs i hi] at hs ⊢
      exact hI.unconnected i hl hs
  · intro i hl
    rw [h.live] at hl
    rw [h.nextPcb]
    exact hI.allocated i hl

/-! ## Runs -/

def PollsOpen (w : World) : Step → Prop
  | .poll id _ => ∀ es ∈ (w.pcbs id).callbackArg, (w.es es).state ≠ .closing
  | _ => True

instance (w : World) : (s : Step) → Decidable (PollsOpen w s)
  | .poll id _ => inferInstanceAs (Decidable (∀ es ∈ (w.pcbs id).callbackArg, _))
  | .wkUp _ | .synAck .. | .data .. | .fin .. | .acked .. | .rst _ | .timeout _ | .tim2 | .key1
  | .mainPass .. => isTrue trivial

theorem recv_of_registered {w : World} (hI : RecordInv w) {id es : ℕ} (hlive : w.live id = true)
    (harg : (w.pcbs id).callbackArg = some es) : (w.pcbs id).recv = .tcpRecvClient := by
  obtain ⟨hlt, rfl⟩ := hI.registered id es hlive harg
  rcases hI.record es hlt with ho | hr
  · exact ho.recv
  · rw [hr.dead] at hlive
    exact Bool.noConfusion hlive

theorem recordInv_exti0 {w : World} (hI : RecordInv w) (o : ConnectOutcome) :
    RecordInv (exti0IRQHandler w o) := by
  unfold exti0IRQHandler
  split_ifs with hclient
  · cases o with
    | noPcb => exact recordInv_keeps hI (keeps_of_eq rfl rfl rfl hclient.symm rfl rfl rfl)
    | notConnected => exact recordInv_newPcb hI rfl
    | connected => exact recordInv_newPcb hI rfl
  · exact hI

theorem recordInv_step {w w' : World} {s : Step} (hI : RecordInv w) (hC : PollsOpen w s)
    (h : step w s = some w') : RecordInv w' := by
  obtain ⟨hen, rfl⟩ := step_eq_some h
  cases s with
  | wkUp o => exact recordInv_exti0 hI o
  | synAck id memOk =>
    obtain ⟨⟨-, hlive⟩, hstate⟩ := hen
    cases memOk with
    | true => exact recordInv_joins hI hlive (hI.unconnected id hlive hstate) (joins_inputSynAck w id)
    | false => exact recordInv_keeps hI (keeps_setPcb ⟨rfl, rfl, rfl, by simp⟩)
  | data id p err =>
    obtain ⟨⟨-, hlive⟩, hconn, -⟩ := hen
    by_cases hclosed : (w.pcbs id).refused = false ∧ (w.pcbs id).rxClosed = true
    · refine recordInv_dies hI hlive (dies_inputData (fun ht => ?_) hclosed p err)
      rcases hconn with hs | hs <;> exact absurd (hs.symm.trans ht) (by simp)
    · exact recordInv_keeps hI (keeps_inputData hlive hclosed p err)
  | fin id fin =>
    obtain ⟨⟨-, hlive⟩, -⟩ := hen
    refine (inputFin_cases hlive (fun hnull => ?_) fin).elim (recordInv_keeps hI)
      (recordInv_dies hI hlive)
    cases harg : (w.pcbs id).callbackArg with
    | none => rfl
    | some es =>
      rw [recv_of_registered hI hlive harg] at hnull
      exact absurd hnull (by simp)
  | acked id fits wr => exact recordInv_keeps hI (keeps_tcpSentClient hen.1.2 fits wr)
  | poll id fin =>
    obtain ⟨⟨-, hlive⟩, hactive, -⟩ := hen
    cases harg : (w.pcbs id).callbackArg with
    | none =>
      have hdies := dies_tcpAbort hactive.2.2
      apply recordInv_dies hI hlive
      simpa only [react, harg, tcpPollClient] using hdies
    | some es =>
      apply recordInv_keeps hI
      have hopen : ¬ ((w.emit (.esAccess es)).es es).state = .closing := hC es harg
      simp only [react, harg, tcpPollClient]
      rw [if_neg hopen]
      exact keeps_emit ⟨id, hlive, harg⟩
  | rst id => exact recordInv_dies hI hen.1.2 (dies_inputReset w id)
  | timeout id => exact recordInv_dies hI hen.1.2 (dies_slowtmrRemove w id)
  | tim2 => exact recordInv_keeps hI (keeps_tim2 w)
  | key1 => exact recordInv_keeps hI (keeps_key1 w)
  | mainPass index memOk pbufOk fits wr =>
    exact recordInv_keeps hI (keeps_mainPass w index memOk pbufOk fits wr)

theorem recordInv_boot : RecordInv boot :=
  ⟨nofun, nofun, nofun, fun _ _ => by simp [boot], fun _ _ => nofun, fun _ => nofun, fun _ => nofun⟩

structure ReleasedOnce (w : World) (es : ℕ) : Prop where
  once : w.log.countP (Event.freesEs es) ≤ 1
  untouched : NoUseAfterFree (Event.freesEs es) (Event.touchesEs es) w.log
  freed : w.live (w.es es).pcb = false → ∃ e ∈ w.log, e.freesEs es = true

theorem releasedOnce_of_inv {w : World} (hI : RecordInv w) {es : ℕ} (hes : es < w.nextEs) :
    ReleasedOnce w es := by
  have hlog := hI.log es hes
  refine ⟨countP_frees_le_one (fun e => Event.touchesEs_of_freesEs) hlog, hlog, fun hdead => ?_⟩
  rcases hI.record es hes with ho | hr
  · rw [ho.live] at hdead
    exact Bool.noConfusion hdead
  · exact hr.freed

theorem records_released_once (run : List Step) {w : World} (hC : Guarded step PollsOpen boot run)
    (h : exec step boot run = some w) : ∀ es < w.nextEs, ReleasedOnce w es := by
  have hI : RecordInv w :=
    exec_guarded (fun _ _ _ hI hC hs => recordInv_step hI hC hs) recordInv_boot hC h
  exact fun es hes => releasedOnce_of_inv hI hes

def resetRun : List Step :=
  [.wkUp .connected, .synAck 0 true, .data 0 [[0x31]] .ok, .poll 0 .ok, .fin 0 .ok, .rst 0]

theorem records_released_once_reset : ∃ w, exec step boot resetRun = some w ∧ w.nextEs = 1 ∧
    ∀ es < w.nextEs, ReleasedOnce w es :=
  ⟨(exec step boot resetRun).get (by decide), by simp, by decide,
    records_released_once resetRun (by decide) (by simp)⟩

/-- A poll after a FIN: `tcp_abort` reaches `tcp_err_client`, and the close frees once more. -/
def finThenPoll : List Step := [.wkUp .connected, .synAck 0 true, .fin 0 .ok, .poll 0 .ok]

theorem record_released_twice : ∃ w, exec step boot finThenPoll = some w ∧
    0 < w.nextEs ∧ ¬ ReleasedOnce w 0 := by
  refine ⟨(exec step boot finThenPoll).get (by decide), by simp, by decide, fun h => ?_⟩
  have htwice := h.once
  revert htwice
  decide

end EnvirMonitor.Client
