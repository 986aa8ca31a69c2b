import EnvirMonitor.Tcp.Receiver

/-! The ways a connection ends: `tcp_close`, `tcp_abort` and the removal of its control block. What
is still sent says only what is true, and nothing else is promised from then on. -/

namespace EnvirMonitor.Tcp
open Machine
open Client (TcpState tcpMss tcpWnd)

variable {base base' : U32} {s s₁ : Stream} {una nxt n n' r : ℕ} {pcb : Pcb} {t : Endpoint}

/-- A step of one control block: the sender keeps its stream `s`, now `s₁`, the receiver takes
nothing, and what is sent is honest. -/
structure PcbStep (base base' : U32) (s s₁ : Stream) (una n n' r : ℕ) (pcb : Pcb)
    (res : Pcb × List Segment) : Prop where
  send : ∃ nxt, SendInv base s₁ una nxt res.1.sendVars
  ordered : Ordered pcb.sendVars → Ordered res.1.sendVars
  recv : RecvStep pcb.recvVars res.1.recvVars
  honest : ∀ w ∈ res.2, Honest base base' s₁ n n' r w

theorem SendsOk.step {res : Pcb × List Segment} (h : SendsOk base base' s una n n' r pcb res) :
    PcbStep base base' s s una n n' r pcb res :=
  ⟨h.send, h.ordered, RecvStep.of_eq h.recv, h.honest⟩

theorem PcbStep.frame {pcb' : Pcb} {res : Pcb × List Segment}
    (h : PcbStep base base' s s₁ una n n' r pcb' res) (hs : pcb'.sendVars = pcb.sendVars)
    (hr : pcb'.recvVars = pcb.recvVars) : PcbStep base base' s s₁ una n n' r pcb res :=
  ⟨h.send, hs ▸ h.ordered, hr ▸ h.recv, h.honest⟩

theorem SendsOk.outputPcb (h : SendInv base s una nxt pcb.sendVars)
    (hs : Speaks base base' s una n n' r pcb) (alloc : Bool) :
    SendsOk base base' s una n n' r pcb (t.outputPcb alloc pcb) := by
  unfold Endpoint.outputPcb
  split
  · exact SendsOk.nothing h
  · exact SendsOk.tcpOutput h hs t.ticks alloc

theorem outputPcb_empty (hu : pcb.unsent = []) (hack : pcb.tfAckNow = true) (alloc : Bool) :
    (t.outputPcb alloc pcb).1.sendVars = pcb.sendVars ∧
      (t.outputPcb alloc pcb).1.recvVars = pcb.recvVars ∧
      ∀ w ∈ (t.outputPcb alloc pcb).2, EmptyAck pcb w := by
  unfold Endpoint.outputPcb
  split
  · exact ⟨rfl, rfl, fun w hw => absurd hw List.not_mem_nil⟩
  · have hempty : pcb.tcpOutput t.ticks alloc = pcb.tcpSendEmptyAck alloc := by
      unfold Pcb.tcpOutput
      dsimp only
      rw [if_pos]
      refine ⟨hack, fun seg hseg => ?_⟩
      rw [hu] at hseg
      exact absurd hseg (Option.not_mem_none seg)
    rw [hempty]
    obtain ⟨hsend, hrecv, -, hout⟩ := vars_tcpSendEmptyAck pcb alloc
    exact ⟨hsend, hrecv, hout⟩

theorem EmptyAck.honest {w : Segment} (h : EmptyAck pcb w)
    (hs : Speaks base base' s una n n' r pcb) : Honest base base' s n n' r w := by
  obtain ⟨pcb', hp, rfl⟩ := h
  exact (hs.frame hp).honest_empty pcb'.sndNxt

theorem honest_tcpRst : Honest base base' s n n' r pcb.tcpRst := honest_rst rfl rfl

/-- After `tcp_pcb_purge` there is nothing to send, unless it did nothing. -/
theorem purge_cases (pcb : Pcb) : pcb.purge = pcb ∨ pcb.purge.unsent = [] := by
  unfold Pcb.purge
  split
  · exact Or.inl rfl
  · exact Or.inr rfl

theorem PcbStep.purge (h : SendInv base s una nxt pcb.sendVars) {state : TcpState}
    (hk : ¬Keeps state) {out : List Segment} (hout : ∀ w ∈ out, Honest base base' s n n' r w) :
    PcbStep base base' s s una n n' r pcb ({ pcb.purge with state := state }, out) :=
  ⟨⟨nxt, h.gone hk⟩, (order_purge pcb).2, RecvStep.leave pcb hk, hout⟩

theorem PcbStep.remove (h : SendInv base s una nxt pcb.sendVars)
    (hs : Speaks base base' s una n n' r pcb) (alloc : Bool) :
    PcbStep base base' s s una n n' r pcb (pcb.tcpPcbRemove (t.outputPcb alloc)) := by
  have hk : ¬Keeps .closed := by decide
  unfold Pcb.tcpPcbRemove
  dsimp only
  split
  · rcases purge_cases pcb with hsame | hnil
    · rw [hsame]
      have hok := SendsOk.outputPcb (t := t)
        (show SendInv base s una nxt pcb.tcpAckNow.sendVars from h) (hs.frame rfl) alloc
      generalize t.outputPcb alloc pcb.tcpAckNow = res at *
      obtain ⟨nxt', h'⟩ := hok.send
      refine ⟨⟨nxt', h'.toState .closed (fun hw => absurd hw (by decide))
        fun hc => absurd hc hk⟩, hok.ordered, ?_, hok.honest⟩
      exact (RecvStep.of_eq hok.recv).trans (RecvStep.toState _ .closed
        (fun hr => absurd hr (by decide)) fun _ => hk)
    · obtain ⟨hsend, hrecv, hout⟩ := outputPcb_empty (t := t)
        (show pcb.purge.tcpAckNow.unsent = [] from hnil) rfl alloc
      generalize t.outputPcb alloc pcb.purge.tcpAckNow = res at *
      have hpurge := @PcbStep.purge base base' s una nxt n n' r pcb h .closed hk []
        fun w hw => absurd hw List.not_mem_nil
      have hsend' : ({ res.1 with state := .closed } : Pcb).sendVars =
          ({ pcb.purge with state := .closed } : Pcb).sendVars :=
        congrArg (fun v : SendVars => { v with state := .closed }) hsend
      have hrecv' : ({ res.1 with state := .closed } : Pcb).recvVars =
          ({ pcb.purge with state := .closed } : Pcb).recvVars :=
        congrArg (fun v : RecvVars => { v with state := .closed }) hrecv
      refine ⟨hsend' ▸ hpurge.send, hsend' ▸ hpurge.ordered, hrecv' ▸ hpurge.recv, fun w hw => ?_⟩
      obtain ⟨pcb', hp', rfl⟩ := hout w hw
      have hnxt : pcb.purge.rcvNxt = pcb.rcvNxt := by
        unfold Pcb.purge
        split <;> rfl
      exact Speaks.honest_empty
        ⟨(congrArg RecvVars.rcvNxt hp').trans (hnxt.trans hs.rcvNxt), hs.own, hs.other⟩ _
  · exact PcbStep.purge h hk fun w hw => absurd hw List.not_mem_nil

theorem sorted_remove (h : SendInv base s una nxt pcb.sendVars)
    (hs : Speaks base base' s una n n' r pcb) (hso : Sorted pcb.sendVars) (alloc : Bool) :
    Sorted (pcb.tcpPcbRemove (t.outputPcb alloc)).1.sendVars := by
  have hpurged : Sorted { pcb.purge.sendVars with state := .closed } := (order_purge pcb).1 hso
  have hempty (pcb' : Pcb) (hnil : pcb'.unsent = []) (hack : pcb'.tfAckNow = true)
      (hso' : Sorted pcb'.sendVars) : Sorted (t.outputPcb alloc pcb').1.sendVars := by
    rw [(outputPcb_empty hnil hack alloc).1]
    exact hso'
  unfold Pcb.tcpPcbRemove
  dsimp only
  split
  · rcases purge_cases pcb with hsame | hnil
    · rw [hsame]
      have hsorted : Sorted (t.outputPcb alloc pcb.tcpAckNow).1.sendVars := by
        unfold Endpoint.outputPcb
        split
        · exact ⟨hso.unacked, hso.unsent, hso.apart⟩
        · exact sorted_tcpOutput (show SendInv base s una nxt pcb.tcpAckNow.sendVars from h)
            (hs.frame rfl)
            ⟨hso.unacked, hso.unsent, hso.apart⟩ t.ticks alloc
      exact ⟨hsorted.unacked, hsorted.unsent, hsorted.apart⟩
    · have hsorted := hempty pcb.purge.tcpAckNow hnil rfl
        ⟨hpurged.unacked, hpurged.unsent, hpurged.apart⟩
      exact ⟨hsorted.unacked, hsorted.unsent, hsorted.apart⟩
  · exact hpurged

theorem PcbStep.abort (h : SendInv base s una nxt pcb.sendVars)
    (hs : Speaks base base' s una n n' r pcb) (alloc : Bool) :
    PcbStep base base' s s una n n' r pcb (pcb.tcpAbort (t.outputPcb alloc)) := by
  have hremove := PcbStep.remove (t := t) h hs alloc
  unfold Pcb.tcpAbort
  dsimp only
  split
  · exact hremove
  · refine ⟨hremove.send, hremove.ordered, hremove.recv, fun w hw => ?_⟩
    rcases List.mem_append.mp hw with hw | hw
    · exact hremove.honest w hw
    · rw [List.mem_singleton.mp hw]
      exact honest_tcpRst

/-- The stream where a FIN may have been queued. -/
theorem PcbStep.close (h : SendInv base s una nxt pcb.sendVars) (ho : Ordered pcb.sendVars)
    (hs : Speaks base base' s una n n' r pcb) (fin alloc : Bool) :
    ∃ s₁, s.Grows s₁ ∧ s₁.data = s.data ∧ PcbStep base base' s s₁ una n n' r pcb
      ((pcb.tcpClose fin (t.outputPcb alloc)).1, (pcb.tcpClose fin (t.outputPcb alloc)).2.1) := by
  have hrst : ∀ w ∈ [({ pcb with tfRxclosed := true } : Pcb).tcpRst],
      Honest base base' s n n' r w := by
    intro w hw
    rw [List.mem_singleton.mp hw]
    exact honest_tcpRst
  have hnothing {pcb' : Pcb} (hsend : pcb'.sendVars = pcb.sendVars)
      (hrecv : pcb'.recvVars = pcb.recvVars) : ∃ s₁, s.Grows s₁ ∧ s₁.data = s.data ∧
        PcbStep base base' s s₁ una n n' r pcb (pcb', []) :=
    ⟨s, Stream.Grows.refl s, rfl, ⟨nxt, hsend ▸ h⟩, fun ho => hsend ▸ ho, RecvStep.of_eq hrecv,
      fun w hw => absurd hw List.not_mem_nil⟩
  unfold Pcb.tcpClose
  dsimp only
  split
  · have hpurge (state : TcpState) (hk : ¬Keeps state) : PcbStep base base' s s una n n' r pcb
        ({ ({ pcb with tfRxclosed := true } : Pcb).purge with state := state }, _) :=
      (@PcbStep.purge base base' s una nxt n n' r { pcb with tfRxclosed := true } h state hk _
        hrst).frame rfl rfl
    split
    · exact ⟨s, Stream.Grows.refl s, rfl, hpurge .timeWait (by decide)⟩
    · exact ⟨s, Stream.Grows.refl s, rfl, hpurge .closed (by decide)⟩
  split
  · rename_i hw
    rcases SendInv.sendFin (show SendInv base s una nxt
        ({ pcb with tfRxclosed := true } : Pcb).sendVars from h) hw ho fin with
      ⟨err, flag, herr, heq⟩ | ⟨pcb', heq, hstate, hrecv, ho', h'⟩
    · rw [heq]
      cases err with
      | ok => exact absurd rfl herr
      | _ => exact hnothing rfl rfl
    · rw [heq]
      dsimp only
      have hstate' : pcb'.state = pcb.state := hstate
      rw [hstate']
      have hnot : ¬Writable (if pcb.state = .established then .finWait1 else .lastAck) := by
        split_ifs <;> decide
      have hkeeps : Keeps (if pcb.state = .established then .finWait1 else .lastAck) := by
        split_ifs <;> decide
      have hreceives : Receives (if pcb.state = .established then .finWait1 else .lastAck) →
          Receives pcb.state := by
        split_ifs with he
        · exact fun _ => Or.inl he
        · exact fun hr => absurd hr (by decide)
      generalize (if pcb.state = .established then .finWait1 else .lastAck : TcpState) = state at *
      have hgrow := s.grows_close
      have hspeaks : Speaks base base' s.close una n n' r { pcb' with state := state } :=
        ⟨(congrArg RecvVars.rcvNxt hrecv).trans hs.rcvNxt, hs.own, hs.other⟩
      have hok := SendsOk.outputPcb (t := t) (h' state hnot) hspeaks alloc
      refine ⟨s.close, hgrow, rfl, hok.send, fun _ => hok.ordered ho', ?_, hok.honest⟩
      have hstep := RecvStep.toState pcb'.recvVars state
        (fun hr => show Receives pcb'.state by rw [hstate']; exact hreceives hr)
        (fun hk => absurd (show Keeps pcb'.state by rw [hstate']; exact keeps_of_writable hw) hk)
      exact ((RecvStep.of_eq hrecv).trans hstep).trans (RecvStep.of_eq hok.recv)
  · exact hnothing rfl rfl

end EnvirMonitor.Tcp
