import EnvirMonitor.Tcp.Closing

/-! One end of a connection through a whole call: what it sends, takes and reports agrees with the
stream it writes and with the stream of the other end, whatever the application does. -/

namespace EnvirMonitor.Tcp
open Machine
open Client (TcpState tcpMss tcpWnd)

def TcpEvent.written : TcpEvent → List U8
  | .accepted data => data
  | _ => []

def TcpEvent.taken : TcpEvent → List U8
  | .received data => data
  | _ => []

namespace Endpoint

def written (t : Endpoint) : List U8 := t.log.flatMap TcpEvent.written

def taken (t : Endpoint) : List U8 := t.log.flatMap TcpEvent.taken

def stream (t : Endpoint) : Stream := ⟨t.written, t.pcb.tfFin⟩

theorem written_emit (t : Endpoint) (ev : TcpEvent) : (t.emit ev).written = t.written ++ ev.written := by
  rw [written, emit, List.flatMap_append, List.flatMap_singleton]
  rfl

theorem taken_emit (t : Endpoint) (ev : TcpEvent) : (t.emit ev).taken = t.taken ++ ev.taken := by
  rw [taken, emit, List.flatMap_append, List.flatMap_singleton]
  rfl

theorem written_sends (t : Endpoint) (res : Pcb × List Segment) : (t.sends res).written = t.written := by
  have hnil : (res.2.map TcpEvent.sent).flatMap TcpEvent.written = [] := by
    rw [List.flatMap_map]
    exact List.flatMap_eq_nil_iff.mpr fun w _ => rfl
  rw [written, sends, List.flatMap_append, hnil, List.append_nil]
  rfl

theorem taken_sends (t : Endpoint) (res : Pcb × List Segment) : (t.sends res).taken = t.taken := by
  have hnil : (res.2.map TcpEvent.sent).flatMap TcpEvent.taken = [] := by
    rw [List.flatMap_map]
    exact List.flatMap_eq_nil_iff.mpr fun w _ => rfl
  rw [taken, sends, List.flatMap_append, hnil, List.append_nil]
  rfl

end Endpoint

/-- One end during a step that began with the streams `s` and `s'`, when its log was `start` long:
`una` of its positions are acknowledged, it has taken `r` of the other stream, and `pending` is
on its way to the application. -/
structure EndCore (base base' : U32) (s s' : Stream) (start una r : ℕ) (pending : List U8)
    (t : Endpoint) : Prop where
  grows : s.Grows t.stream
  send : ∃ nxt, SendInv base t.stream una nxt t.pcb.sendVars
  recv : RecvInv base' s' r t.taken pending t.pcb.recvVars
  eof : .eof ∈ t.log → t.taken = s'.data ∧ s'.fin = true
  own : s.data.length ≤ una + tcpSndBuf
  other : s'.data.length ≤ r + tcpSndBuf
  sent : ∀ w, .sent w ∈ t.log.drop start →
    Honest base base' t.stream s.data.length s'.data.length r w

structure EndInv (base base' : U32) (s s' : Stream) (start una r : ℕ) (pending : List U8)
    (t : Endpoint) : Prop extends EndCore base base' s s' start una r pending t where
  ordered : Ordered t.pcb.sendVars

structure CallFrame (t t' : Endpoint) : Prop where
  recv : RecvStep t.pcb.recvVars t'.pcb.recvVars
  taken : t'.taken = t.taken
  eof : .eof ∈ t'.log → .eof ∈ t.log

theorem CallFrame.refl (t : Endpoint) : CallFrame t t := ⟨RecvStep.refl _, rfl, id⟩

theorem CallFrame.trans {t t' t'' : Endpoint} (h : CallFrame t t') (h' : CallFrame t' t'') :
    CallFrame t t'' :=
  ⟨h.recv.trans h'.recv, h'.taken.trans h.taken, h.eof ∘ h'.eof⟩

variable {base base' : U32} {s s' s₁ : Stream} {start una r : ℕ} {pending pending' : List U8}
  {t t' : Endpoint}

theorem EndCore.speaks (h : EndCore base base' s s' start una r pending t) :
    Speaks base base' t.stream una s.data.length s'.data.length r t.pcb :=
  ⟨h.recv.rcvNxt, h.own, h.other⟩

theorem mem_drop_append {α : Type*} {x : α} {l l' : List α} {n : ℕ} (h : x ∈ (l ++ l').drop n) :
    x ∈ l.drop n ∨ x ∈ l' := by
  rw [List.drop_append] at h
  exact (List.mem_append.mp h).imp_right fun hx => List.mem_of_mem_drop hx

theorem EndCore.sends (h : EndCore base base' s s' start una r pending t)
    {res : Pcb × List Segment}
    (hs : PcbStep base base' t.stream s₁ una s.data.length s'.data.length r t.pcb res)
    (hg : t.stream.Grows s₁) (hd : s₁.data = t.written) :
    EndCore base base' s s' start una r pending (t.sends res) ∧ CallFrame t (t.sends res) := by
  obtain ⟨nxt, hsend⟩ := hs.send
  have hstream : (t.sends res).stream = s₁ := by
    rw [Endpoint.stream, Endpoint.written_sends, ← hd]
    exact congrArg (Stream.mk s₁.data) hsend.fin
  have heof : .eof ∈ (t.sends res).log → .eof ∈ t.log := by
    intro hmem
    rcases List.mem_append.mp hmem with hmem | hmem
    · exact hmem
    · obtain ⟨w, -, heq⟩ := List.mem_map.mp hmem
      exact absurd heq (by simp)
  refine ⟨?_, hs.recv, Endpoint.taken_sends t res, heof⟩
  refine
    { grows := hstream ▸ h.grows.trans hg
      send := ⟨nxt, hstream ▸ hsend⟩
      recv := ?_
      eof := fun hmem => ?_
      own := h.own
      other := h.other
      sent := fun w hw => ?_ }
  · rw [Endpoint.taken_sends]
    exact h.recv.step hs.recv
  · rw [Endpoint.taken_sends]
    exact h.eof (heof hmem)
  · rw [hstream]
    rcases mem_drop_append hw with hold | hnew
    · exact (h.sent w hold).grow hg le_rfl
    · obtain ⟨w', hw', heq⟩ := List.mem_map.mp hnew
      obtain rfl : w' = w := by injection heq
      exact hs.honest w' hw'

theorem EndInv.sends (h : EndInv base base' s s' start una r pending t)
    {res : Pcb × List Segment}
    (hs : PcbStep base base' t.stream s₁ una s.data.length s'.data.length r t.pcb res)
    (hg : t.stream.Grows s₁) (hd : s₁.data = t.written) :
    EndInv base base' s s' start una r pending (t.sends res) ∧ CallFrame t (t.sends res) := by
  obtain ⟨hcore, hframe⟩ := h.toEndCore.sends hs hg hd
  exact ⟨⟨hcore, hs.ordered h.ordered⟩, hframe⟩

theorem EndInv.receives (h : EndInv base base' s s' start una r pending t) (pcb : Pcb)
    (hsend : pcb.sendVars = t.pcb.sendVars)
    (hrecv : RecvInv base' s' r t.taken pending' pcb.recvVars) :
    EndInv base base' s s' start una r pending' { t with pcb := pcb } := by
  have hstream : ({ t with pcb := pcb } : Endpoint).stream = t.stream :=
    congrArg (Stream.mk t.written) (congrArg SendVars.tfFin hsend)
  exact
    { grows := hstream ▸ h.grows
      send := by rw [hstream, hsend]; exact h.send
      ordered := hsend ▸ h.ordered
      recv := hrecv
      eof := h.eof
      own := h.own
      other := h.other
      sent := by rw [hstream]; exact h.sent }

theorem EndInv.frame (h : EndInv base base' s s' start una r pending t) (pcb : Pcb)
    (hsend : pcb.sendVars = t.pcb.sendVars) (hrecv : RecvStep t.pcb.recvVars pcb.recvVars) :
    EndInv base base' s s' start una r pending { t with pcb := pcb } ∧
      CallFrame t { t with pcb := pcb } :=
  ⟨h.receives pcb hsend (h.recv.step hrecv), hrecv, rfl, id⟩

theorem EndCore.emit (h : EndCore base base' s s' start una r pending t) {ev : TcpEvent}
    (hw : ev.written = [])
    (hrecv : RecvInv base' s' r (t.taken ++ ev.taken) pending' t.pcb.recvVars)
    (heof : .eof ∈ (t.emit ev).log → t.taken ++ ev.taken = s'.data ∧ s'.fin = true)
    (hsent : ∀ w, ev = .sent w → Honest base base' t.stream s.data.length s'.data.length r w) :
    EndCore base base' s s' start una r pending' (t.emit ev) := by
  have hstream : (t.emit ev).stream = t.stream := by
    rw [Endpoint.stream, Endpoint.written_emit, hw, List.append_nil]
    rfl
  exact
    { grows := hstream ▸ h.grows
      send := by rw [hstream]; exact h.send
      recv := by rw [Endpoint.taken_emit]; exact hrecv
      eof := by rw [Endpoint.taken_emit]; exact heof
      own := h.own
      other := h.other
      sent := fun w hmem => by
        rw [hstream]
        rcases mem_drop_append hmem with hold | hnew
        · exact h.sent w hold
        · exact hsent w (List.mem_singleton.mp hnew).symm }

theorem mem_emit {ev ev' : TcpEvent} (hne : ev' ≠ ev) (h : ev' ∈ (t.emit ev).log) : ev' ∈ t.log := by
  rcases List.mem_append.mp h with hmem | hmem
  · exact hmem
  · exact absurd (List.mem_singleton.mp hmem) hne

theorem EndCore.emit_quiet (h : EndCore base base' s s' start una r pending t) (ev : TcpEvent)
    (hw : ev.written = []) (ht : ev.taken = []) (hne : TcpEvent.eof ≠ ev)
    (hsent : ∀ w, ev = .sent w → Honest base base' t.stream s.data.length s'.data.length r w) :
    EndCore base base' s s' start una r pending (t.emit ev) ∧ CallFrame t (t.emit ev) := by
  refine ⟨h.emit hw (by rw [ht, List.append_nil]; exact h.recv) (fun hmem => ?_) hsent,
    RecvStep.refl _, by rw [Endpoint.taken_emit, ht, List.append_nil], mem_emit hne⟩
  rw [ht, List.append_nil]
  exact h.eof (mem_emit hne hmem)

theorem EndInv.emit_error (h : EndInv base base' s s' start una r pending t) :
    EndInv base base' s s' start una r pending (t.emit .error) ∧ CallFrame t (t.emit .error) := by
  obtain ⟨hcore, hframe⟩ := h.toEndCore.emit_quiet .error rfl rfl (by simp)
    fun w hw => absurd hw (by simp)
  exact ⟨⟨hcore, h.ordered⟩, hframe⟩

/-! ## The calls of the application -/

theorem EndInv.tcpOutput (h : EndInv base base' s s' start una r pending t) (alloc : Bool) :
    EndInv base base' s s' start una r pending (t.tcpOutput alloc) ∧
      CallFrame t (t.tcpOutput alloc) := by
  obtain ⟨nxt, hsend⟩ := h.send
  exact h.sends (SendsOk.outputPcb hsend h.speaks alloc).step (Stream.Grows.refl _) rfl

theorem EndInv.tcpWrite (h : EndInv base base' s s' start una r pending t) (data : List U8)
    (more : Bool) (alloc : ℕ → Bool) :
    EndInv base base' s s' start una r pending (t.tcpWrite data more alloc) ∧
      CallFrame t (t.tcpWrite data more alloc) := by
  obtain ⟨nxt, hsend⟩ := h.send
  unfold Endpoint.tcpWrite
  rcases tcpWrite_cases hsend data more alloc with
    ⟨err, flag, herr, heq⟩ | ⟨hw, x, queue, os, hc, heq⟩
  · rw [heq]
    cases err with
    | ok => exact absurd rfl herr
    | _ => exact h.frame _ rfl (RecvStep.refl _)
  rw [heq]
  dsimp only
  have hfin : t.stream.fin = false := hsend.writable hw
  have hk : Keeps t.pcb.state := keeps_of_writable hw
  have hcommit := hsend.commit more hfin h.ordered hk hc
  have hord := ordered_commit more hsend hfin h.ordered hk hc
  have hgrow := Stream.grows_write hfin data
  have hrecv : (t.pcb.commitWrite more data.length x queue os).recvVars = t.pcb.recvVars := rfl
  have htf : (t.pcb.commitWrite more data.length x queue os).tfFin = t.pcb.tfFin := rfl
  generalize t.pcb.commitWrite more data.length x queue os = pcb at *
  have hstream : (({ t with pcb := pcb } : Endpoint).emit (.accepted data)).stream =
      t.stream.write data := by
    rw [Endpoint.stream, Endpoint.written_emit]
    exact congrArg (Stream.mk (t.written ++ data)) htf
  have htaken : (({ t with pcb := pcb } : Endpoint).emit (.accepted data)).taken = t.taken := by
    rw [Endpoint.taken_emit]
    exact List.append_nil _
  have heof : .eof ∈ (({ t with pcb := pcb } : Endpoint).emit (.accepted data)).log → .eof ∈ t.log := by
    intro hmem
    rcases List.mem_append.mp hmem with hmem | hmem
    · exact hmem
    · exact absurd (List.mem_singleton.mp hmem) (by simp)
  refine ⟨?_, RecvStep.of_eq hrecv, htaken, heof⟩
  refine
    { grows := hstream ▸ h.grows.trans hgrow
      send := ⟨nxt, hstream ▸ hcommit⟩
      ordered := hord
      recv := ?_
      eof := fun hmem => ?_
      own := h.own
      other := h.other
      sent := fun w hw => ?_ }
  · rw [htaken]
    exact h.recv.step (RecvStep.of_eq hrecv)
  · rw [htaken]
    exact h.eof (heof hmem)
  · rw [hstream]
    rcases mem_drop_append hw with hold | hnew
    · exact (h.sent w hold).grow hgrow le_rfl
    · exact absurd (List.mem_singleton.mp hnew) (by simp)

theorem EndInv.tcpRecved (h : EndInv base base' s s' start una r pending t) (len : ℕ)
    (alloc : Bool) : EndInv base base' s s' start una r pending (t.tcpRecved len alloc) ∧
      CallFrame t (t.tcpRecved len alloc) := by
  unfold Endpoint.tcpRecved
  obtain ⟨hsend, hrecv, -⟩ := vars_tcpUpdateRcvAnnWnd
    { t.pcb with rcvWnd := min (u16 (t.pcb.rcvWnd + len)) tcpWnd }
  generalize Pcb.tcpUpdateRcvAnnWnd _ = res at *
  obtain ⟨pcb, wndInflation⟩ := res
  dsimp only at *
  have hstep : RecvStep t.pcb.recvVars pcb.recvVars := by
    rw [hrecv]
    exact ⟨rfl, fun _ => Nat.min_le_right _ _, id, id, Or.inl rfl⟩
  split
  · obtain ⟨h₁, hf₁⟩ := h.frame pcb.tcpAckNow hsend hstep
    obtain ⟨h₂, hf₂⟩ := h₁.tcpOutput alloc
    exact ⟨h₂, hf₁.trans hf₂⟩
  · exact h.frame pcb hsend hstep

theorem EndInv.tcpClose (h : EndInv base base' s s' start una r pending t) (fin alloc : Bool) :
    EndInv base base' s s' start una r pending (t.tcpClose fin alloc) ∧
      CallFrame t (t.tcpClose fin alloc) := by
  obtain ⟨nxt, hsend⟩ := h.send
  obtain ⟨s₁, hg, hd, hstep⟩ := PcbStep.close (t := t) hsend h.ordered h.speaks fin alloc
  exact h.sends hstep hg hd

theorem EndInv.tcpAbort (h : EndInv base base' s s' start una r pending t) (alloc : Bool) :
    EndInv base base' s s' start una r pending (t.tcpAbort alloc) ∧
      CallFrame t (t.tcpAbort alloc) := by
  obtain ⟨nxt, hsend⟩ := h.send
  obtain ⟨h₁, hf₁⟩ := h.sends (PcbStep.abort (t := t) hsend h.speaks alloc)
    (Stream.Grows.refl _) rfl
  unfold Endpoint.tcpAbort
  dsimp only
  split
  · exact ⟨h₁, hf₁⟩
  · obtain ⟨h₂, hf₂⟩ := h₁.emit_error
    exact ⟨h₂, hf₁.trans hf₂⟩

theorem EndInv.call (h : EndInv base base' s s' start una r pending t) (c : AppCall) :
    EndInv base base' s s' start una r pending (t.call c) ∧ CallFrame t (t.call c) := by
  unfold Endpoint.call
  split
  · exact ⟨h, CallFrame.refl t⟩
  cases c with
  | write data more alloc => exact h.tcpWrite data more alloc
  | recved len alloc => exact h.tcpRecved len alloc
  | output alloc => exact h.tcpOutput alloc
  | close fin alloc => exact h.tcpClose fin alloc
  | abort alloc => exact h.tcpAbort alloc

theorem EndInv.calls (h : EndInv base base' s s' start una r pending t) (cs : List AppCall) :
    EndInv base base' s s' start una r pending (t.calls cs) ∧ CallFrame t (t.calls cs) := by
  induction cs generalizing t with
  | nil => exact ⟨h, CallFrame.refl t⟩
  | cons c cs ih =>
    obtain ⟨h₁, hf₁⟩ := h.call c
    obtain ⟨h₂, hf₂⟩ := ih h₁
    exact ⟨h₂, hf₁.trans hf₂⟩

end EnvirMonitor.Tcp
