import EnvirMonitor.Tcp.Callbacks

/-! One step of one end: a segment that arrives, a timer, a call. Where the step leaves the queues
settled, the end is again as it was. -/

namespace EnvirMonitor.Tcp
open Machine
open Client (TcpState tcpMss tcpWnd)

variable {base base' : U32} {s s' : Stream} {start una r rp : ℕ} {pending : List U8} {t : Endpoint}
  {w : Segment}

theorem EndCore.settled (h : EndCore base base' s s' start una r pending t)
    (hso : Sorted t.pcb.sendVars) (hset : t.pcb.sendVars.Settled) :
    EndInv base base' s s' start una r pending t := by
  obtain ⟨nxt, hsend⟩ := h.send
  exact ⟨h, hsend.ordered_of_settled hso hset⟩

theorem EndCore.aside (h : EndCore base base' s s' start una r pending t) (input : Bool)
    (ticks : U32) :
    EndCore base base' s s' start una r pending { t with input := input, ticks := ticks } :=
  ⟨h.grows, h.send, h.recv, h.eof, h.own, h.other, h.sent⟩

theorem EndInv.aside (h : EndInv base base' s s' start una r pending t) (input : Bool)
    (ticks : U32) :
    EndInv base base' s s' start una r pending { t with input := input, ticks := ticks } :=
  ⟨h.toEndCore.aside input ticks, h.ordered⟩

structure Arrives (base base' : U32) (s s' : Stream) (rp : ℕ) (w : Segment) : Prop where
  syn : w.syn = false
  le : rp ≤ s.len
  ack : w.rst = false →
    ∃ a, w.ackno = place base a ∧ a ≤ rp ∧ s.data.length < a + 2 ^ 30 + 2 ^ 15
  data : w.rst = false → 0 < w.tcplen →
    ∃ p, ChunkAt base' s' w.chunk p ∧ s'.data.length < p + 2 ^ 30 + 2 ^ 15

/-- What the application writes before the segment is looked at does not make it too old. -/
theorem Arrives.fresh (h : Arrives base base' s s' rp w)
    (ht : EndCore base base' s s' start una r pending t) (hle : una ≤ s.len) :
    Fresh base base' t.stream s' rp w := by
  obtain ⟨nxt, hsend⟩ := ht.send
  have hbound := hsend.bounded
  have hbuf : tcpSndBuf = 5840 := rfl
  have hfin : s.fin.toNat ≤ 1 := Bool.toNat_le s.fin
  have hlen : s.len = s.data.length + s.fin.toNat := rfl
  refine ⟨h.syn, fun hw => ?_, fun hw hpos => ?_⟩
  · obtain ⟨a, ha, hrp, hfresh⟩ := h.ack hw
    exact ⟨a, ⟨ha, hrp.trans (h.le.trans ht.grows.len_le), by omega⟩, hrp⟩
  · obtain ⟨p, hp, hfresh⟩ := h.data hw hpos
    exact ⟨p, hp, by omega⟩

theorem EndInv.process (h : EndInv base base' s s' start una r [] t) {res : Pcb.Processed}
    (hp : Processes base base' t.stream s' una r rp t.taken t.pcb res) :
    ∃ una' r', una ≤ una' ∧ (una' = una ∨ una' ≤ rp) ∧ r ≤ r' ∧
      EndCore base base' s s' start una' r' (res.recvData.getD [])
        (({ t with input := true } : Endpoint).sends (res.pcb, res.out)) ∧
      (res.recvData ≠ none ∨ res.gotFin = true →
        Whole s' r' (res.recvData.getD []) (({ t with input := true } : Endpoint).sends
          (res.pcb, res.out))) ∧
      (res.gotFin = true → r' = s'.data.length + 1) := by
  obtain ⟨una', nxt', hle, hack, hsend⟩ := hp.send
  obtain ⟨r', hle', htaken⟩ := hp.recv
  have hstream : (({ t with input := true } : Endpoint).sends (res.pcb, res.out)).stream = t.stream := by
    rw [Endpoint.stream, Endpoint.written_sends]
    exact congrArg (Stream.mk t.written) hsend.fin
  have htaken' : (({ t with input := true } : Endpoint).sends (res.pcb, res.out)).taken = t.taken :=
    Endpoint.taken_sends _ _
  have hown := h.own
  have hother := h.other
  refine ⟨una', r', hle, hack, hle', ?_, fun hne => ?_, htaken.gotFin⟩
  · refine
      { grows := hstream ▸ h.grows
        send := ⟨nxt', hstream ▸ hsend⟩
        recv := htaken' ▸ htaken.inv
        eof := fun hmem => ?_
        own := by omega
        other := by omega
        sent := fun w hw => ?_ }
    · rw [htaken']
      refine h.eof ?_
      rcases List.mem_append.mp hmem with hmem | hmem
      · exact hmem
      · obtain ⟨w, -, heq⟩ := List.mem_map.mp hmem
        exact absurd heq (by simp)
    · rw [hstream]
      rcases mem_drop_append hw with hold | hnew
      · exact (h.sent w hold).grow (Stream.Grows.refl _) hle'
      · obtain ⟨w', hw', heq⟩ := List.mem_map.mp hnew
        obtain rfl : w' = w := by injection heq
        exact ((hp.out w' hw').honest h.speaks).grow (Stream.Grows.refl _) hle'
  · obtain ⟨hnone, hall⟩ := htaken.whole hne
    exact ⟨hnone, by rw [htaken']; exact hall⟩

theorem EndCore.remove (h : EndCore base base' s s' start una r pending t)
    (hso : Sorted t.pcb.sendVars) (hw : pending ≠ [] → Whole s' r pending t) (alloc notify : Bool) :
    EndCore base base' s s' start una r [] (t.remove alloc notify) ∧
      Sorted (t.remove alloc notify).pcb.sendVars := by
  obtain ⟨t₁, ht₁, h₁, hf₁, hso₁⟩ : ∃ t₁, t₁ = (if notify then t.emit .error else t) ∧
      EndCore base base' s s' start una r pending t₁ ∧ CallFrame t t₁ ∧ Sorted t₁.pcb.sendVars := by
    cases notify with
    | true =>
      obtain ⟨hcore, hframe⟩ := h.emit_quiet .error rfl rfl (by simp)
        fun w hw => absurd hw (by simp)
      exact ⟨_, rfl, hcore, hframe, hso⟩
    | false => exact ⟨_, rfl, h, CallFrame.refl t, hso⟩
  unfold Endpoint.remove
  rw [← ht₁]
  obtain ⟨nxt, hsend⟩ := h₁.send
  obtain ⟨h₂, hf₂⟩ := h₁.sends (PcbStep.remove (t := t₁) hsend h₁.speaks alloc)
    (Stream.Grows.refl _) rfl
  refine ⟨?_, sorted_remove hsend h₁.speaks hso₁ alloc⟩
  by_cases hne : pending = []
  · subst hne
    exact h₂
  · have hw₂ := ((hw hne).frame hf₁).frame hf₂
    exact { h₂ with recv := { h₂.recv with
      inOrder := Or.inr ⟨by show ¬Keeps .closed; decide, hw₂.refused, rfl⟩
      oneHeld := Or.inr rfl } }

/-- With nothing new there is nothing to tell the application. -/
theorem callbacks_nothing {res : Pcb.Processed} (hacked : t.pcb.acked = 0)
    (hdata : res.recvData = none) (hfin : res.gotFin = false) (scr : Endpoint.Script) (alloc : Bool) :
    t.callbacks res scr alloc = t := by
  have hnew : ¬0 < t.pcb.acked := by omega
  unfold Endpoint.callbacks
  dsimp only
  rw [if_neg hnew, hdata]
  exact if_pos (Or.inr (by rw [hfin]; exact Bool.false_ne_true))

/-- What a step leaves: more may be acknowledged and taken, and the end is as it was before where
its queues are settled. -/
def Advances (base base' : U32) (s s' : Stream) (start una r rp : ℕ) (t : Endpoint) : Prop :=
  ∃ una' r', una ≤ una' ∧ (una' = una ∨ una' ≤ rp) ∧ r ≤ r' ∧
    (t.pcb.sendVars.Settled → EndInv base base' s s' start una' r' [] t)

theorem EndInv.advances (h : EndInv base base' s s' start una r [] t) :
    Advances base base' s s' start una r rp t :=
  ⟨una, r, le_rfl, Or.inl rfl, le_rfl, fun _ => h⟩

/-- After a third duplicate acknowledgement nothing is told to the application, and `tcp_output`
sends the segment that was put back, or leaves it in front. -/
theorem EndCore.finish (h : EndCore base base' s s' start una r [] t) (hso : Sorted t.pcb.sendVars)
    (alloc : Bool)
    (hset : (if t.dead then t else t.tcpOutput alloc).pcb.sendVars.Settled) :
    EndInv base base' s s' start una r [] (if t.dead then t else t.tcpOutput alloc) := by
  obtain ⟨nxt, hsend⟩ := h.send
  split at hset
  · rename_i hdead
    rw [if_pos hdead]
    exact h.settled hso hset
  · rename_i hdead
    rw [if_neg hdead]
    obtain ⟨hcore, -⟩ := h.sends (SendsOk.outputPcb hsend h.speaks alloc).step
      (Stream.Grows.refl _) rfl
    refine EndCore.settled hcore ?_ hset
    show Sorted (t.outputPcb alloc t.pcb).1.sendVars
    unfold Endpoint.outputPcb
    split
    · exact hso
    · exact sorted_tcpOutput hsend h.speaks hso t.ticks alloc

theorem EndInv.finish (h : EndInv base base' s s' start una r [] t) (alloc : Bool) :
    EndInv base base' s s' start una r [] (if t.dead then t else t.tcpOutput alloc) := by
  split
  · exact h
  · exact (h.tcpOutput alloc).1

theorem EndInv.inputActive (h : EndInv base base' s s' start una r [] t)
    (hf : Fresh base base' t.stream s' rp w) (hrefused : t.pcb.refusedData = none ∨ w.tcplen = 0)
    (scr : Endpoint.Script) (alloc : Bool) :
    Advances base base' s s' start una r rp (t.inputActive w scr alloc) := by
  obtain ⟨nxt, hsend⟩ := h.send
  have hp := Processes.process hsend h.ordered h.recv h.other hf hrefused t.ticks alloc
  obtain ⟨una', r', hle, hack, hle', hcore, hwhole, hfin⟩ := h.process hp
  have hso : Sorted (({ t with input := true } : Endpoint).sends
    ((t.pcb.tcpProcess t.ticks w alloc).pcb, (t.pcb.tcpProcess t.ticks w alloc).out)).pcb.sendVars :=
    hp.sorted
  have horder := hp.order
  refine ⟨una', r', hle, hack, hle', fun hset => ?_⟩
  unfold Endpoint.inputActive at hset ⊢
  dsimp only at hset ⊢
  have hpcb : (({ t with input := true } : Endpoint).sends ((t.pcb.tcpProcess t.ticks w alloc).pcb,
    (t.pcb.tcpProcess t.ticks w alloc).out)).pcb = (t.pcb.tcpProcess t.ticks w alloc).pcb := rfl
  generalize t.pcb.tcpProcess t.ticks w alloc = res at *
  generalize ({ t with input := true } : Endpoint).sends (res.pcb, res.out) = t₁ at *
  have hpending : res.recvData.getD [] ≠ [] → Whole s' r' (res.recvData.getD []) t₁ := by
    intro hne
    refine hwhole (Or.inl fun hnone => hne ?_)
    rw [hnone]
    rfl
  split at hset
  · rename_i hc
    rw [if_pos hc]
    obtain ⟨h₂, hso₂⟩ := hcore.remove hso hpending alloc true
    exact (h₂.aside false _).settled hso₂ hset
  rename_i hc
  rw [if_neg hc]
  split at hset
  · rename_i hc'
    rw [if_pos hc']
    obtain ⟨h₂, hso₂⟩ := hcore.remove hso hpending alloc (decide ¬t₁.pcb.tfRxclosed = true)
    exact (h₂.aside false _).settled hso₂ hset
  rename_i hc'
  rw [if_neg hc']
  rcases horder with hord | ⟨hacked, hnone, hnofin⟩
  · have h₁ : EndInv base base' s s' start una' r' (res.recvData.getD []) t₁ :=
      ⟨hcore, hpcb ▸ hord⟩
    exact ((h₁.callbacks hwhole hfin scr alloc).aside false _).finish alloc
  · rw [callbacks_nothing (hpcb ▸ hacked) hnone hnofin] at hset ⊢
    have hcore₁ : EndCore base base' s s' start una' r' [] t₁ := by
      rw [hnone] at hcore
      exact hcore
    exact (hcore₁.aside false _).finish hso alloc hset

/-! ## The steps -/

theorem EndInv.sent_rst (h : EndInv base base' s s' start una r [] t) {w' : Segment}
    (hsyn : w'.syn = false) (hrst : w'.rst = true) :
    EndInv base base' s s' start una r [] (t.emit (.sent w')) := by
  obtain ⟨hcore, -⟩ := h.toEndCore.emit_quiet (.sent w') rfl rfl (by simp) fun w heq => by
    obtain rfl : w' = w := by injection heq
    exact honest_rst hsyn hrst
  exact ⟨hcore, h.ordered⟩

theorem EndInv.timewaitInput (h : EndInv base base' s s' start una r [] t) (hsyn : w.syn = false)
    (alloc : Bool) : EndInv base base' s s' start una r [] (t.tcpTimewaitInput w alloc) := by
  unfold Endpoint.tcpTimewaitInput
  rw [hsyn]
  split
  · exact h
  split
  · rename_i hc
    exact absurd hc.1 Bool.false_ne_true
  split
  · obtain ⟨h₁, -⟩ := h.frame { t.pcb with tfAckNow := true } rfl (RecvStep.refl _)
    exact (h₁.tcpOutput alloc).1
  · exact h

theorem EndInv.tcpInput (h : EndInv base base' s s' start una r [] t)
    (hw : Arrives base base' s s' rp w) (hle : una ≤ s.len) (scr : Endpoint.Script) (alloc : Bool) :
    Advances base base' s s' start una r rp (t.tcpInput w scr alloc) := by
  unfold Endpoint.tcpInput
  split
  · split
    · exact h.advances
    · exact (h.sent_rst rfl rfl).advances
  split
  · exact (h.timewaitInput hw.syn alloc).advances
  have h₁ := h.processRefused scr
  dsimp only
  generalize t.tcpProcessRefusedData scr = t₁ at *
  split
  · exact h₁.advances
  · rename_i hc
    refine h₁.inputActive (hw.fresh h₁.toEndCore hle) ?_ scr alloc
    by_contra hno
    obtain ⟨hne, hlen⟩ := not_or.mp hno
    exact hc (Or.inr ⟨hne, Nat.pos_of_ne_zero hlen⟩)

theorem EndInv.expire (h : EndInv base base' s s' start una r [] t) :
    EndInv base base' s s' start una r [] { t with pcb := { t.pcb.purge with state := .closed } } := by
  obtain ⟨nxt, hsend⟩ := h.send
  have hstep : PcbStep base base' t.stream t.stream una s.data.length s'.data.length r t.pcb
      ({ t.pcb.purge with state := .closed }, []) :=
    PcbStep.purge hsend (by decide) fun w hw => absurd hw List.not_mem_nil
  obtain ⟨h₁, -⟩ := h.sends hstep (Stream.Grows.refl _) rfl
  have hlog : t.sends ({ t.pcb.purge with state := .closed }, []) =
      { t with pcb := { t.pcb.purge with state := .closed } } := by
    rw [Endpoint.sends, List.map_nil, List.append_nil]
  rwa [hlog] at h₁

theorem EndInv.slowtmrPcb (h : EndInv base base' s s' start una r [] t) (late : Bool) (past : ℕ)
    (alloc : Bool) : EndInv base base' s s' start una r [] (t.slowtmrPcb late past alloc) := by
  unfold Endpoint.slowtmrPcb
  split
  · exact h
  split
  · split
    · exact h.expire
    · exact h
  dsimp only
  have h₁ : EndInv base base' s s' start una r [] (if t.pcb.nrtx = tcpMaxrtx then t
      else t.sends (t.pcb.slowRetransmit t.ticks past alloc)) := by
    split
    · exact h
    · obtain ⟨nxt, hsend⟩ := h.send
      exact (h.sends (SendsOk.slowRetransmit hsend h.speaks t.ticks past alloc).step
        (Stream.Grows.refl _) rfl).1
  split
  · exact h₁.expire.emit_error.1
  · exact h₁

theorem EndInv.tcpSlowtmr (h : EndInv base base' s s' start una r [] t) (late : Bool) (past : ℕ)
    (alloc : Bool) : EndInv base base' s s' start una r [] (t.tcpSlowtmr late past alloc) :=
  (h.aside t.input (t.ticks + 1)).slowtmrPcb late past alloc

theorem EndInv.tcpFasttmr (h : EndInv base base' s s' start una r [] t) (scr : Endpoint.Script)
    (alloc : Bool) : EndInv base base' s s' start una r [] (t.tcpFasttmr scr alloc) := by
  unfold Endpoint.tcpFasttmr
  split
  · exact h
  dsimp only
  split
  · obtain ⟨h₁, -⟩ := h.frame t.pcb.tcpAckNow rfl (RecvStep.refl _)
    have h₂ := (h₁.tcpOutput alloc).1
    generalize ({ t with pcb := t.pcb.tcpAckNow } : Endpoint).tcpOutput alloc = t₂ at *
    exact (h₂.frame { t₂.pcb with tfAckDelay := false, tfAckNow := false } rfl
      (RecvStep.refl _)).1.processRefused scr
  · exact h.processRefused scr

end EnvirMonitor.Tcp
