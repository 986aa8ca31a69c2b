import EnvirMonitor.Tcp.Endpoint

/-! The callbacks: data reaches the application once and in order, refused data later, and the end
of the stream after all of it. -/

namespace EnvirMonitor.Tcp
open Machine
open Client (TcpState tcpMss tcpWnd)

variable {base base' : U32} {s s' : Stream} {start una r : ℕ} {pending : List U8} {t t' : Endpoint}

/-- Nothing is refused, and what is taken and pending is all up to position `r`. -/
structure Whole (s' : Stream) (r : ℕ) (pending : List U8) (t : Endpoint) : Prop where
  refused : t.pcb.refusedData = none
  all : t.taken ++ pending = s'.data.take r

theorem Whole.frame (h : Whole s' r pending t) (hf : CallFrame t t') : Whole s' r pending t' := by
  refine ⟨?_, by rw [hf.taken]; exact h.all⟩
  rcases hf.recv.refused with heq | ⟨-, hnone⟩
  · exact heq.trans h.refused
  · exact hnone

theorem RecvVars.refused_of_none {v : RecvVars} (h : v.refusedData = none) : v.refused = [] := by
  rw [RecvVars.refused, h]
  rfl

theorem EndInv.received (h : EndInv base base' s s' start una r pending t)
    (hw : Whole s' r pending t) :
    EndInv base base' s s' start una r [] (t.emit (.received pending)) ∧
      Whole s' r [] (t.emit (.received pending)) := by
  have hall : (t.taken ++ pending) ++ [] = s'.data.take r := by rw [List.append_nil, hw.all]
  have htaken : (t.emit (.received pending)).taken = t.taken ++ pending := Endpoint.taken_emit _ _
  refine ⟨⟨h.toEndCore.emit rfl ?_ (fun hmem => ?_) fun w heq => absurd heq (by simp), h.ordered⟩,
    hw.refused, by rw [htaken]; exact hall⟩
  · refine { h.recv with
      isPrefix := ?_
      inOrder := Or.inl ?_
      oneHeld := Or.inr rfl }
    · show t.taken ++ pending <+: s'.data
      rw [hw.all]
      exact List.take_prefix r s'.data
    · rw [RecvVars.refused_of_none hw.refused, List.append_nil]
      exact hall
  · obtain ⟨heq, hfin⟩ := h.eof (mem_emit (by simp) hmem)
    refine ⟨?_, hfin⟩
    -- nothing can be left behind the end
    have hlen := congrArg List.length hw.all
    rw [List.length_append, List.length_take, heq] at hlen
    have hnil : pending = [] := List.length_eq_zero_iff.mp (by omega)
    show t.taken ++ pending = s'.data
    rw [hnil, List.append_nil, heq]

theorem EndInv.eventClosed (h : EndInv base base' s s' start una r [] t) (hw : Whole s' r [] t)
    (hr : r = s'.data.length + 1) (cs : List AppCall) :
    EndInv base base' s s' start una r [] (t.eventClosed cs) := by
  obtain ⟨h₁, hf₁⟩ := h.frame t.creditFin.pcb rfl (by
    refine ⟨rfl, fun hle => ?_, id, id, Or.inl rfl⟩
    show (if t.pcb.rcvWnd ≠ tcpWnd then t.pcb.rcvWnd + 1 else t.pcb.rcvWnd) ≤ tcpWnd
    have hle' : t.pcb.rcvWnd ≤ tcpWnd := hle
    split_ifs <;> omega)
  have hall := (hw.frame hf₁).all
  rw [List.append_nil, List.take_of_length_le (by omega)] at hall
  have hfin : s'.fin = true := by
    have hle := h.recv.le
    rw [Stream.len] at hle
    cases hf : s'.fin with
    | true => rfl
    | false =>
      rw [hf, Bool.toNat_false] at hle
      omega
  have h₂ : EndInv base base' s s' start una r [] (t.creditFin.emit .eof) := by
    refine ⟨h₁.toEndCore.emit rfl ?_ (fun _ => ⟨?_, hfin⟩) fun w heq => absurd heq (by simp),
      h₁.ordered⟩
    · rw [show TcpEvent.taken .eof = [] from rfl, List.append_nil]
      exact h₁.recv
    · rw [show TcpEvent.taken .eof = [] from rfl, List.append_nil]
      exact hall
  exact (h₂.calls cs).1

/-- Data on its way to a connection that is gone is lost. -/
theorem EndInv.drop (h : EndInv base base' s s' start una r pending t) (hw : Whole s' r pending t)
    (hk : ¬Keeps t.pcb.state) : EndInv base base' s s' start una r [] t := by
  have hrecv : RecvInv base' s' r t.taken [] t.pcb.recvVars := { h.recv with
    inOrder := Or.inr ⟨hk, hw.refused, rfl⟩
    oneHeld := Or.inr rfl }
  exact h.receives t.pcb rfl hrecv

theorem gone_of_dead (h : t.dead) : ¬Keeps t.pcb.state := fun hk => hk.2 h

theorem EndInv.eventRecv (h : EndInv base base' s s' start una r pending t)
    (hw : Whole s' r pending t) (fin : Bool) (hfin : fin = true → r = s'.data.length + 1)
    (cs : List AppCall) (taken : Bool) :
    EndInv base base' s s' start una r [] (t.eventRecv pending fin cs taken) ∧
      ((t.eventRecv pending fin cs taken).dead ∨
        (t.eventRecv pending fin cs taken).pcb.refusedData ≠ none ∨
        Whole s' r [] (t.eventRecv pending fin cs taken)) ∧
      (taken = true → Whole s' r [] (t.eventRecv pending fin cs taken)) := by
  unfold Endpoint.eventRecv
  split
  · obtain ⟨h₁, hw₁⟩ := h.received hw
    obtain ⟨h₂, hf₂⟩ := h₁.calls cs
    have hw₂ := hw₁.frame hf₂
    exact ⟨h₂, Or.inr (Or.inr hw₂), fun _ => hw₂⟩
  · rename_i htaken
    obtain ⟨h₁, hf₁⟩ := h.calls cs
    have hw₁ := hw.frame hf₁
    dsimp only
    generalize t.calls cs = t₁ at *
    split
    · rename_i hdead
      exact ⟨h₁.drop hw₁ (gone_of_dead hdead), Or.inl hdead, fun ht => absurd ht htaken⟩
    · refine ⟨h₁.receives { t₁.pcb with refusedData := some (pending, fin) } rfl
        { h₁.recv with
          inOrder := Or.inl ?_
          oneHeld := Or.inr rfl
          refusedFin := fun data heq => hfin ?_ }, Or.inr (Or.inl (Option.some_ne_none _)),
        fun ht => absurd ht htaken⟩
      · show t₁.taken ++ pending ++ [] = s'.data.take r
        rw [List.append_nil]
        exact hw₁.all
      · exact (Prod.mk.inj (Option.some.inj heq)).2

/-- What was refused is offered again before anything new. -/
theorem EndInv.processRefused (h : EndInv base base' s s' start una r [] t) (scr : Endpoint.Script) :
    EndInv base base' s s' start una r [] (t.tcpProcessRefusedData scr) := by
  unfold Endpoint.tcpProcessRefusedData
  cases hd : t.pcb.refusedData with
  | none => exact h
  | some held =>
    obtain ⟨data, fin⟩ := held
    dsimp only
    have hall : t.taken ++ data = s'.data.take r := by
      rcases h.recv.inOrder with heq | ⟨-, hnone, -⟩
      · rw [RecvVars.refused, show t.pcb.recvVars.refusedData = some (data, fin) from hd,
          List.append_nil] at heq
        exact heq
      · exact absurd (hd.symm.trans hnone) (Option.some_ne_none _)
    have hfin : fin = true → r = s'.data.length + 1 := by
      rintro rfl
      exact h.recv.refusedFin data hd
    have h₁ : EndInv base base' s s' start una r data
        { t with pcb := { t.pcb with refusedData := none } } := by
      refine h.receives _ rfl { h.recv with
        inOrder := Or.inl ?_
        oneHeld := Or.inl rfl
        refusedFin := fun data heq => absurd heq (Option.some_ne_none _).symm }
      show t.taken ++ [] ++ data = s'.data.take r
      rw [List.append_nil]
      exact hall
    have hw₁ : Whole s' r data { t with pcb := { t.pcb with refusedData := none } } := ⟨rfl, hall⟩
    obtain ⟨h₂, -, hw₂⟩ := h₁.eventRecv hw₁ fin hfin scr.refused scr.refusedTaken
    split
    · rename_i hc
      exact h₂.eventClosed (hw₂ hc.2.1) (hfin hc.2.2) scr.refusedClosed
    · exact h₂

/-! ## The callbacks of `tcp_input` -/

theorem state_tcpAbort (t : Endpoint) (alloc : Bool) : (t.tcpAbort alloc).dead := by
  have hremove (pcb : Pcb) (output : Pcb → Pcb × List Segment) :
      (pcb.tcpAbort output).1.state = .closed := by
    unfold Pcb.tcpAbort Pcb.tcpPcbRemove
    dsimp only
    split <;> rfl
  unfold Endpoint.tcpAbort
  dsimp only
  split <;> exact hremove t.pcb (t.outputPcb alloc)

theorem EndInv.deliver (h : EndInv base base' s s' start una r pending t)
    (hw : Whole s' r pending t) (scr : Endpoint.Script) (alloc : Bool) :
    EndInv base base' s s' start una r [] (t.deliver pending scr alloc) ∧
      ((t.deliver pending scr alloc).dead ∨ (t.deliver pending scr alloc).pcb.refusedData ≠ none ∨
        Whole s' r [] (t.deliver pending scr alloc)) := by
  unfold Endpoint.deliver
  split
  · obtain ⟨h₁, hf₁⟩ := h.tcpAbort alloc
    have hdead := state_tcpAbort t alloc
    exact ⟨h₁.drop (hw.frame hf₁) (gone_of_dead hdead), Or.inl hdead⟩
  · obtain ⟨h₁, hcases, -⟩ := h.eventRecv hw false
      (fun hf => absurd hf Bool.false_ne_true) scr.recv scr.taken
    exact ⟨h₁, hcases⟩

/-- The FIN is kept with data that is refused. -/
theorem EndInv.deliverFin (h : EndInv base base' s s' start una r [] t)
    (hr : r = s'.data.length + 1) (hw : t.pcb.refusedData ≠ none ∨ Whole s' r [] t)
    (scr : Endpoint.Script) : EndInv base base' s s' start una r [] (t.deliverFin scr) := by
  unfold Endpoint.deliverFin
  cases hd : t.pcb.refusedData with
  | none => exact h.eventClosed (hw.resolve_left fun hne => hne hd) hr scr.closed
  | some held =>
    obtain ⟨data, fin⟩ := held
    refine h.receives _ rfl { h.recv with
      inOrder := Or.inl ?_
      oneHeld := Or.inr rfl
      refusedFin := fun _ _ => hr }
    rcases h.recv.inOrder with heq | ⟨-, hnone, -⟩
    · rw [RecvVars.refused, show t.pcb.recvVars.refusedData = some (data, fin) from hd] at heq
      exact heq
    · exact absurd (hd.symm.trans hnone) (Option.some_ne_none _)

theorem EndInv.deliverData {data : Option (List U8)}
    (h : EndInv base base' s s' start una r (data.getD []) t) {gotFin : Prop}
    (hw : data ≠ none ∨ gotFin → Whole s' r (data.getD []) t) (scr : Endpoint.Script) (alloc : Bool) :
    EndInv base base' s s' start una r [] (t.deliverData data scr alloc) ∧
      (gotFin → (t.deliverData data scr alloc).dead ∨
        (t.deliverData data scr alloc).pcb.refusedData ≠ none ∨
        Whole s' r [] (t.deliverData data scr alloc)) := by
  unfold Endpoint.deliverData
  cases data with
  | none => exact ⟨h, fun hf => Or.inr (Or.inr (hw (Or.inr hf)))⟩
  | some data =>
    have hw₁ := hw (Or.inl (Option.some_ne_none _))
    dsimp only
    split
    · rename_i hdead
      exact ⟨h.drop hw₁ (gone_of_dead hdead), fun _ => Or.inl hdead⟩
    · obtain ⟨h₂, hw₂⟩ := h.deliver hw₁ scr alloc
      exact ⟨h₂, fun _ => hw₂⟩

theorem EndInv.callbacks {res : Pcb.Processed}
    (h : EndInv base base' s s' start una r (res.recvData.getD []) t)
    (hw : res.recvData ≠ none ∨ res.gotFin = true → Whole s' r (res.recvData.getD []) t)
    (hr : res.gotFin = true → r = s'.data.length + 1) (scr : Endpoint.Script) (alloc : Bool) :
    EndInv base base' s s' start una r [] (t.callbacks res scr alloc) := by
  unfold Endpoint.callbacks
  dsimp only
  obtain ⟨h₁, hf₁⟩ : EndInv base base' s s' start una r (res.recvData.getD [])
      (if 0 < t.pcb.acked then t.calls scr.sent else t) ∧
      CallFrame t (if 0 < t.pcb.acked then t.calls scr.sent else t) := by
    split
    · exact h.calls scr.sent
    · exact ⟨h, CallFrame.refl t⟩
  generalize (if 0 < t.pcb.acked then t.calls scr.sent else t) = t₁ at *
  obtain ⟨h₂, hw₂⟩ := h₁.deliverData (fun hne => (hw hne).frame hf₁) scr alloc
  generalize t₁.deliverData res.recvData scr alloc = t₂ at *
  split
  · exact h₂
  · rename_i hc
    have hf : res.gotFin = true := by
      by_contra hf
      exact hc (Or.inr hf)
    have hdead : ¬t₂.dead := fun hdead => hc (Or.inl hdead)
    exact h₂.deliverFin (hr hf) ((hw₂ hf).resolve_left hdead) scr

end EnvirMonitor.Tcp
