import EnvirMonitor.Tcp.Acknowledge

/-! The second half of `tcp_receive` and the states of closing: the receiver takes exactly the next
part of the stream, whatever the segment repeats of it. -/

namespace EnvirMonitor.Tcp
open Machine
open Client (TcpState tcpMss tcpWnd)

variable {base : U32} {s : Stream} {r : ℕ} {received : List U8} {pcb : Pcb}

structure FreshData (base : U32) (s : Stream) (p : ℕ) (c : Chunk) : Prop
    extends ChunkAt base s c p where
  fresh : s.data.length < p + 2 ^ 30 + 2 ^ 16

/-- What `tcp_process` has when it looks at the state: `r'` positions are taken, and
`recv_data` is on its way. -/
structure Received (base : U32) (s : Stream) (r' : ℕ) (received : List U8) (res : Pcb.Processed) :
    Prop where
  rcvNxt : res.pcb.rcvNxt = place base r'
  le : r' ≤ s.len
  window : res.pcb.rcvWnd ≤ tcpWnd
  inOrder : received ++ res.pcb.recvVars.refused ++ res.recvData.getD [] = s.data.take r'
  oneHeld : res.pcb.refusedData = none ∨ res.recvData = none
  ended : Receives res.pcb.state → res.gotFin = false → r' ≤ s.data.length
  gotFin : res.gotFin = true → r' = s.data.length + 1 ∧ res.pcb.refusedData = none
  refusedFin : ∀ data, res.pcb.refusedData = some (data, true) → r' = s.data.length + 1

theorem Receives.keeps {state : TcpState} (h : Receives state) : Keeps state := by
  rcases h with rfl | rfl | rfl <;> rw [Keeps] <;> decide

theorem RecvInv.inOrder_of_keeps {pending : List U8} {v : RecvVars}
    (h : RecvInv base s r received pending v) (hk : Keeps v.state) :
    received ++ v.refused ++ pending = s.data.take r := by
  rcases h.inOrder with heq | ⟨hgone, -⟩
  · exact heq
  · exact absurd hk hgone

theorem RecvInv.unchanged (h : RecvInv base s r received [] pcb.recvVars) (hk : Keeps pcb.state)
    (pcb' : Pcb) (hp : pcb'.recvVars = pcb.recvVars) {out : List Segment} :
    Received base s r received { pcb'.unchanged with out := out } where
  rcvNxt := (congrArg RecvVars.rcvNxt hp).trans h.rcvNxt
  le := h.le
  window := (congrArg RecvVars.rcvWnd hp).le.trans h.window
  inOrder := by
    have := h.inOrder_of_keeps hk
    rw [← hp] at this
    exact this
  oneHeld := Or.inr rfl
  ended := fun hs _ => h.ended (hp ▸ hs)
  gotFin := fun hf => absurd hf Bool.false_ne_true
  refusedFin := fun data hd => h.refusedFin data ((congrArg RecvVars.refusedData hp).symm.trans hd)

/-! ## The next part of the stream -/

theorem vars_tcpUpdateRcvAnnWnd (pcb : Pcb) :
    pcb.tcpUpdateRcvAnnWnd.1.sendVars = pcb.sendVars ∧
      pcb.tcpUpdateRcvAnnWnd.1.recvVars = pcb.recvVars ∧
      pcb.tcpUpdateRcvAnnWnd.1.acked = pcb.acked := by
  unfold Pcb.tcpUpdateRcvAnnWnd
  dsimp only
  split_ifs <;> exact ⟨rfl, rfl, rfl⟩

theorem vars_tcpAck (pcb : Pcb) : pcb.tcpAck.sendVars = pcb.sendVars ∧
    pcb.tcpAck.recvVars = pcb.recvVars ∧ pcb.tcpAck.acked = pcb.acked := by
  unfold Pcb.tcpAck
  split <;> exact ⟨rfl, rfl, rfl⟩

def Pcb.Inseg.chunk (inseg : Pcb.Inseg) : Chunk := ⟨inseg.seqno, inseg.data, inseg.fin⟩

theorem chunkAt_trimEnd (pcb : Pcb) {inseg : Pcb.Inseg} (h : ChunkAt base s inseg.chunk r) :
    ChunkAt base s (pcb.trimEnd inseg).chunk r ∧ (pcb.trimEnd inseg).tcplen ≤ pcb.rcvWnd := by
  unfold Pcb.trimEnd
  split
  · refine ⟨⟨h.seqno, h.data.take _, fun hf => absurd hf Bool.false_ne_true⟩, ?_⟩
    show (inseg.data.take pcb.rcvWnd).length + 0 ≤ pcb.rcvWnd
    rw [List.length_take]
    omega
  · exact ⟨h, by omega⟩

theorem RecvInv.takeData (h : RecvInv base s r received [] pcb.recvVars)
    (hs : Receives pcb.state) (hrefused : pcb.refusedData = none) {inseg : Pcb.Inseg}
    (hc : ChunkAt base s inseg.chunk r) :
    ∃ r', r ≤ r' ∧ Received base s r' received (pcb.takeData inseg) := by
  obtain ⟨hc', hfit⟩ := chunkAt_trimEnd pcb hc
  unfold Pcb.takeData
  dsimp only
  generalize pcb.trimEnd inseg = inseg' at *
  generalize hpcb : ({ pcb with rcvNxt := _, rcvWnd := _ } : Pcb) = pcb₁
  have hvars : pcb₁.recvVars = ⟨pcb.state, inseg'.seqno + BitVec.ofNat 32 inseg'.tcplen,
      pcb.rcvWnd - inseg'.tcplen, pcb.refusedData⟩ := by
    rw [← hpcb]
    rfl
  have hrecv : pcb₁.tcpUpdateRcvAnnWnd.1.tcpAck.recvVars = pcb₁.recvVars :=
    (vars_tcpAck _).2.1.trans (vars_tcpUpdateRcvAnnWnd _).2.1
  rw [hvars] at hrecv
  generalize pcb₁.tcpUpdateRcvAnnWnd.1.tcpAck = pcb₂ at *
  have hnxt : pcb₂.rcvNxt = _ := congrArg RecvVars.rcvNxt hrecv
  have hwnd : pcb₂.rcvWnd = _ := congrArg RecvVars.rcvWnd hrecv
  have hnone : pcb₂.refusedData = none := (congrArg RecvVars.refusedData hrecv).trans hrefused
  have hlen : inseg'.tcplen = inseg'.data.length + inseg'.fin.toNat := rfl
  have hend := hc'.end_le
  have hwindow := h.window
  have hdata := hc'.data.length_le
  have hbefore : received = s.data.take r := by
    have heq := h.inOrder_of_keeps hs.keeps
    have hnil : pcb.recvVars.refused = [] := by
      rw [RecvVars.refused, show pcb.recvVars.refusedData = none from hrefused]
      rfl
    rwa [hnil, List.append_nil, List.append_nil] at heq
  refine ⟨r + inseg'.tcplen, Nat.le_add_right _ _,
    { rcvNxt := ?_
      le := hend
      window := by rw [hwnd]; exact (Nat.sub_le _ _).trans hwindow
      inOrder := ?_
      oneHeld := Or.inl hnone
      ended := fun _ hf => ?_
      gotFin := fun hf => ⟨?_, hnone⟩
      refusedFin := fun data hd => absurd (hnone.symm.trans hd) (Option.some_ne_none _).symm }⟩
  · rw [hnxt]
    exact hc'.seqno_end
  · have hnil : pcb₂.recvVars.refused = [] := by
      rw [RecvVars.refused, show pcb₂.recvVars.refusedData = none from hnone]
      rfl
    have hdata' : (if inseg'.data = [] then none else some inseg'.data).getD [] = inseg'.data := by
      split_ifs with he
      · exact he.symm
      · rfl
    rw [hnil, List.append_nil, hdata', hbefore]
    refine hc'.data.take_append.trans ?_
    cases hf : inseg'.fin with
    | false =>
      rw [hlen, hf]
      rfl
    | true =>
      -- behind the FIN there is nothing
      obtain ⟨-, hall⟩ := hc'.fin hf
      have hall' : r + inseg'.data.length = s.data.length := hall
      rw [show r + inseg'.chunk.data.length = s.data.length from hall, List.take_length,
        List.take_of_length_le (by omega)]
  · have hf' : inseg'.fin = false := hf
    have hdata' : r + inseg'.data.length ≤ s.data.length := hdata
    rw [hlen, hf', Bool.toNat_false]
    omega
  · have hf' : inseg'.fin = true := hf
    have hall : r + inseg'.data.length = s.data.length := (hc'.fin hf').2
    rw [hlen, hf', Bool.toNat_true]
    omega

/-! ## Trimming -/

theorem RecvInv.near (h : RecvInv base s r received [] pcb.recvVars)
    (hbound : s.data.length ≤ r + tcpSndBuf) {c : Chunk} {p : ℕ} (hc : FreshData base s p c)
    {q : ℕ} (hq : p ≤ q) (hq' : q ≤ p + c.tcplen) : Near 32 r q ∧ Near 32 q r := by
  have hle := h.le
  have hend := hc.toChunkAt.end_le
  have hfresh := hc.fresh
  have hbuf : tcpSndBuf = 5840 := rfl
  have hfin : s.fin.toNat ≤ 1 := Bool.toNat_le s.fin
  have hlen : s.len = s.data.length + s.fin.toNat := rfl
  constructor <;> constructor <;> omega

theorem RecvInv.trimFront (h : RecvInv base s r received [] pcb.recvVars)
    (hbound : s.data.length ≤ r + tcpSndBuf) (hs : Receives pcb.state) (inseg : Pcb.Inseg) {p : ℕ}
    (hc : FreshData base s p inseg.chunk) (hpos : 0 < inseg.tcplen) :
    (pcb.trimFront inseg).1.sendVars = pcb.sendVars ∧
      (pcb.trimFront inseg).1.recvVars = pcb.recvVars ∧
      (pcb.trimFront inseg).1.acked = pcb.acked ∧
      (pcb.rcvNxt = (pcb.trimFront inseg).2.seqno →
        ChunkAt base s (pcb.trimFront inseg).2.chunk r) := by
  have hseq : inseg.seqno = place base p := hc.seqno
  have hnxt : pcb.rcvNxt = place base r := h.rcvNxt
  have hle : r ≤ s.data.length := h.ended hs
  have hlen : inseg.chunk.tcplen = inseg.tcplen := rfl
  have hlen' : inseg.tcplen = inseg.data.length + inseg.fin.toNat := rfl
  have hlast : inseg.seqno + BitVec.ofNat 32 inseg.tcplen - 1 = place base (p + inseg.tcplen - 1) := by
    rw [hseq, place_add]
    exact place_pred base (by omega)
  have hbetween : tcpSeqBetween pcb.rcvNxt (inseg.seqno + 1)
      (inseg.seqno + BitVec.ofNat 32 inseg.tcplen - 1) ↔ p + 1 ≤ r ∧ r ≤ p + inseg.tcplen - 1 := by
    rw [hlast, hnxt, hseq, show place base p + 1 = place base (p + 1) from place_add base p 1]
    exact tcpSeqBetween_iff (h.near hbound hc (by omega) (by omega)).1
      (h.near hbound hc (by omega) (by omega)).1
  unfold Pcb.trimFront
  dsimp only
  split
  · rename_i hb
    obtain ⟨h₁, h₂⟩ := hbetween.mp hb
    refine ⟨rfl, rfl, rfl, fun _ => ?_⟩
    have hoff : (pcb.rcvNxt - inseg.seqno).toInt.toNat = r - p := by
      rw [hnxt, hseq, toInt_place_sub base (by decide) (h.near hbound hc le_rfl (by omega)).1]
      omega
    have hfin : inseg.fin.toNat ≤ 1 := Bool.toNat_le inseg.fin
    have hdrop : StandsAt s.data r (inseg.data.drop (r - p)) := by
      have := hc.data.drop (n := r - p) (show r - p ≤ inseg.data.length by omega)
      rwa [Nat.add_sub_cancel' (by omega)] at this
    rw [hoff]
    refine ⟨hnxt, hdrop, fun hf => ?_⟩
    obtain ⟨hsfin, hend⟩ := hc.fin hf
    have hend' : p + inseg.data.length = s.data.length := hend
    refine ⟨hsfin, ?_⟩
    show r + (inseg.data.drop (r - p)).length = s.data.length
    rw [List.length_drop]
    omega
  · have hchunk : pcb.rcvNxt = inseg.seqno → ChunkAt base s inseg.chunk r := by
      intro heq
      rw [hnxt, hseq] at heq
      have := (place_inj base (by decide) (h.near hbound hc le_rfl (by omega)).1).mp heq
      subst this
      exact hc.toChunkAt
    split <;> exact ⟨rfl, rfl, rfl, hchunk⟩

theorem vars_takeData (pcb : Pcb) (inseg : Pcb.Inseg) :
    (pcb.takeData inseg).pcb.sendVars = pcb.sendVars ∧
      (pcb.takeData inseg).pcb.acked = pcb.acked ∧ (pcb.takeData inseg).out = [] ∧
      (pcb.takeData inseg).tfReset = false ∧ (pcb.takeData inseg).tfClosed = false := by
  unfold Pcb.takeData
  dsimp only
  generalize hpcb : ({ pcb with rcvNxt := _, rcvWnd := _ } : Pcb) = pcb₁
  refine ⟨?_, ?_, rfl, rfl, rfl⟩
  · rw [(vars_tcpAck _).1, (vars_tcpUpdateRcvAnnWnd _).1, ← hpcb]
    rfl
  · rw [(vars_tcpAck _).2.2, (vars_tcpUpdateRcvAnnWnd _).2.2, ← hpcb]

def EmptyAck (pcb : Pcb) (w : Segment) : Prop :=
  ∃ pcb' : Pcb, pcb'.recvVars = pcb.recvVars ∧ w = pcb'.header pcb'.sndNxt false []

theorem vars_tcpSendEmptyAck (pcb : Pcb) (alloc : Bool) :
    (pcb.tcpSendEmptyAck alloc).1.sendVars = pcb.sendVars ∧
      (pcb.tcpSendEmptyAck alloc).1.recvVars = pcb.recvVars ∧
      (pcb.tcpSendEmptyAck alloc).1.acked = pcb.acked ∧
      ∀ w ∈ (pcb.tcpSendEmptyAck alloc).2, EmptyAck pcb w := by
  unfold Pcb.tcpSendEmptyAck
  split
  · exact ⟨rfl, rfl, rfl, fun w hw => absurd hw List.not_mem_nil⟩
  · exact ⟨rfl, rfl, rfl, fun w hw => ⟨pcb, rfl, List.mem_singleton.mp hw⟩⟩

structure ReceiveFrame (pcb : Pcb) (w : Segment) (res : Pcb.Processed) : Prop where
  send : res.pcb.sendVars = pcb.sendVars
  acked : res.pcb.acked = pcb.acked
  empty : w.tcplen = 0 → res.recvData = none ∧ res.gotFin = false
  tfReset : res.tfReset = false
  tfClosed : res.tfClosed = false
  out : ∀ w' ∈ res.out, EmptyAck pcb w'

/-- The second half of `tcp_receive` takes the next part of the stream, or nothing. -/
theorem RecvInv.receiveData (h : RecvInv base s r received [] pcb.recvVars)
    (hk : Keeps pcb.state) (hbound : s.data.length ≤ r + tcpSndBuf) {w : Segment} (alloc : Bool)
    (hsyn : w.syn = false) (hw : 0 < w.tcplen → ∃ p, FreshData base s p w.chunk)
    (hrefused : pcb.refusedData = none ∨ w.tcplen = 0) :
    (∃ r', r ≤ r' ∧ Received base s r' received (pcb.receiveData w alloc)) ∧
      ReceiveFrame pcb w (pcb.receiveData w alloc) := by
  unfold Pcb.receiveData
  split
  · rename_i hc
    obtain ⟨hpos, hs⟩ := hc
    obtain ⟨p, hp⟩ := hw hpos
    have hlen : (⟨w.seqno, w.data, w.fin⟩ : Pcb.Inseg).tcplen = w.tcplen := by
      rw [Segment.tcplen, hsyn, Bool.or_false]
      rfl
    obtain ⟨hsend, hrecv, hacked, hchunk⟩ := h.trimFront hbound hs
      ⟨w.seqno, w.data, w.fin⟩ hp (by omega)
    generalize pcb.trimFront ⟨w.seqno, w.data, w.fin⟩ = res₁ at *
    obtain ⟨pcb₁, inseg⟩ := res₁
    dsimp only at *
    have h₁ : RecvInv base s r received [] pcb₁.recvVars := hrecv ▸ h
    have hstate : pcb₁.state = pcb.state := congrArg RecvVars.state hrecv
    have hnxt : pcb₁.rcvNxt = pcb.rcvNxt := congrArg RecvVars.rcvNxt hrecv
    split
    · rename_i hb
      have hnone : pcb₁.refusedData = none := by
        rw [show pcb₁.refusedData = pcb.refusedData from congrArg RecvVars.refusedData hrecv]
        exact hrefused.resolve_right (by omega)
      obtain ⟨hsend', hacked', hout, hreset, hclosed⟩ := vars_takeData pcb₁ inseg
      refine ⟨h₁.takeData (hstate ▸ hs) hnone (hchunk (hnxt.symm.trans hb.2)),
        hsend'.trans hsend, hacked'.trans hacked, fun hzero => by omega, hreset, hclosed,
        fun w' hw' => ?_⟩
      rw [hout] at hw'
      exact absurd hw' List.not_mem_nil
    · obtain ⟨hsend', hrecv', hacked', hout⟩ := vars_tcpSendEmptyAck pcb₁ alloc
      refine ⟨⟨r, le_rfl, h.unchanged hk (pcb₁.tcpSendEmptyAck alloc).1
        (hrecv'.trans hrecv)⟩, hsend'.trans hsend, hacked'.trans hacked, fun _ => ⟨rfl, rfl⟩, rfl, rfl,
        fun w' hw' => ?_⟩
      obtain ⟨pcb', hp', heq⟩ := hout w' hw'
      exact ⟨pcb', hp'.trans hrecv, heq⟩
  · have hnone (w' : Segment) (hw' : w' ∈ ([] : List Segment)) : EmptyAck pcb w' :=
      absurd hw' List.not_mem_nil
    split
    · exact ⟨⟨r, le_rfl, h.unchanged hk pcb.tcpAckNow rfl⟩, rfl, rfl, fun _ => ⟨rfl, rfl⟩,
        rfl, rfl, hnone⟩
    · exact ⟨⟨r, le_rfl, h.unchanged hk pcb rfl⟩, rfl, rfl, fun _ => ⟨rfl, rfl⟩, rfl, rfl,
        hnone⟩

/-! ## The states of closing -/

/-- What the receiving side of a control block may do without taking data. -/
structure RecvStep (v v' : RecvVars) : Prop where
  rcvNxt : v'.rcvNxt = v.rcvNxt
  window : v.rcvWnd ≤ tcpWnd → v'.rcvWnd ≤ tcpWnd
  receives : Receives v'.state → Receives v.state
  gone : ¬Keeps v.state → ¬Keeps v'.state
  refused : v'.refusedData = v.refusedData ∨ ¬Keeps v'.state ∧ v'.refusedData = none

namespace RecvStep

variable {v v' v'' : RecvVars}

theorem refl (v : RecvVars) : RecvStep v v := ⟨rfl, id, id, id, Or.inl rfl⟩

theorem of_eq (h : v' = v) : RecvStep v v' := h ▸ refl v

theorem trans (h : RecvStep v v') (h' : RecvStep v' v'') : RecvStep v v'' := by
  refine ⟨h'.rcvNxt.trans h.rcvNxt, h'.window ∘ h.window, h.receives ∘ h'.receives,
    h'.gone ∘ h.gone, ?_⟩
  rcases h'.refused with heq | hgone
  · rcases h.refused with heq' | ⟨hk, hnone⟩
    · exact Or.inl (heq.trans heq')
    · exact Or.inr ⟨h'.gone hk, heq.trans hnone⟩
  · exact Or.inr hgone

theorem toState (v : RecvVars) (state : TcpState) (hr : Receives state → Receives v.state)
    (hk : ¬Keeps v.state → ¬Keeps state) : RecvStep v { v with state := state } :=
  ⟨rfl, id, hr, hk, Or.inl rfl⟩

theorem purge (pcb : Pcb) {state : TcpState} (hk : ¬Keeps state) :
    RecvStep { pcb.recvVars with state := state } { pcb.purge.recvVars with state := state } := by
  unfold Pcb.purge
  split
  · exact refl _
  · exact ⟨rfl, id, id, id, Or.inr ⟨hk, rfl⟩⟩

theorem leave (pcb : Pcb) {state : TcpState} (hk : ¬Keeps state) :
    RecvStep pcb.recvVars { pcb.purge.recvVars with state := state } :=
  (toState pcb.recvVars state (fun hr => absurd hr.keeps hk) fun _ => hk).trans (purge pcb hk)

end RecvStep

theorem RecvInv.step {pending : List U8} {v v' : RecvVars}
    (h : RecvInv base s r received pending v) (hs : RecvStep v v') :
    RecvInv base s r received pending v' := by
  refine
    { rcvNxt := hs.rcvNxt.trans h.rcvNxt
      le := h.le
      window := hs.window h.window
      isPrefix := h.isPrefix
      inOrder := ?_
      oneHeld := ?_
      ended := fun hr => h.ended (hs.receives hr)
      refusedFin := fun data hd => ?_ }
  · rcases hs.refused with heq | ⟨hk, hnone⟩
    · rw [show v'.refused = v.refused by rw [RecvVars.refused, heq]; rfl, heq]
      exact h.inOrder.imp_right fun hgone => ⟨hs.gone hgone.1, hgone.2⟩
    · rcases h.oneHeld with hfree | hpending
      · rw [show v'.refused = v.refused by rw [RecvVars.refused, hnone, RecvVars.refused, hfree]]
        exact h.inOrder.imp_right fun hgone => ⟨hs.gone hgone.1, hnone, hgone.2.2⟩
      · exact Or.inr ⟨hk, hnone, hpending⟩
  · rcases hs.refused with heq | ⟨-, hnone⟩
    · rw [heq]
      exact h.oneHeld
    · exact Or.inl hnone
  · rcases hs.refused with heq | ⟨-, hnone⟩
    · exact h.refusedFin data (heq ▸ hd)
    · exact absurd (hnone.symm.trans hd) (Option.some_ne_none _).symm

theorem Received.recvInv {res : Pcb.Processed} (h : Received base s r received res)
    {state : TcpState} (hs : Receives state → Receives res.pcb.state ∧ res.gotFin = false) :
    RecvInv base s r received (res.recvData.getD []) { res.pcb.recvVars with state := state } where
  rcvNxt := h.rcvNxt
  le := h.le
  window := h.window
  isPrefix := by
    have heq := h.inOrder
    rw [List.append_assoc] at heq
    exact (heq ▸ List.prefix_append received _).trans <| List.take_prefix r s.data
  inOrder := Or.inl h.inOrder
  oneHeld := h.oneHeld.imp_right fun hnone => by rw [hnone]; rfl
  ended := fun hr => h.ended (hs hr).1 (hs hr).2
  refusedFin := h.refusedFin

theorem nextState_cases (w : Segment) (res : Pcb.Processed) :
    (Pcb.nextState w res).recvData = res.recvData ∧ (Pcb.nextState w res).gotFin = res.gotFin ∧
      (Pcb.nextState w res).out = res.out ∧ (Pcb.nextState w res).tfReset = res.tfReset ∧
      ((∃ state ack, (Pcb.nextState w res).pcb = { res.pcb with state := state, tfAckNow := ack } ∧
        (Writable state → Writable res.pcb.state) ∧ (Keeps state ↔ Keeps res.pcb.state) ∧
        (Receives state → Receives res.pcb.state ∧ res.gotFin = false)) ∨
      ∃ ack, (Pcb.nextState w res).pcb = ({ res.pcb with tfAckNow := ack } : Pcb).enterTimeWait) := by
  have hsame (hs : Receives res.pcb.state → res.gotFin = false) :
      ∃ state ack, res.pcb = { res.pcb with state := state, tfAckNow := ack } ∧
        (Writable state → Writable res.pcb.state) ∧ (Keeps state ↔ Keeps res.pcb.state) ∧
        (Receives state → Receives res.pcb.state ∧ res.gotFin = false) :=
    ⟨res.pcb.state, res.pcb.tfAckNow, rfl, id, Iff.rfl, fun hr => ⟨hr, hs hr⟩⟩
  unfold Pcb.nextState
  dsimp only
  have hmove {state : TcpState} {ack : Bool} (hw : Writable state → Writable res.pcb.state)
      (hk : Keeps state ↔ Keeps res.pcb.state)
      (hr : Receives state → Receives res.pcb.state ∧ res.gotFin = false) :
      ∃ state' ack', ({ res.pcb with state := state, tfAckNow := ack } : Pcb) =
          { res.pcb with state := state', tfAckNow := ack' } ∧
        (Writable state' → Writable res.pcb.state) ∧ (Keeps state' ↔ Keeps res.pcb.state) ∧
        (Receives state' → Receives res.pcb.state ∧ res.gotFin = false) :=
    ⟨state, ack, rfl, hw, hk, hr⟩
  have hnot {state : TcpState} (hs : ¬Receives state) (hst : res.pcb.state = state) :
      Receives res.pcb.state → res.gotFin = false := fun hr => absurd (hst ▸ hr) hs
  split
  · rename_i hst
    split
    · exact ⟨rfl, rfl, rfl, rfl, Or.inl (hmove (hst ▸ by decide) (hst ▸ by decide)
        fun hr => absurd hr (by decide))⟩
    · rename_i hf
      exact ⟨rfl, rfl, rfl, rfl, Or.inl (hsame fun _ => Bool.eq_false_of_not_eq_true hf)⟩
  · rename_i hst
    split
    · exact ⟨rfl, rfl, rfl, rfl, Or.inl (hmove (by rw [hst]; exact id) (by rw [hst])
        fun hr => absurd hr (by decide))⟩
    · exact ⟨rfl, rfl, rfl, rfl, Or.inl (hsame (hnot (by decide) hst))⟩
  · rename_i hst
    split
    · split
      · exact ⟨rfl, rfl, rfl, rfl, Or.inr ⟨true, rfl⟩⟩
      · exact ⟨rfl, rfl, rfl, rfl, Or.inl (hmove (hst ▸ by decide) (hst ▸ by decide)
          fun hr => absurd hr (by decide))⟩
    · rename_i hf
      have hfin := Bool.eq_false_of_not_eq_true hf
      split
      · exact ⟨rfl, rfl, rfl, rfl, Or.inl (hmove (hst ▸ by decide) (hst ▸ by decide)
          fun _ => ⟨hst ▸ by decide, hfin⟩)⟩
      · exact ⟨rfl, rfl, rfl, rfl, Or.inl (hsame fun _ => hfin)⟩
  · rename_i hst
    split
    · exact ⟨rfl, rfl, rfl, rfl, Or.inr ⟨true, rfl⟩⟩
    · rename_i hf
      exact ⟨rfl, rfl, rfl, rfl, Or.inl (hsame fun _ => Bool.eq_false_of_not_eq_true hf)⟩
  · rename_i hst
    split
    · exact ⟨rfl, rfl, rfl, rfl, Or.inr ⟨res.pcb.tfAckNow, rfl⟩⟩
    · exact ⟨rfl, rfl, rfl, rfl, Or.inl (hsame (hnot (by decide) hst))⟩
  · rename_i hst
    split
    · exact ⟨rfl, rfl, rfl, rfl, Or.inl (hsame (hnot (by decide) hst))⟩
    · exact ⟨rfl, rfl, rfl, rfl, Or.inl (hsame (hnot (by decide) hst))⟩
  · refine ⟨rfl, rfl, rfl, rfl, Or.inl (hsame fun hr => ?_)⟩
    rcases hr with hst | hst | hst <;> simp_all

/-! ## `tcp_process` -/

theorem SendInv.toState {una nxt : ℕ} {v : SendVars} (h : SendInv base s una nxt v)
    (state : TcpState) (hw : Writable state → Writable v.state) (hk : Keeps state → Keeps v.state) :
    SendInv base s una nxt { v with state := state } :=
  { h with writable := fun hs => h.writable (hw hs), covered := fun hs => h.covered (hk hs) }

theorem order_purge (pcb : Pcb) {state : TcpState} :
    (Sorted pcb.sendVars → Sorted { pcb.purge.sendVars with state := state }) ∧
      (Ordered pcb.sendVars → Ordered { pcb.purge.sendVars with state := state }) := by
  unfold Pcb.purge
  split
  · exact ⟨fun hs => ⟨hs.unacked, hs.unsent, hs.apart⟩, id⟩
  · exact ⟨fun _ => ⟨List.Pairwise.nil, List.Pairwise.nil, fun a ha => absurd ha List.not_mem_nil⟩,
      fun _ => List.Pairwise.nil⟩

/-- A segment from the other end that is not too old: an acknowledgement of at most `rp` positions
of the stream `s`, and a part of the stream `s'`. -/
structure Fresh (base base' : U32) (s s' : Stream) (rp : ℕ) (w : Segment) : Prop where
  syn : w.syn = false
  ack : w.rst = false → ∃ a, FreshAck base s a w.ackno ∧ a ≤ rp
  data : w.rst = false → 0 < w.tcplen → ∃ p, FreshData base' s' p w.chunk

structure Taken (base : U32) (s : Stream) (r : ℕ) (received : List U8) (res : Pcb.Processed) :
    Prop where
  inv : RecvInv base s r received (res.recvData.getD []) res.pcb.recvVars
  whole : res.recvData ≠ none ∨ res.gotFin = true →
    res.pcb.refusedData = none ∧ received ++ res.recvData.getD [] = s.data.take r
  gotFin : res.gotFin = true → r = s.data.length + 1

/-- What `tcp_process` leaves: the sender with what is not acknowledged, in order unless a
duplicate acknowledgement has put a segment back, and the receiver with the next data. -/
structure Processes (base base' : U32) (s s' : Stream) (una r rp : ℕ) (received : List U8)
    (pcb : Pcb) (res : Pcb.Processed) : Prop where
  send : ∃ una' nxt', una ≤ una' ∧ (una' = una ∨ una' ≤ rp) ∧
    SendInv base s una' nxt' res.pcb.sendVars
  sorted : Sorted res.pcb.sendVars
  order : Ordered res.pcb.sendVars ∨
    res.pcb.acked = 0 ∧ res.recvData = none ∧ res.gotFin = false
  recv : ∃ r', r ≤ r' ∧ Taken base' s' r' received res
  out : ∀ w ∈ res.out, EmptyAck pcb w

variable {base' : U32} {s' : Stream} {una nxt rp : ℕ}

theorem Processes.unchanged (h : SendInv base s una nxt pcb.sendVars) (ho : Ordered pcb.sendVars)
    (hr : RecvInv base' s' r received [] pcb.recvVars) (pcb' : Pcb)
    (hs' : pcb'.sendVars = pcb.sendVars) (hr' : pcb'.recvVars = pcb.recvVars) :
    Processes base base' s s' una r rp received pcb pcb'.unchanged where
  send := ⟨una, nxt, le_rfl, Or.inl rfl, hs' ▸ h⟩
  sorted := hs' ▸ ho.sorted
  order := Or.inl (hs' ▸ ho)
  recv := by
    refine ⟨r, le_rfl, hr' ▸ hr, fun hne => ?_, fun hf => absurd hf Bool.false_ne_true⟩
    exact absurd rfl (hne.resolve_right Bool.false_ne_true)
  out := fun w hw => absurd hw List.not_mem_nil

theorem Received.whole {res : Pcb.Processed} (h : Received base s r received res)
    (hne : res.recvData ≠ none ∨ res.gotFin = true) :
    res.pcb.refusedData = none ∧ received ++ res.recvData.getD [] = s.data.take r := by
  have hnone : res.pcb.refusedData = none := by
    rcases hne with hne | hf
    · exact h.oneHeld.resolve_right hne
    · exact (h.gotFin hf).2
  have heq := h.inOrder
  rw [RecvVars.refused, show res.pcb.recvVars.refusedData = none from hnone] at heq
  rw [show (none : Option (List U8 × Bool)).elim [] Prod.fst = [] from rfl, List.append_nil] at heq
  exact ⟨hnone, heq⟩

/-- The states of closing keep what `tcp_receive` left. -/
theorem Processes.nextState {res : Pcb.Processed} (w : Segment)
    (hsend : ∃ una' nxt', una ≤ una' ∧ (una' = una ∨ una' ≤ rp) ∧
      SendInv base s una' nxt' res.pcb.sendVars) (hsorted : Sorted res.pcb.sendVars)
    (horder : Ordered res.pcb.sendVars ∨
      res.pcb.acked = 0 ∧ res.recvData = none ∧ res.gotFin = false)
    {r' : ℕ} (hle : r ≤ r') (hr : Received base' s' r' received res)
    (hout : ∀ w ∈ res.out, EmptyAck pcb w) :
    Processes base base' s s' una r rp received pcb (Pcb.nextState w res) := by
  obtain ⟨una', nxt', hle', hack, h⟩ := hsend
  obtain ⟨hdata, hfin, hsent, -, hstate⟩ := nextState_cases w res
  rcases hstate with ⟨state, ack, hpcb, hw, hk, hrs⟩ | ⟨ack, hpcb⟩
  · refine
      { send := ⟨una', nxt', hle', hack, ?_⟩
        sorted := ?_
        order := ?_
        recv := ⟨r', hle, ?_, ?_, ?_⟩
        out := by rw [hsent]; exact hout }
    · rw [hpcb]
      exact h.toState state hw hk.mp
    · rw [hpcb]
      exact ⟨hsorted.unacked, hsorted.unsent, hsorted.apart⟩
    · rw [hpcb, hdata, hfin]
      exact horder
    · rw [hpcb, hdata]
      exact hr.recvInv hrs
    · rw [hpcb, hdata, hfin]
      exact hr.whole
    · rw [hfin]
      exact fun hf => (hr.gotFin hf).1
  · have hgone : ¬Keeps .timeWait := by decide
    have hnone : res.pcb.refusedData = none →
        ({ res.pcb with tfAckNow := ack } : Pcb).enterTimeWait.refusedData = none := by
      intro hn
      unfold Pcb.enterTimeWait Pcb.purge
      split
      · exact hn
      · rfl
    have hacked : ({ res.pcb with tfAckNow := ack } : Pcb).enterTimeWait.acked = res.pcb.acked := by
      unfold Pcb.enterTimeWait Pcb.purge
      split <;> rfl
    refine
      { send := ⟨una', nxt', hle', hack, ?_⟩
        sorted := ?_
        order := ?_
        recv := ⟨r', hle, ?_, ?_, ?_⟩
        out := by rw [hsent]; exact hout }
    · rw [hpcb]
      exact SendInv.gone (show SendInv base s una' nxt'
        ({ res.pcb with tfAckNow := ack } : Pcb).sendVars from h) hgone
    · rw [hpcb]
      exact (order_purge { res.pcb with tfAckNow := ack }).1 hsorted
    · rw [hpcb, hdata, hfin, hacked]
      exact horder.imp_left (order_purge { res.pcb with tfAckNow := ack }).2
    · rw [hpcb, hdata]
      have hrecv : RecvInv base' s' r' received (res.recvData.getD [])
          { res.pcb.recvVars with state := .timeWait } :=
        hr.recvInv fun hs => absurd hs (by decide)
      exact hrecv.step (RecvStep.purge { res.pcb with tfAckNow := ack } hgone)
    · rw [hpcb, hdata, hfin]
      exact fun hne => ⟨hnone (hr.whole hne).1, (hr.whole hne).2⟩
    · rw [hfin]
      exact fun hf => (hr.gotFin hf).1

theorem Processes.receive (h : SendInv base s una nxt pcb.sendVars) (ho : Ordered pcb.sendVars)
    (hr : RecvInv base' s' r received [] pcb.recvVars) (hk : Keeps pcb.state)
    (hbound : s'.data.length ≤ r + tcpSndBuf) {w : Segment} (hf : Fresh base base' s s' rp w)
    (hrefused : pcb.refusedData = none ∨ w.tcplen = 0) (hrst : w.rst = false) (ticks : U32)
    (alloc : Bool) :
    Processes base base' s s' una r rp received pcb
      (Pcb.nextState w (pcb.tcpReceive ticks w alloc)) := by
  obtain ⟨a, hfresh, ha⟩ := hf.ack hrst
  -- the acknowledgement first
  obtain ⟨una', hle, hack, h₁, hsorted, horder, hrecv⟩ : ∃ una', una ≤ una' ∧
      (una' = una ∨ una' = a) ∧
      SendInv base s una' nxt (if w.ack then pcb.receiveAck ticks w else pcb).sendVars ∧
      Sorted (if w.ack then pcb.receiveAck ticks w else pcb).sendVars ∧
      (Ordered (if w.ack then pcb.receiveAck ticks w else pcb).sendVars ∨
        (if w.ack then pcb.receiveAck ticks w else pcb).acked = 0 ∧ w.tcplen = 0) ∧
      (if w.ack then pcb.receiveAck ticks w else pcb).recvVars = pcb.recvVars := by
    split
    · exact h.receiveAck ho ticks hfresh
    · exact ⟨una, le_rfl, Or.inl rfl, h, ho.sorted, Or.inl ho, rfl⟩
  have hrefused' := congrArg RecvVars.refusedData hrecv
  have hstate : (if w.ack then pcb.receiveAck ticks w else pcb).state = pcb.state :=
    congrArg RecvVars.state hrecv
  unfold Pcb.tcpReceive
  generalize (if w.ack then pcb.receiveAck ticks w else pcb) = pcb₁ at *
  have hr₁ : RecvInv base' s' r received [] pcb₁.recvVars := hrecv ▸ hr
  have hfree : pcb₁.refusedData = none ∨ w.tcplen = 0 := hrefused.imp_left hrefused'.trans
  obtain ⟨⟨r', hle', hr'⟩, hframe⟩ := hr₁.receiveData (hstate ▸ hk) hbound alloc hf.syn (hf.data hrst)
    hfree
  refine Processes.nextState w ⟨una', nxt, hle, ?_, hframe.send ▸ h₁⟩ (hframe.send ▸ hsorted) ?_ hle'
    hr' fun w' hw' => ?_
  · exact hack.imp_right fun heq => heq.le.trans ha
  · rw [hframe.send, hframe.acked]
    exact horder.imp_right fun hnone => ⟨hnone.1, hframe.empty hnone.2⟩
  · obtain ⟨pcb', hp', heq⟩ := hframe.out w' hw'
    exact ⟨pcb', hp'.trans hrecv, heq⟩

theorem Processes.process (h : SendInv base s una nxt pcb.sendVars) (ho : Ordered pcb.sendVars)
    (hr : RecvInv base' s' r received [] pcb.recvVars)
    (hbound : s'.data.length ≤ r + tcpSndBuf) {w : Segment} (hf : Fresh base base' s s' rp w)
    (hrefused : pcb.refusedData = none ∨ w.tcplen = 0) (ticks : U32) (alloc : Bool) :
    Processes base base' s s' una r rp received pcb (pcb.tcpProcess ticks w alloc) := by
  unfold Pcb.tcpProcess
  split
  · split
    · obtain ⟨hsend, hsorted, horder, ⟨r', hle, hinv, hwhole, hfin⟩, hout⟩ :=
        @Processes.unchanged _ _ _ _ pcb _ s' una nxt rp h ho hr { pcb with tfAckDelay := false }
          rfl rfl
      exact ⟨hsend, hsorted, horder, ⟨r', hle, hinv, hwhole, hfin⟩, hout⟩
    · exact Processes.unchanged h ho hr pcb rfl rfl
  rename_i hrst
  split
  · exact Processes.unchanged h ho hr pcb.tcpAckNow rfl rfl
  have hreceive (hk : Keeps pcb.state) := Processes.receive h ho hr hk hbound hf hrefused
    (Bool.eq_false_of_not_eq_true hrst) ticks alloc
  split
  case h_7 => exact Processes.unchanged h ho hr pcb rfl rfl
  all_goals
    rename_i hst
    exact hreceive (by rw [hst]; decide)

end EnvirMonitor.Tcp
