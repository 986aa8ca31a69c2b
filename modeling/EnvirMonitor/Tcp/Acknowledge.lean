import EnvirMonitor.Tcp.Outgoing

/-! The first half of `tcp_receive`: an acknowledgement frees what it covers and nothing else, and
a third duplicate of it puts the first segment back before `unsent`. -/

namespace EnvirMonitor.Tcp
open Machine
open Client (TcpState tcpMss tcpWnd)

variable {base : U32} {s : Stream} {una nxt a : ℕ} {v : SendVars} {pcb : Pcb}

structure FreshAck (base : U32) (s : Stream) (a : ℕ) (ackno : U32) : Prop where
  ackno : ackno = place base a
  le : a ≤ s.len
  fresh : s.data.length < a + 2 ^ 30 + 2 ^ 16

theorem SendInv.ack_near (h : SendInv base s una nxt v) {ackno : U32}
    (hf : FreshAck base s a ackno) {p : ℕ} (hp : una ≤ p + tcpMss + 1) (hp' : p ≤ s.len + 1) :
    Near 32 a p := by
  have hlen := h.len_le
  have hle := hf.le
  have hfresh := hf.fresh
  have hbuf : tcpSndBuf = 5840 := rfl
  have hmss : tcpMss = 1460 := rfl
  have hfin : s.fin.toNat ≤ 1 := Bool.toNat_le s.fin
  have hs : s.len = s.data.length + s.fin.toNat := rfl
  constructor <;> omega

/-! ## What the steps change -/

theorem vars_persist (pcb : Pcb) :
    let pcb' := if pcb.sndWnd = 0 then
        if pcb.persistBackoff = 0 then { pcb with persistCnt := 0, persistBackoff := 1 } else pcb
      else if 0 < pcb.persistBackoff then { pcb with persistBackoff := 0 }
      else pcb
    pcb'.sendVars = pcb.sendVars ∧ pcb'.recvVars = pcb.recvVars := by
  dsimp only
  split_ifs <;> exact ⟨rfl, rfl⟩

theorem vars_updateSendWindow (pcb : Pcb) (w : Segment) :
    ∃ m, pcb.sndWndMax ≤ m ∧
      (pcb.updateSendWindow w).sendVars = { pcb.sendVars with sndWndMax := m } ∧
      (pcb.updateSendWindow w).recvVars = pcb.recvVars := by
  unfold Pcb.updateSendWindow
  split
  · have hmax : pcb.sndWndMax ≤ if pcb.sndWndMax < w.wnd then w.wnd else pcb.sndWndMax := by
      split_ifs <;> omega
    exact ⟨_, hmax, (vars_persist _).1, (vars_persist _).2⟩
  · exact ⟨pcb.sndWndMax, le_rfl, rfl, rfl⟩

theorem vars_openCwnd (pcb : Pcb) :
    pcb.openCwnd.sendVars = pcb.sendVars ∧ pcb.openCwnd.recvVars = pcb.recvVars ∧
      pcb.openCwnd.acked = pcb.acked := by
  unfold Pcb.openCwnd
  dsimp only
  split_ifs <;> exact ⟨rfl, rfl, rfl⟩

theorem vars_estimateRtt (pcb : Pcb) (ticks ackno : U32) :
    (pcb.estimateRtt ticks ackno).sendVars = pcb.sendVars ∧
      (pcb.estimateRtt ticks ackno).recvVars = pcb.recvVars ∧
      (pcb.estimateRtt ticks ackno).acked = pcb.acked := by
  unfold Pcb.estimateRtt
  split <;> exact ⟨rfl, rfl, rfl⟩

theorem freeAcked_eq_dropWhile (done : TcpSeg → Bool) (queue : List TcpSeg) (acked queuelen : ℕ) :
    (Pcb.freeAcked done queue acked queuelen).1 = queue.dropWhile done := by
  induction queue generalizing acked queuelen with
  | nil => rfl
  | cons seg rest ih =>
    unfold Pcb.freeAcked
    rw [List.dropWhile_cons]
    split
    · exact ih _ _
    · rfl

theorem vars_freeUnacked (pcb : Pcb) (ackno : U32) :
    (pcb.freeUnacked ackno).sendVars = { pcb.sendVars with
        unacked := pcb.unacked.dropWhile fun seg =>
          decide (tcpSeqLeq (seg.seqno + BitVec.ofNat 32 seg.tcplen) ackno) } ∧
      (pcb.freeUnacked ackno).recvVars = pcb.recvVars := by
  unfold Pcb.freeUnacked
  dsimp only
  rw [← freeAcked_eq_dropWhile _ pcb.unacked pcb.acked pcb.sndQueuelen]
  exact ⟨rfl, rfl⟩

theorem vars_newAck (pcb : Pcb) (ackno : U32) :
    (pcb.newAck ackno).sendVars = { pcb.sendVars with
        lastack := ackno
        sndBuf := u16 (pcb.sndBuf + u16 (ackno - pcb.lastack).toNat)
        unacked := pcb.unacked.dropWhile fun seg =>
          decide (tcpSeqLeq (seg.seqno + BitVec.ofNat 32 seg.tcplen) ackno) } ∧
      (pcb.newAck ackno).recvVars = pcb.recvVars := by
  have hrecovery : pcb.leaveRecovery.sendVars = pcb.sendVars ∧
      pcb.leaveRecovery.recvVars = pcb.recvVars := by
    unfold Pcb.leaveRecovery
    split <;> exact ⟨rfl, rfl⟩
  have hcredit : (pcb.leaveRecovery.creditAck ackno).sendVars = { pcb.sendVars with
      lastack := ackno, sndBuf := u16 (pcb.sndBuf + u16 (ackno - pcb.lastack).toNat) } :=
    congrArg (fun v : SendVars => { v with
      lastack := ackno, sndBuf := u16 (v.sndBuf + u16 (ackno - v.lastack).toNat) }) hrecovery.1
  obtain ⟨hopen, hopen', -⟩ := vars_openCwnd (pcb.leaveRecovery.creditAck ackno)
  obtain ⟨hfree, hfree'⟩ := vars_freeUnacked (pcb.leaveRecovery.creditAck ackno).openCwnd ackno
  have hsend := hopen.trans hcredit
  refine ⟨?_, hfree'.trans (hopen'.trans hrecovery.2)⟩
  refine hfree.trans ?_
  exact congrArg (fun v : SendVars => { v with
    unacked := v.unacked.dropWhile fun seg =>
      decide (tcpSeqLeq (seg.seqno + BitVec.ofNat 32 seg.tcplen) ackno) }) hsend

theorem vars_freeUnsent (pcb : Pcb) (ackno : U32) :
    let unsent := pcb.unsent.dropWhile fun seg =>
      decide (tcpSeqBetween ackno (seg.seqno + BitVec.ofNat 32 seg.tcplen) pcb.sndNxt)
    (pcb.freeUnsent ackno).sendVars = { pcb.sendVars with
        unsent := unsent
        unsentOversize := if unsent = [] ∧ pcb.unsent ≠ [] then 0 else pcb.unsentOversize } ∧
      (pcb.freeUnsent ackno).recvVars = pcb.recvVars := by
  unfold Pcb.freeUnsent
  dsimp only
  rw [← freeAcked_eq_dropWhile _ pcb.unsent pcb.acked pcb.sndQueuelen]
  exact ⟨rfl, rfl⟩

def SendVars.rexmit (v : SendVars) : SendVars :=
  match v.unacked with
  | [] => v
  | seg :: rest =>
    { v with
      unacked := rest
      unsent := Pcb.insertSeg seg v.unsent
      unsentOversize :=
        if ∀ cur ∈ v.unsent, tcpSeqLt cur.seqno seg.seqno then 0 else v.unsentOversize }

theorem vars_tcpRexmit (pcb : Pcb) : pcb.tcpRexmit.sendVars = pcb.sendVars.rexmit ∧
    pcb.tcpRexmit.recvVars = pcb.recvVars ∧ pcb.tcpRexmit.acked = pcb.acked := by
  unfold Pcb.tcpRexmit SendVars.rexmit
  rw [show pcb.sendVars.unacked = pcb.unacked from rfl]
  cases pcb.unacked <;> exact ⟨rfl, rfl, rfl⟩

/-- A segment that acknowledges nothing new changes the queues only where it is the third one. -/
theorem vars_oldAck (pcb : Pcb) (w : Segment) (edge : U32) :
    (pcb.oldAck w edge).recvVars = pcb.recvVars ∧ (pcb.oldAck w edge).acked = 0 ∧
      ((pcb.oldAck w edge).sendVars = pcb.sendVars ∨
        w.tcplen = 0 ∧ pcb.unacked ≠ [] ∧
          (pcb.oldAck w edge).sendVars = pcb.sendVars.rexmit) := by
  have hcount (pcb : Pcb) : pcb.countDupack.sendVars = pcb.sendVars ∧
      pcb.countDupack.recvVars = pcb.recvVars ∧ pcb.countDupack.acked = pcb.acked := by
    unfold Pcb.countDupack
    split <;> exact ⟨rfl, rfl, rfl⟩
  unfold Pcb.oldAck
  dsimp only
  split
  · rename_i hdup
    generalize hpcb : ({ pcb with acked := 0 } : Pcb) = pcb₀
    have hsend₀ : pcb₀.sendVars = pcb.sendVars := by rw [← hpcb]; rfl
    have hrecv₀ : pcb₀.recvVars = pcb.recvVars := by rw [← hpcb]; rfl
    have hacked₀ : pcb₀.acked = 0 := by rw [← hpcb]
    obtain ⟨hsend, hrecv, hacked⟩ := hcount pcb₀
    have hsend' := hsend.trans hsend₀
    have hrecv' := hrecv.trans hrecv₀
    have hacked' := hacked.trans hacked₀
    split
    · split <;> exact ⟨hrecv', hacked', Or.inl hsend'⟩
    split
    · unfold Pcb.tcpRexmitFast
      split
      · rename_i hfast
        have hunacked : pcb₀.countDupack.unacked = pcb.unacked := congrArg SendVars.unacked hsend'
        obtain ⟨hsend, hrecv, hacked⟩ := vars_tcpRexmit pcb₀.countDupack
        refine ⟨hrecv.trans hrecv', hacked.trans hacked', Or.inr ⟨hdup.1, ?_, ?_⟩⟩
        · rw [← hunacked]
          exact hfast.1
        · exact hsend.trans (congrArg SendVars.rexmit hsend')
      · exact ⟨hrecv', hacked', Or.inl hsend'⟩
    · exact ⟨hrecv', hacked', Or.inl hsend'⟩
  · exact ⟨rfl, rfl, Or.inl rfl⟩

/-! ## What that means for the stream -/

theorem SendInv.widen (h : SendInv base s una nxt v) {m : ℕ} (hm : v.sndWndMax ≤ m) :
    SendInv base s una nxt { v with sndWndMax := m } := by
  have hlocal : v.mssLocal ≤ ({ v with sndWndMax := m } : SendVars).mssLocal :=
    min_le_min_left v.mss (Nat.div_le_div_right hm)
  have hgrow : s.Grows s := Stream.Grows.refl s
  refine { h with
    queued := fun c hc => ?_
    covered := fun hk q hq hq' => ?_
    room := fun last hl => (h.room last hl).trans hlocal }
  · obtain ⟨p, hp⟩ := h.queued c hc
    exact ⟨p, hp.grow hgrow hlocal⟩
  · obtain ⟨c, hc, p, hp, hle⟩ := h.covered hk q hq hq'
    exact ⟨c, hc, p, hp.grow hgrow hlocal, hle⟩

/-- The first unacknowledged segment goes before everything unsent. -/
theorem SendInv.rexmit (h : SendInv base s una nxt v) (ho : Ordered v) :
    SendInv base s una nxt v.rexmit ∧ Sorted v.rexmit := by
  unfold SendVars.rexmit
  cases hu : v.unacked with
  | nil => exact ⟨h, ho.sorted⟩
  | cons seg rest =>
    dsimp only
    have hord : (seg :: rest ++ v.unsent).Pairwise Precedes := by
      rw [← hu]
      exact ho
    obtain ⟨hacked, hsent, happ⟩ := List.pairwise_append.mp hord
    obtain ⟨hseg, hrest⟩ := List.pairwise_cons.mp hacked
    have hfront : Pcb.insertSeg seg v.unsent = seg :: v.unsent := by
      cases hv : v.unsent with
      | nil => rfl
      | cons cur rest' =>
        have hmemc : cur ∈ v.unsent := by
          rw [hv]
          exact List.mem_cons_self
        have hmems : seg ∈ v.unacked := by
          rw [hu]
          exact List.mem_cons_self
        obtain ⟨p, hp⟩ := h.queued_seg (List.mem_append_left _ hmems)
        obtain ⟨q, hq⟩ := h.queued_seg (List.mem_append_right _ hmemc)
        have hpre := (h.precedes_iff hp hq).mp (happ seg List.mem_cons_self cur hmemc)
        unfold Pcb.insertSeg
        rw [if_neg]
        rw [h.seqLt_iff hq hp]
        omega
    rw [hfront]
    constructor
    · refine h.requeue _ _ (fun x => ?_) h.sndNxt h.una_le h.nxt_le _ (fun last hl => ?_)
        (fun hnil => absurd hnil (List.cons_ne_nil _ _))
      · rw [hu, List.mem_append, List.mem_append, List.mem_cons, List.mem_cons]
        tauto
      · cases hv : v.unsent with
        | nil =>
          rw [hv] at hl
          obtain rfl : seg = last := Option.some.inj hl
          have hmems : seg ∈ v.unacked := by
            rw [hu]
            exact List.mem_cons_self
          obtain ⟨p, hp⟩ := h.queued_seg (List.mem_append_left _ hmems)
          rw [if_pos (fun cur hcur => absurd hcur List.not_mem_nil)]
          exact hp.short
        | cons cur rest' =>
          rw [hv, List.getLast?_cons_cons, ← hv] at hl
          have hroom := h.room last hl
          split_ifs <;> omega
    · exact ⟨hrest, List.pairwise_cons.mpr ⟨fun x hx => happ seg List.mem_cons_self x hx, hsent⟩,
        fun x hx y hy => by
          rcases List.mem_cons.mp hy with rfl | hy
          · exact Or.inr (hseg x hx)
          · exact Or.inl (happ x (List.mem_cons_of_mem _ hx) y hy)⟩

/-- Of an ordered queue, what is not acknowledged to its end is left. -/
theorem SendInv.mem_dropWhile (h : SendInv base s una nxt v) {done : TcpSeg → Bool}
    (hdone : ∀ seg ∈ v.unacked ++ v.unsent, ∀ p, QueuedAt base s una v.mssLocal seg.chunk p →
      (done seg = true ↔ p + seg.tcplen ≤ a))
    {queue : List TcpSeg} (hsub : ∀ x ∈ queue, x ∈ v.unacked ++ v.unsent)
    (hpair : queue.Pairwise Precedes) {x : TcpSeg} (hx : x ∈ queue) {p : ℕ}
    (hp : QueuedAt base s una v.mssLocal x.chunk p) :
    x ∈ queue.dropWhile done ↔ a < p + x.tcplen := by
  induction queue with
  | nil => exact absurd hx List.not_mem_nil
  | cons seg rest ih =>
    obtain ⟨hseg, hrest⟩ := List.pairwise_cons.mp hpair
    obtain ⟨q, hq⟩ := h.queued_seg (hsub seg List.mem_cons_self)
    have hiff := hdone seg (hsub seg List.mem_cons_self) q hq
    rw [List.dropWhile_cons]
    split
    · rename_i hd
      have hend := hiff.mp hd
      rcases List.mem_cons.mp hx with rfl | hx'
      · have := h.position_unique hp hq
        subst this
        refine iff_of_false (fun hmem => ?_) (by omega)
        -- nothing follows itself
        have hmem' : x ∈ rest := (List.dropWhile_suffix done).subset hmem
        have := (h.precedes_iff hp hp).mp (hseg x hmem')
        have := hp.nonempty
        rw [TcpSeg.tcplen_chunk] at this
        omega
      · exact ih (fun y hy => hsub y (List.mem_cons_of_mem _ hy)) hrest hx'
    · rename_i hd
      refine iff_of_true hx ?_
      have hend : ¬q + seg.tcplen ≤ a := fun hle => hd (hiff.mpr hle)
      rcases List.mem_cons.mp hx with rfl | hx'
      · rw [h.position_unique hp hq]
        omega
      · have := (h.precedes_iff hq hp).mp (hseg x hx')
        omega

theorem SendInv.acknowledge (h : SendInv base s una nxt v) (ho : Ordered v) (hle : una ≤ a)
    (hle' : a ≤ nxt) {done done' : TcpSeg → Bool}
    (hdone : ∀ seg ∈ v.unacked ++ v.unsent, ∀ p, QueuedAt base s una v.mssLocal seg.chunk p →
      (done seg = true ↔ p + seg.tcplen ≤ a))
    (hdone' : ∀ seg ∈ v.unacked ++ v.unsent, ∀ p, QueuedAt base s una v.mssLocal seg.chunk p →
      (done' seg = true ↔ p + seg.tcplen ≤ a))
    {sndBuf oversize : ℕ} (hbuf : s.fin = false → sndBuf + s.data.length = tcpSndBuf + a)
    (hover : oversize ≤ v.unsentOversize)
    (hnil : v.unsent.dropWhile done' = [] → oversize = 0) :
    let v' := { v with
      lastack := place base a, sndBuf := sndBuf, unacked := v.unacked.dropWhile done,
      unsent := v.unsent.dropWhile done', unsentOversize := oversize }
    SendInv base s a nxt v' ∧ Ordered v' := by
  intro v'
  obtain ⟨hacked, hsent, -⟩ := List.pairwise_append.mp ho
  have hmem (seg : TcpSeg) (hseg : seg ∈ v.unacked ++ v.unsent) {p : ℕ}
      (hp : QueuedAt base s una v.mssLocal seg.chunk p) :
      seg ∈ v'.unacked ++ v'.unsent ↔ a < p + seg.tcplen := by
    constructor
    · intro hin
      rcases List.mem_append.mp hin with hin | hin
      · exact (h.mem_dropWhile hdone (fun x hx => List.mem_append_left _ hx) hacked
          ((List.dropWhile_suffix done).subset hin) hp).mp hin
      · exact (h.mem_dropWhile hdone' (fun x hx => List.mem_append_right _ hx) hsent
          ((List.dropWhile_suffix done').subset hin) hp).mp hin
    · intro hlt
      rcases List.mem_append.mp hseg with hin | hin
      · exact List.mem_append_left _ ((h.mem_dropWhile hdone
          (fun x hx => List.mem_append_left _ hx) hacked hin hp).mpr hlt)
      · exact List.mem_append_right _ ((h.mem_dropWhile hdone'
          (fun x hx => List.mem_append_right _ hx) hsent hin hp).mpr hlt)
  have hsub : (v'.unacked ++ v'.unsent).Sublist (v.unacked ++ v.unsent) :=
    (List.dropWhile_suffix done).sublist.append (List.dropWhile_suffix done').sublist
  refine ⟨{ h with
    lastack := rfl
    una_le := hle'
    bounded := h.bounded.trans (Nat.add_le_add_right hle _)
    buffered := fun hfin => ⟨(h.buffered hfin).1, hbuf hfin⟩
    queued := fun c hc => ?_
    covered := fun hk q hq hq' => ?_
    room := fun last hl => ?_
    noRoom := hnil }, ho.sublist hsub⟩
  · obtain ⟨seg, hseg, rfl⟩ := List.mem_map.mp hc
    obtain ⟨p, hp⟩ := h.queued_seg (hsub.subset hseg)
    exact ⟨p, { hp with live := (hmem seg (hsub.subset hseg) hp).mp hseg }⟩
  · obtain ⟨c, hc, p, hp, hpq, hpq'⟩ := h.covered hk q (hle.trans hq) hq'
    obtain ⟨seg, hseg, rfl⟩ := List.mem_map.mp hc
    have hlive : a < p + seg.tcplen := Nat.lt_of_le_of_lt hq hpq'
    have hin := (hmem seg hseg hp).mpr hlive
    exact ⟨seg.chunk, List.mem_map_of_mem hin, p, { hp with live := hlive }, hpq, hpq'⟩
  · obtain ⟨front, hfront⟩ := List.dropWhile_suffix done' (l := v.unsent)
    have hl' : last ∈ v.unsent.getLast? := by
      rw [← hfront, List.getLast?_append, Option.mem_def.mp hl, Option.some_or]
      rfl
    exact (Nat.add_le_add_left hover _).trans (h.room last hl')

theorem freeAcked_zero (done : TcpSeg → Bool) (queue : List TcpSeg) (queuelen : ℕ) :
    (Pcb.freeAcked done queue 0 queuelen).2.1 = 0 := by
  induction queue generalizing queuelen with
  | nil => rfl
  | cons seg rest ih =>
    unfold Pcb.freeAcked
    split
    · rw [if_neg (fun hne => hne.1 rfl)]
      exact ih _
    · rfl

theorem dropWhile_of_head {done : TcpSeg → Bool} {queue : List TcpSeg}
    (h : ∀ seg ∈ queue, done seg = false) : queue.dropWhile done = queue := by
  cases queue with
  | nil => rfl
  | cons seg rest =>
    rw [List.dropWhile_cons, if_neg]
    rw [h seg List.mem_cons_self]
    exact Bool.false_ne_true

theorem SendInv.acked_iff (h : SendInv base s una nxt v) {ackno : U32}
    (hf : FreshAck base s a ackno) {seg : TcpSeg} {p : ℕ}
    (hp : QueuedAt base s una v.mssLocal seg.chunk p) :
    tcpSeqLeq (seg.seqno + BitVec.ofNat 32 seg.tcplen) ackno ↔ p + seg.tcplen ≤ a := by
  have hend : seg.seqno + BitVec.ofNat 32 seg.tcplen = place base (p + seg.tcplen) := hp.seqno_end
  have hlive := hp.live
  have hle := hp.toChunkAt.end_le
  rw [TcpSeg.tcplen_chunk] at hlive hle
  rw [hend, hf.ackno]
  exact tcpSeqLeq_iff (h.ack_near hf (by omega) (by omega)).symm

theorem SendInv.freeable_iff (h : SendInv base s una nxt v) {ackno : U32}
    (hf : FreshAck base s a ackno) {seg : TcpSeg} {p : ℕ}
    (hp : QueuedAt base s una v.mssLocal seg.chunk p) :
    tcpSeqBetween ackno (seg.seqno + BitVec.ofNat 32 seg.tcplen) v.sndNxt ↔
      p + seg.tcplen ≤ a ∧ a ≤ nxt := by
  have hend : seg.seqno + BitVec.ofNat 32 seg.tcplen = place base (p + seg.tcplen) := hp.seqno_end
  have hlive := hp.live
  have hle := hp.toChunkAt.end_le
  have h₁ := h.una_le
  have h₂ := h.nxt_le
  rw [TcpSeg.tcplen_chunk] at hlive hle
  rw [hend, hf.ackno, h.sndNxt]
  exact tcpSeqBetween_iff (h.ack_near hf (by omega) (by omega)) (h.ack_near hf (by omega) (by omega))

/-- What acknowledges nothing new, or too much, frees nothing of `unsent`. -/
theorem SendInv.freeUnsent_eq (h : SendInv base s una nxt pcb.sendVars) {ackno : U32}
    (hf : FreshAck base s a ackno) (hout : a ≤ una ∨ nxt < a) :
    (pcb.freeUnsent ackno).sendVars = pcb.sendVars := by
  rw [(vars_freeUnsent pcb ackno).1, dropWhile_of_head, if_neg (fun hne => hne.2 hne.1)]
  · rfl
  intro seg hseg
  obtain ⟨p, hp⟩ := h.queued_seg (List.mem_append_right _ hseg)
  have hlive := hp.live
  rw [TcpSeg.tcplen_chunk] at hlive
  refine decide_eq_false fun hb => ?_
  have := (h.freeable_iff hf hp).mp hb
  omega

/-- What acknowledges nothing new. Only a third duplicate changes the queues, and it carries
nothing. -/
theorem SendInv.oldAck (h : SendInv base s una nxt pcb.sendVars) (ho : Ordered pcb.sendVars)
    {w : Segment} (hf : FreshAck base s a w.ackno) (ha : a ≤ una) (edge : U32) :
    let pcb' := (pcb.oldAck w edge).freeUnsent w.ackno
    SendInv base s una nxt pcb'.sendVars ∧ Sorted pcb'.sendVars ∧
      (Ordered pcb'.sendVars ∨ pcb'.acked = 0 ∧ w.tcplen = 0) ∧ pcb'.recvVars = pcb.recvVars := by
  obtain ⟨hrecv, hacked, hvars⟩ := vars_oldAck pcb w edge
  have hzero : ((pcb.oldAck w edge).freeUnsent w.ackno).acked = 0 := by
    show (Pcb.freeAcked _ (pcb.oldAck w edge).unsent (pcb.oldAck w edge).acked _).2.1 = 0
    rw [hacked]
    exact freeAcked_zero _ _ _
  dsimp only
  rw [hzero, (vars_freeUnsent _ w.ackno).2, hrecv]
  rcases hvars with hsame | ⟨hlen, -, hrexmit⟩
  · have h₂ : SendInv base s una nxt (pcb.oldAck w edge).sendVars := hsame ▸ h
    have ho₂ : Ordered (pcb.oldAck w edge).sendVars := hsame ▸ ho
    rw [h₂.freeUnsent_eq hf (Or.inl ha)]
    exact ⟨h₂, ho₂.sorted, Or.inl ho₂, rfl⟩
  · obtain ⟨h₂, hs₂⟩ := h.rexmit ho
    rw [← hrexmit] at h₂ hs₂
    rw [h₂.freeUnsent_eq hf (Or.inl ha)]
    exact ⟨h₂, hs₂, Or.inr ⟨rfl, hlen⟩, rfl⟩

/-- The free space after an acknowledgement up to `a`, in the 16 bits of the source. -/
theorem SendInv.sndBuf_newAck (h : SendInv base s una nxt v) (ha : una < a) (ha' : a ≤ nxt)
    (hfin : s.fin = false) :
    u16 (v.sndBuf + u16 (place base a - v.lastack).toNat) + s.data.length = tcpSndBuf + a := by
  have hb := (h.buffered hfin).2
  have hle := h.nxt_le
  have hlen := h.len_le
  have hopen := Stream.len_of_open hfin
  have hbuf : tcpSndBuf = 5840 := rfl
  have hdiff : (place base a - v.lastack).toNat = a - una := by
    rw [h.lastack]
    exact toNat_place_sub base (by omega) (by omega)
  rw [hdiff, u16_of_lt (n := a - una) (by omega), u16_of_lt (by omega)]
  omega

theorem SendInv.newAck (h : SendInv base s una nxt pcb.sendVars) (ho : Ordered pcb.sendVars)
    {ackno : U32} (hf : FreshAck base s a ackno) (ha : una < a) (ha' : a ≤ nxt) :
    let pcb' := (pcb.newAck ackno).freeUnsent ackno
    SendInv base s a nxt pcb'.sendVars ∧ Ordered pcb'.sendVars ∧ pcb'.recvVars = pcb.recvVars := by
  obtain ⟨hvars, hrecv⟩ := vars_newAck pcb ackno
  obtain ⟨hfree, hfree'⟩ := vars_freeUnsent (pcb.newAck ackno) ackno
  have hall := hfree.trans (congrArg (fun v : SendVars =>
    let unsent := v.unsent.dropWhile fun seg =>
      decide (tcpSeqBetween ackno (seg.seqno + BitVec.ofNat 32 seg.tcplen) v.sndNxt)
    { v with
      unsent := unsent
      unsentOversize := if unsent = [] ∧ v.unsent ≠ [] then 0 else v.unsentOversize }) hvars)
  have hroom (unsent : List TcpSeg) :
      let oversize := if unsent = [] ∧ pcb.unsent ≠ [] then 0 else pcb.unsentOversize
      oversize ≤ pcb.unsentOversize ∧ (unsent = [] → oversize = 0) := by
    dsimp only
    split_ifs with hboth
    · exact ⟨Nat.zero_le _, fun _ => rfl⟩
    · refine ⟨le_rfl, fun hnil => h.noRoom ?_⟩
      by_contra hunsent
      exact hboth ⟨hnil, hunsent⟩
  obtain ⟨h₂, ho₂⟩ := h.acknowledge ho (Nat.le_of_lt ha) ha'
    (fun seg _ p hp => decide_eq_true_iff.trans (h.acked_iff hf hp))
    (fun seg _ p hp => decide_eq_true_iff.trans ((h.freeable_iff hf hp).trans
      (and_iff_left ha'))) (h.sndBuf_newAck ha ha') (hroom _).1 (hroom _).2
  dsimp only
  rw [hfree', hrecv, hall]
  rw [← hf.ackno] at h₂ ho₂
  exact ⟨h₂, ho₂, rfl⟩

/-- After the acknowledgement the sender holds what is behind its new first position. Only a
third duplicate leaves the queues out of order, and it carries nothing. -/
theorem SendInv.receiveAck (h : SendInv base s una nxt pcb.sendVars) (ho : Ordered pcb.sendVars)
    (ticks : U32) {w : Segment} (hf : FreshAck base s a w.ackno) :
    ∃ una', una ≤ una' ∧ (una' = una ∨ una' = a) ∧
      SendInv base s una' nxt (pcb.receiveAck ticks w).sendVars ∧
      Sorted (pcb.receiveAck ticks w).sendVars ∧
      (Ordered (pcb.receiveAck ticks w).sendVars ∨
        (pcb.receiveAck ticks w).acked = 0 ∧ w.tcplen = 0) ∧
      (pcb.receiveAck ticks w).recvVars = pcb.recvVars := by
  obtain ⟨m, hm, hsend, hrecv⟩ := vars_updateSendWindow pcb w
  have h₁ : SendInv base s una nxt (pcb.updateSendWindow w).sendVars := hsend ▸ h.widen hm
  have ho₁ : Ordered (pcb.updateSendWindow w).sendVars := hsend ▸ ho
  unfold Pcb.receiveAck
  dsimp only
  generalize BitVec.ofNat 32 pcb.sndWnd + pcb.sndWl2 = edge
  generalize pcb.updateSendWindow w = pcb₁ at *
  have hlast : pcb₁.lastack = place base una := h₁.lastack
  have hnxt : pcb₁.sndNxt = place base nxt := h₁.sndNxt
  have hle := h₁.una_le
  have hle' := h₁.nxt_le
  have hold : tcpSeqLeq w.ackno pcb₁.lastack ↔ a ≤ una := by
    rw [hf.ackno, hlast]
    exact tcpSeqLeq_iff (h₁.ack_near hf (by omega) (by omega))
  have hnew : tcpSeqBetween w.ackno (pcb₁.lastack + 1) pcb₁.sndNxt ↔ una + 1 ≤ a ∧ a ≤ nxt := by
    rw [hf.ackno, hlast, hnxt,
      show place base una + 1 = place base (una + 1) from place_add base una 1]
    exact tcpSeqBetween_iff (h₁.ack_near hf (by omega) (by omega))
      (h₁.ack_near hf (by omega) (by omega))
  -- the estimate of the round trip is none of this
  have hest (pcb₂ : Pcb) := vars_estimateRtt pcb₂ ticks w.ackno
  rw [(hest _).1, (hest _).2.1, (hest _).2.2]
  split
  · rename_i hc
    obtain ⟨h₂, hs₂, ho₂, hr₂⟩ := h₁.oldAck ho₁ hf (hold.mp hc) edge
    exact ⟨una, le_rfl, Or.inl rfl, h₂, hs₂, ho₂, hr₂.trans hrecv⟩
  rename_i hc
  have ha : ¬a ≤ una := fun hle => hc (hold.mpr hle)
  split
  · rename_i hb
    obtain ⟨ha₁, ha₂⟩ := hnew.mp hb
    obtain ⟨h₂, ho₂, hr₂⟩ := h₁.newAck ho₁ hf ha₁ ha₂
    exact ⟨a, by omega, Or.inr rfl, h₂, ho₂.sorted, Or.inl ho₂, hr₂.trans hrecv⟩
  · rename_i hb
    have hout : nxt < a := by
      by_contra hle
      exact hb (hnew.mpr ⟨by omega, by omega⟩)
    have h₂ : SendInv base s una nxt ({ pcb₁ with acked := 0 } : Pcb).sendVars := h₁
    rw [(vars_freeUnsent _ w.ackno).2, h₂.freeUnsent_eq hf (Or.inr hout)]
    exact ⟨una, le_rfl, Or.inl rfl, h₂, ho₁.sorted, Or.inl ho₁, hrecv⟩

end EnvirMonitor.Tcp
