import EnvirMonitor.Tcp.Write

/-! The functions that send: each segment on the link carries its part of the stream, and the
queues keep what they held. -/

namespace EnvirMonitor.Tcp
open Machine
open Client (TcpState tcpMss tcpWnd)

variable {base base' : U32} {s : Stream} {una nxt n n' r : ℕ} {v : SendVars} {pcb : Pcb}

/-- A segment as its sender means it: data from its stream, and the number of a position up to
which it has received the other stream. `n` and `n'` say how old these may be. A reset says
nothing about either. -/
structure Honest (base base' : U32) (s : Stream) (n n' r : ℕ) (w : Segment) : Prop where
  syn : w.syn = false
  ack : w.rst = false → ∃ a, w.ackno = place base' a ∧ a ≤ r ∧ n' ≤ a + tcpSndBuf
  data : w.rst = false → 0 < w.tcplen →
    ∃ p, ChunkAt base s w.chunk p ∧ n ≤ p + tcpSndBuf + tcpMss + 1

theorem Honest.grow {s' : Stream} {r' : ℕ} {w : Segment} (h : Honest base base' s n n' r w)
    (hs : s.Grows s') (hr : r ≤ r') : Honest base base' s' n n' r' w := by
  refine ⟨h.syn, fun hw => ?_, fun hw hlen => ?_⟩
  · obtain ⟨a, ha, hle, hn⟩ := h.ack hw
    exact ⟨a, ha, hle.trans hr, hn⟩
  · obtain ⟨p, hp, hn⟩ := h.data hw hlen
    exact ⟨p, hp.grow hs, hn⟩

theorem honest_rst {w : Segment} (hsyn : w.syn = false) (hrst : w.rst = true) :
    Honest base base' s n n' r w := by
  have hne (h : w.rst = false) : False := Bool.false_ne_true (h.symm.trans hrst)
  exact ⟨hsyn, fun h => (hne h).elim, fun h => (hne h).elim⟩

structure Speaks (base base' : U32) (s : Stream) (una n n' r : ℕ) (pcb : Pcb) : Prop where
  rcvNxt : pcb.rcvNxt = place base' r
  own : n ≤ una + tcpSndBuf
  other : n' ≤ r + tcpSndBuf

theorem Speaks.honest (h : Speaks base base' s una n n' r pcb) {c : Chunk} {p : ℕ}
    (hc : ChunkAt base s c p) (hp : una ≤ p + tcpMss + 1) (psh : Bool) :
    Honest base base' s n n' r { pcb.header c.seqno c.fin c.data with psh := psh } := by
  refine ⟨rfl, fun _ => ⟨r, h.rcvNxt, le_rfl, h.other⟩, fun _ _ => ⟨p, hc, ?_⟩⟩
  have := h.own
  omega

theorem Speaks.honest_empty (h : Speaks base base' s una n n' r pcb) (seqno : U32) :
    Honest base base' s n n' r (pcb.header seqno false []) :=
  ⟨rfl, fun _ => ⟨r, h.rcvNxt, le_rfl, h.other⟩, fun _ hlen => absurd hlen (Nat.lt_irrefl 0)⟩

/-! ## The queues -/

theorem SendInv.requeue (h : SendInv base s una nxt v) (unacked unsent : List TcpSeg)
    (hmem : ∀ seg, seg ∈ unacked ++ unsent ↔ seg ∈ v.unacked ++ v.unsent) {sndNxt : U32} {nxt' : ℕ}
    (hnxt : sndNxt = place base nxt') (hle : una ≤ nxt') (hle' : nxt' ≤ s.len) (oversize : ℕ)
    (hroom : ∀ last ∈ unsent.getLast?, last.data.length + oversize ≤ v.mssLocal)
    (hnoRoom : unsent = [] → oversize = 0) :
    SendInv base s una nxt' { v with
      unacked := unacked, unsent := unsent, sndNxt := sndNxt, unsentOversize := oversize } := by
  have hchunks : ∀ c, c ∈ (unacked ++ unsent).map TcpSeg.chunk ↔ c ∈ v.chunks := by
    intro c
    rw [SendVars.chunks, List.mem_map, List.mem_map]
    exact exists_congr fun seg => and_congr_left fun _ => hmem seg
  refine { h with
    sndNxt := hnxt, una_le := hle, nxt_le := hle', room := hroom, noRoom := hnoRoom,
    queued := ?_, covered := ?_ }
  · exact fun c hc => h.queued c ((hchunks c).mp hc)
  · intro hk q hq hq'
    obtain ⟨c, hc, hp⟩ := h.covered hk q hq hq'
    exact ⟨c, (hchunks c).mpr hc, hp⟩

theorem mem_insertSeg {seg x : TcpSeg} {queue : List TcpSeg} :
    x ∈ Pcb.insertSeg seg queue ↔ x = seg ∨ x ∈ queue := by
  induction queue with
  | nil => rw [Pcb.insertSeg, List.mem_singleton, or_iff_left List.not_mem_nil]
  | cons cur rest ih =>
    unfold Pcb.insertSeg
    split
    · rw [List.mem_cons, ih, List.mem_cons]
      tauto
    · rw [List.mem_cons]

theorem mem_queueUnacked {seg x : TcpSeg} {queue : List TcpSeg} :
    x ∈ Pcb.queueUnacked queue seg ↔ x = seg ∨ x ∈ queue := by
  unfold Pcb.queueUnacked
  cases hl : queue.getLast? with
  | none =>
    rw [List.getLast?_eq_none_iff.mp hl, List.mem_singleton, or_iff_left List.not_mem_nil]
  | some useg =>
    dsimp only
    split
    · exact mem_insertSeg
    · rw [List.mem_append, List.mem_singleton, or_comm]

/-- A segment that overlaps none of a sorted queue goes to its place there. -/
theorem SendInv.pairwise_insertSeg (h : SendInv base s una nxt v) {seg : TcpSeg}
    (hseg : seg ∈ v.unacked ++ v.unsent) {queue : List TcpSeg}
    (hmem : ∀ x ∈ queue, x ∈ v.unacked ++ v.unsent) (hpair : queue.Pairwise Precedes)
    (happ : ∀ x ∈ queue, Precedes x seg ∨ Precedes seg x) :
    (Pcb.insertSeg seg queue).Pairwise Precedes := by
  obtain ⟨p, hp⟩ := h.queued_seg hseg
  have hpos := hp.nonempty
  rw [TcpSeg.tcplen_chunk] at hpos
  induction queue with
  | nil => exact List.pairwise_singleton _ _
  | cons cur rest ih =>
    obtain ⟨hcur, hrest⟩ := List.pairwise_cons.mp hpair
    obtain ⟨q, hq⟩ := h.queued_seg (hmem cur List.mem_cons_self)
    have hposq := hq.nonempty
    rw [TcpSeg.tcplen_chunk] at hposq
    unfold Pcb.insertSeg
    split
    · rename_i hlt
      have hlt' := (h.seqLt_iff hq hp).mp hlt
      have hpre : Precedes cur seg := by
        rcases happ cur List.mem_cons_self with hpre | hpre
        · exact hpre
        · have := (h.precedes_iff hp hq).mp hpre
          omega
      refine List.pairwise_cons.mpr ⟨fun x hx => ?_, ih
        (fun x hx => hmem x (List.mem_cons_of_mem _ hx)) hrest
        (fun x hx => happ x (List.mem_cons_of_mem _ hx))⟩
      rcases mem_insertSeg.mp hx with rfl | hx
      · exact hpre
      · exact hcur x hx
    · rename_i hlt
      have hle : p ≤ q := by
        rw [h.seqLt_iff hq hp] at hlt
        omega
      have hpre : p + seg.tcplen ≤ q := by
        rcases happ cur List.mem_cons_self with hpre | hpre
        · have := (h.precedes_iff hq hp).mp hpre
          omega
        · exact (h.precedes_iff hp hq).mp hpre
      refine List.pairwise_cons.mpr ⟨fun x hx => ?_, hpair⟩
      rcases List.mem_cons.mp hx with rfl | hx'
      · exact (h.precedes_iff hp hq).mpr hpre
      · obtain ⟨q', hq'⟩ := h.queued_seg (hmem x hx)
        have := (h.precedes_iff hq hq').mp (hcur x hx')
        exact (h.precedes_iff hp hq').mpr (by omega)

theorem SendInv.pairwise_queueUnacked (h : SendInv base s una nxt v) {seg : TcpSeg}
    (hseg : seg ∈ v.unacked ++ v.unsent) {queue : List TcpSeg}
    (hmem : ∀ x ∈ queue, x ∈ v.unacked ++ v.unsent) (hpair : queue.Pairwise Precedes)
    (happ : ∀ x ∈ queue, Precedes x seg ∨ Precedes seg x) :
    (Pcb.queueUnacked queue seg).Pairwise Precedes := by
  unfold Pcb.queueUnacked
  cases hl : queue.getLast? with
  | none => exact List.pairwise_singleton _ _
  | some useg =>
    dsimp only
    split
    · exact h.pairwise_insertSeg hseg hmem hpair happ
    rename_i hlt
    obtain ⟨p, hp⟩ := h.queued_seg hseg
    have huseg : useg ∈ queue := List.mem_of_getLast? hl
    obtain ⟨q, hq⟩ := h.queued_seg (hmem useg huseg)
    have hle : q ≤ p := by
      rw [h.seqLt_iff hp hq] at hlt
      omega
    have hpos := hp.nonempty
    rw [TcpSeg.tcplen_chunk] at hpos
    refine List.pairwise_append.mpr ⟨hpair, List.pairwise_singleton _ _, fun x hx y hy => ?_⟩
    rw [List.mem_singleton.mp hy]
    rcases happ x hx with hpre | hpre
    · exact hpre
    -- nothing in the queue is behind its last segment
    obtain ⟨q', hq'⟩ := h.queued_seg (hmem x hx)
    have h₁ := (h.precedes_iff hp hq').mp hpre
    rcases le_last hpair hl hx with rfl | hlast
    · have := h.position_unique hq hq'
      omega
    · have := (h.precedes_iff hq' hq).mp hlast
      omega

/-- In order, a segment that is sent goes to the end of `unacked`. -/
theorem SendInv.queueUnacked_append (h : SendInv base s una nxt v) {seg : TcpSeg}
    {rest : List TcpSeg} (hu : v.unsent = seg :: rest) (ho : Ordered v) :
    Pcb.queueUnacked v.unacked seg = v.unacked ++ [seg] := by
  unfold Pcb.queueUnacked
  cases hl : v.unacked.getLast? with
  | none => rw [List.getLast?_eq_none_iff.mp hl, List.nil_append]
  | some useg =>
    have huseg : useg ∈ v.unacked := List.mem_of_getLast? hl
    have hseg : seg ∈ v.unsent := by
      rw [hu]
      exact List.mem_cons_self
    obtain ⟨p, hp⟩ := h.queued_seg (List.mem_append_right _ hseg)
    obtain ⟨q, hq⟩ := h.queued_seg (List.mem_append_left _ huseg)
    have := (h.precedes_iff hq hp).mp ((List.pairwise_append.mp ho).2.2 useg huseg seg hseg)
    dsimp only
    rw [if_neg]
    rw [h.seqLt_iff hp hq]
    omega

theorem getLast?_of_cons {α : Type*} {x y : α} {rest : List α} (h : y ∈ rest.getLast?) :
    y ∈ (x :: rest).getLast? := by
  cases rest with
  | nil => exact absurd h (Option.not_mem_none y)
  | cons z rest => rwa [List.getLast?_cons_cons]

/-! ## `tcp_output` -/

/-- `unsent_oversize` is set to 0 at the end of `tcp_output` where nothing is left unsent. -/
def SendVars.settle (v : SendVars) : SendVars :=
  { v with unsentOversize := if v.unsent = [] then 0 else v.unsentOversize }

theorem SendInv.settle (h : SendInv base s una nxt v) : v.settle = v := by
  have : (if v.unsent = [] then 0 else v.unsentOversize) = v.unsentOversize := by
    split_ifs with hnil
    · exact (h.noRoom hnil).symm
    · rfl
  rw [SendVars.settle, this]

structure SendsOk (base base' : U32) (s : Stream) (una n n' r : ℕ) (pcb : Pcb)
    (res : Pcb × List Segment) : Prop where
  send : ∃ nxt, SendInv base s una nxt res.1.sendVars
  recv : res.1.recvVars = pcb.recvVars
  ordered : Ordered pcb.sendVars → Ordered res.1.sendVars
  honest : ∀ w ∈ res.2, Honest base base' s n n' r w

theorem tcpOutputSegment_spec (pcb : Pcb) (ticks : U32) (seg : TcpSeg) :
    (pcb.tcpOutputSegment ticks seg).1.sendVars = pcb.sendVars ∧
      (pcb.tcpOutputSegment ticks seg).1.recvVars = pcb.recvVars ∧
      (pcb.tcpOutputSegment ticks seg).2 =
        { pcb.header seg.seqno seg.fin seg.data with psh := seg.psh } := by
  unfold Pcb.tcpOutputSegment
  dsimp only
  split_ifs <;> exact ⟨rfl, rfl, rfl⟩

/-- The segment goes to `unacked` and on the link, and `snd_nxt` behind it. -/
theorem sendUnsent_spec (pcb : Pcb) (ticks : U32) (seg : TcpSeg) (rest : List TcpSeg) :
    (pcb.sendUnsent ticks seg rest).1.sendVars = { pcb.sendVars with
        unsent := rest
        sndNxt := if tcpSeqLt pcb.sndNxt (seg.seqno + BitVec.ofNat 32 seg.tcplen) then
          seg.seqno + BitVec.ofNat 32 seg.tcplen else pcb.sndNxt
        unacked := if 0 < seg.tcplen then Pcb.queueUnacked pcb.unacked seg else pcb.unacked } ∧
      (pcb.sendUnsent ticks seg rest).1.recvVars = pcb.recvVars ∧
      (pcb.sendUnsent ticks seg rest).2 =
        { pcb.header seg.seqno seg.fin seg.data with psh := seg.psh } := by
  obtain ⟨hsend, hrecv, hw⟩ := tcpOutputSegment_spec
    { pcb with unsent := rest, tfAckDelay := false, tfAckNow := false } ticks seg
  refine ⟨?_, hrecv, hw⟩
  exact congrArg (fun v : SendVars => { v with
    sndNxt := if tcpSeqLt v.sndNxt (seg.seqno + BitVec.ofNat 32 seg.tcplen) then
      seg.seqno + BitVec.ofNat 32 seg.tcplen else v.sndNxt
    unacked := if 0 < seg.tcplen then Pcb.queueUnacked v.unacked seg else v.unacked }) hsend

theorem SendInv.sendUnsent (h : SendInv base s una nxt pcb.sendVars.settle)
    (hs : Speaks base base' s una n n' r pcb) {seg : TcpSeg} {rest : List TcpSeg}
    (hu : pcb.unsent = seg :: rest) (ticks : U32) :
    (∃ nxt', SendInv base s una nxt' (pcb.sendUnsent ticks seg rest).1.sendVars.settle) ∧
      Honest base base' s n n' r (pcb.sendUnsent ticks seg rest).2 := by
  have hne : pcb.sendVars.unsent ≠ [] := by
    show pcb.unsent ≠ []
    rw [hu]
    exact List.cons_ne_nil seg rest
  have hsettle : pcb.sendVars.settle = pcb.sendVars := by
    rw [SendVars.settle, if_neg hne]
  rw [hsettle] at h
  have hmem : seg ∈ pcb.unacked ++ pcb.unsent := by
    rw [hu]
    exact List.mem_append_right _ List.mem_cons_self
  obtain ⟨p, hp⟩ := h.queued seg.chunk (List.mem_map_of_mem hmem)
  have hnear := h.queued_near hp
  have hle := hp.end_le
  have hlive := hp.live
  have hpos := hp.nonempty
  rw [TcpSeg.tcplen_chunk] at hle hlive hpos
  have hend : seg.seqno + BitVec.ofNat 32 seg.tcplen = place base (p + seg.tcplen) := hp.seqno_end
  constructor
  · rw [(sendUnsent_spec pcb ticks seg rest).1, if_pos hpos]
    have hnxt : pcb.sndNxt = place base nxt := h.sndNxt
    have hlt : tcpSeqLt pcb.sndNxt (seg.seqno + BitVec.ofNat 32 seg.tcplen) ↔
        nxt < p + seg.tcplen := by
      rw [hnxt, hend]
      have := h.una_le
      exact tcpSeqLt_iff (h.near (by omega) h.nxt_le (by omega) hle)
    refine ⟨if nxt < p + seg.tcplen then p + seg.tcplen else nxt,
      h.requeue (Pcb.queueUnacked pcb.unacked seg) rest (fun x => ?_) ?_ ?_
        ?_ (if rest = [] then 0 else pcb.unsentOversize) (fun last hl => ?_)
        (fun hnil => if_pos hnil)⟩
    · rw [List.mem_append, mem_queueUnacked, List.mem_append]
      show _ ↔ x ∈ pcb.unacked ∨ x ∈ pcb.unsent
      rw [hu, List.mem_cons]
      tauto
    · rw [hend] at hlt ⊢
      split_ifs with h₁ h₂ h₂
      · rfl
      · exact absurd (hlt.mp h₁) h₂
      · exact absurd (hlt.mpr h₂) h₁
      · exact hnxt
    · have := h.una_le
      split_ifs <;> omega
    · have := h.nxt_le
      split_ifs <;> omega
    · have hroom := h.room last (show last ∈ pcb.unsent.getLast? by
        rw [hu]
        exact getLast?_of_cons hl)
      have : (if rest = [] then 0 else pcb.unsentOversize) ≤ pcb.unsentOversize := by
        split_ifs <;> omega
      exact (Nat.add_le_add_left this _).trans hroom
  · rw [(sendUnsent_spec pcb ticks seg rest).2.2]
    exact hs.honest hp.toChunkAt (by omega) seg.psh

theorem SendInv.order_sendUnsent (h : SendInv base s una nxt pcb.sendVars.settle) {seg : TcpSeg}
    {rest : List TcpSeg} (hu : pcb.unsent = seg :: rest) (ticks : U32) :
    (Sorted pcb.sendVars → Sorted (pcb.sendUnsent ticks seg rest).1.sendVars) ∧
      (Ordered pcb.sendVars → Ordered (pcb.sendUnsent ticks seg rest).1.sendVars) := by
  have hseg : seg ∈ pcb.unsent := by
    rw [hu]
    exact List.mem_cons_self
  obtain ⟨p, hp⟩ := h.queued_seg (List.mem_append_right _ hseg)
  have hpos := hp.nonempty
  rw [TcpSeg.tcplen_chunk] at hpos
  rw [(sendUnsent_spec pcb ticks seg rest).1, if_pos hpos]
  constructor
  · intro hs
    have hunsent : (seg :: rest).Pairwise Precedes := hu ▸ hs.unsent
    obtain ⟨hhead, hrest⟩ := List.pairwise_cons.mp hunsent
    refine ⟨h.pairwise_queueUnacked (List.mem_append_right _ hseg)
      (fun x hx => List.mem_append_left _ hx) hs.unacked (fun x hx => hs.apart x hx seg hseg), hrest,
      fun a ha b hb => ?_⟩
    rcases mem_queueUnacked.mp ha with rfl | ha
    · exact Or.inl (hhead b hb)
    · refine hs.apart a ha b ?_
      show b ∈ pcb.unsent
      rw [hu]
      exact List.mem_cons_of_mem _ hb
  · intro ho
    show (Pcb.queueUnacked pcb.unacked seg ++ rest).Pairwise Precedes
    have happ : Pcb.queueUnacked pcb.unacked seg = pcb.unacked ++ [seg] :=
      h.queueUnacked_append hu ho
    have hsorted : (pcb.unacked ++ pcb.unsent).Pairwise Precedes := ho
    rw [happ, List.append_assoc, List.singleton_append, ← hu]
    exact hsorted

theorem SendInv.outputLoop {ticks : U32} {wnd : ℕ} {unsent : List TcpSeg}
    (h : SendInv base s una nxt pcb.sendVars.settle) (hs : Speaks base base' s una n n' r pcb)
    (hu : pcb.unsent = unsent) :
    (∃ nxt', SendInv base s una nxt' (Pcb.outputLoop ticks wnd unsent pcb).1.sendVars.settle) ∧
      (Pcb.outputLoop ticks wnd unsent pcb).1.recvVars = pcb.recvVars ∧
      (Sorted pcb.sendVars → Sorted (Pcb.outputLoop ticks wnd unsent pcb).1.sendVars) ∧
      (Ordered pcb.sendVars → Ordered (Pcb.outputLoop ticks wnd unsent pcb).1.sendVars) ∧
      ∀ w ∈ (Pcb.outputLoop ticks wnd unsent pcb).2, Honest base base' s n n' r w := by
  induction unsent generalizing pcb nxt with
  | nil => exact ⟨⟨nxt, h⟩, rfl, id, id, fun w hw => absurd hw List.not_mem_nil⟩
  | cons seg rest ih =>
    unfold Pcb.outputLoop
    split
    · obtain ⟨⟨nxt', h'⟩, hw⟩ := h.sendUnsent hs hu ticks
      obtain ⟨hvars, hrecv, -⟩ := sendUnsent_spec pcb ticks seg rest
      have hu' : (pcb.sendUnsent ticks seg rest).1.unsent = rest :=
        congrArg SendVars.unsent hvars
      have hs' : Speaks base base' s una n n' r (pcb.sendUnsent ticks seg rest).1 :=
        { hs with rcvNxt := (congrArg RecvVars.rcvNxt hrecv).trans hs.rcvNxt }
      obtain ⟨hsorted, hordered⟩ := h.order_sendUnsent hu ticks
      obtain ⟨hsend, hrecv', hsorted', hordered', hhonest⟩ := ih h' hs' hu'
      exact ⟨hsend, hrecv'.trans hrecv, fun hso => hsorted' (hsorted hso),
        fun ho => hordered' (hordered ho), List.forall_mem_cons.mpr ⟨hw, hhonest⟩⟩
    · exact ⟨⟨nxt, h⟩, rfl, id, id, fun w hw => absurd hw List.not_mem_nil⟩

theorem SendsOk.emptyAck (h : SendInv base s una nxt pcb.sendVars)
    (hs : Speaks base base' s una n n' r pcb) (alloc : Bool) :
    SendsOk base base' s una n n' r pcb (pcb.tcpSendEmptyAck alloc) := by
  unfold Pcb.tcpSendEmptyAck
  split
  · exact ⟨⟨nxt, h⟩, rfl, id, fun w hw => absurd hw List.not_mem_nil⟩
  · refine ⟨⟨nxt, h⟩, rfl, id, fun w hw => ?_⟩
    rw [List.mem_singleton.mp hw]
    exact hs.honest_empty pcb.sndNxt

theorem SendsOk.tcpOutput (h : SendInv base s una nxt pcb.sendVars)
    (hs : Speaks base base' s una n n' r pcb) (ticks : U32) (alloc : Bool) :
    SendsOk base base' s una n n' r pcb (pcb.tcpOutput ticks alloc) := by
  unfold Pcb.tcpOutput
  dsimp only
  split
  · exact SendsOk.emptyAck h hs alloc
  · obtain ⟨⟨nxt', h'⟩, hrecv, -, hordered, hhonest⟩ :=
      @SendInv.outputLoop _ _ _ _ _ _ _ _ pcb ticks (min pcb.sndWnd pcb.cwnd) _ (h.settle.symm ▸ h)
        hs rfl
    generalize Pcb.outputLoop ticks (min pcb.sndWnd pcb.cwnd) pcb.unsent pcb = res at *
    refine ⟨⟨nxt', ?_⟩, ?_, fun ho => ?_, hhonest⟩
    · unfold SendVars.settle at h'
      split_ifs at h' ⊢ with hnil
      · exact h'
      · exact absurd hnil ‹_›
      · exact absurd ‹_› hnil
      · exact h'
    · split_ifs <;> exact hrecv
    · have := hordered ho
      split_ifs <;> exact this

theorem sorted_tcpOutput (h : SendInv base s una nxt pcb.sendVars)
    (hs : Speaks base base' s una n n' r pcb) (hso : Sorted pcb.sendVars) (ticks : U32)
    (alloc : Bool) : Sorted (pcb.tcpOutput ticks alloc).1.sendVars := by
  unfold Pcb.tcpOutput
  dsimp only
  split
  · unfold Pcb.tcpSendEmptyAck
    split <;> exact hso
  · obtain ⟨-, -, hsorted, -⟩ := @SendInv.outputLoop _ _ _ _ _ _ _ _ pcb ticks
      (min pcb.sndWnd pcb.cwnd) _ (h.settle.symm ▸ h) hs rfl
    have := hsorted hso
    split <;> exact ⟨this.unacked, this.unsent, this.apart⟩

/-! ## Probes and retransmission -/

theorem SendsOk.nothing (h : SendInv base s una nxt pcb.sendVars) :
    SendsOk base base' s una n n' r pcb (pcb, []) :=
  ⟨⟨nxt, h⟩, rfl, id, fun _ hw => absurd hw List.not_mem_nil⟩

/-- A probe carries the first byte of the queue, or its FIN. -/
theorem SendsOk.probe (h : SendInv base s una nxt pcb.sendVars)
    (hs : Speaks base base' s una n n' r pcb) (alloc : Bool) :
    SendsOk base base' s una n n' r pcb (pcb.tcpZeroWindowProbe alloc) := by
  unfold Pcb.tcpZeroWindowProbe
  cases hhead : (pcb.unacked ++ pcb.unsent).head? with
  | none => exact SendsOk.nothing h
  | some seg =>
    dsimp only
    split
    · exact SendsOk.nothing h
    refine ⟨⟨nxt, h⟩, rfl, id, fun w hw => ?_⟩
    obtain ⟨p, hp⟩ := h.queued_seg (List.mem_of_head? hhead)
    have hnear := (h.queued_near hp).1
    rw [List.mem_singleton.mp hw]
    cases hfin : decide (seg.fin = true ∧ seg.data = []) with
    | false => exact hs.honest hp.toChunkAt.first hnear false
    | true =>
      obtain ⟨hf, hd⟩ := of_decide_eq_true hfin
      rw [hd, List.take_nil]
      have := hs.honest hp.toChunkAt hnear false
      rwa [show seg.chunk.fin = true from hf, show seg.chunk.data = [] from hd] at this

theorem SendInv.requeueUnacked (h : SendInv base s una nxt pcb.sendVars) :
    SendInv base s una nxt pcb.requeueUnacked.sendVars := by
  refine h.requeue [] (pcb.unacked ++ pcb.unsent) (fun seg => ?_) h.sndNxt
    h.una_le h.nxt_le pcb.unsentOversize (fun last hl => ?_) (fun hnil => ?_)
  · rw [List.nil_append]
    rfl
  · cases hu : pcb.unsent with
    | nil =>
      have hzero : pcb.unsentOversize = 0 := h.noRoom hu
      rw [hu, List.append_nil] at hl
      have hmem : last ∈ pcb.unacked ++ pcb.unsent :=
        List.mem_append_left _ (List.mem_of_getLast? hl)
      obtain ⟨p, hp⟩ := h.queued last.chunk (List.mem_map_of_mem hmem)
      rw [hzero]
      exact hp.short
    | cons seg rest =>
      refine h.room last ?_
      show last ∈ pcb.unsent.getLast?
      rw [hu] at hl ⊢
      rwa [List.getLast?_append_of_ne_nil _ (List.cons_ne_nil seg rest)] at hl
  · exact h.noRoom (List.append_eq_nil_iff.mp hnil).2

theorem SendsOk.rexmitRto (h : SendInv base s una nxt pcb.sendVars)
    (hs : Speaks base base' s una n n' r pcb) (ticks : U32) (alloc : Bool) :
    SendsOk base base' s una n n' r pcb (pcb.tcpRexmitRto ticks alloc) := by
  unfold Pcb.tcpRexmitRto
  split
  · exact SendsOk.nothing h
  · have := SendsOk.tcpOutput h.requeueUnacked { hs with rcvNxt := hs.rcvNxt } ticks alloc
    exact { this with recv := this.recv, ordered := fun ho => this.ordered ho }

theorem Speaks.frame {pcb' : Pcb} (h : Speaks base base' s una n n' r pcb)
    (hr : pcb'.recvVars = pcb.recvVars) : Speaks base base' s una n n' r pcb' :=
  { h with rcvNxt := (congrArg RecvVars.rcvNxt hr).trans h.rcvNxt }

theorem SendsOk.frame {pcb' : Pcb} {res : Pcb × List Segment}
    (h : SendsOk base base' s una n n' r pcb' res) (hs : pcb'.sendVars = pcb.sendVars)
    (hr : pcb'.recvVars = pcb.recvVars) : SendsOk base base' s una n n' r pcb res :=
  { h with recv := h.recv.trans hr, ordered := fun ho => h.ordered (hs ▸ ho) }

theorem vars_countRtime (pcb : Pcb) :
    pcb.countRtime.sendVars = pcb.sendVars ∧ pcb.countRtime.recvVars = pcb.recvVars := by
  unfold Pcb.countRtime
  split <;> exact ⟨rfl, rfl⟩

theorem SendsOk.slowRetransmit (h : SendInv base s una nxt pcb.sendVars)
    (hs : Speaks base base' s una n n' r pcb) (ticks : U32) (past : ℕ) (alloc : Bool) :
    SendsOk base base' s una n n' r pcb (pcb.slowRetransmit ticks past alloc) := by
  obtain ⟨hsend, hrecv⟩ := vars_countRtime pcb
  unfold Pcb.slowRetransmit
  dsimp only
  split
  · split
    · exact (@SendsOk.probe _ _ _ _ _ _ _ _ pcb.persistNext h (hs.frame rfl) alloc).frame rfl rfl
    · exact ⟨⟨nxt, h⟩, rfl, id, fun w hw => absurd hw List.not_mem_nil⟩
  · have h' : SendInv base s una nxt pcb.countRtime.sendVars := hsend ▸ h
    split
    · exact (@SendsOk.rexmitRto _ _ _ _ _ _ _ _ (pcb.countRtime.backOff past) h' (hs.frame hrecv)
        ticks alloc).frame hsend hrecv
    · exact (SendsOk.nothing h').frame hsend hrecv

/-! ## The end of a connection -/

theorem not_writable_of_gone {state : TcpState} (h : ¬Keeps state) : ¬Writable state := by
  rintro (rfl | rfl)
  · exact h ⟨by decide, by decide⟩
  · exact h ⟨by decide, by decide⟩

/-- A control block that is purged, or at its end anyway. -/
theorem SendInv.gone (h : SendInv base s una nxt pcb.sendVars) {state : TcpState}
    (hstate : ¬Keeps state) :
    SendInv base s una nxt { pcb.purge.sendVars with state := state } := by
  unfold Pcb.purge
  split
  · exact { h with
      writable := fun hw => absurd hw (not_writable_of_gone hstate)
      covered := fun hk => absurd hk hstate }
  · exact { h with
      writable := fun hw => absurd hw (not_writable_of_gone hstate)
      covered := fun hk => absurd hk hstate
      queued := fun c hc => absurd hc List.not_mem_nil
      room := fun last hl => absurd hl (Option.not_mem_none last)
      noRoom := fun _ => rfl }

end EnvirMonitor.Tcp
