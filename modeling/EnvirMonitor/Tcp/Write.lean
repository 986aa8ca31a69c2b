import EnvirMonitor.Tcp.Queue

/-! The functions that queue: `tcp_write` and the FIN put the next part of the stream behind what
is queued, where the queues are in order. -/

namespace EnvirMonitor.Tcp
open Machine
open Client (TcpState tcpMss tcpWnd)

variable {base : U32} {s : Stream} {una nxt : ℕ} {v : SendVars}

/-! ## `tcp_write` -/

def Stream.write (s : Stream) (data : List U8) : Stream := { s with data := s.data ++ data }

theorem Stream.grows_write (hfin : s.fin = false) (data : List U8) : s.Grows (s.write data) :=
  ⟨List.prefix_append _ _, fun h => absurd (hfin ▸ h) Bool.false_ne_true⟩

theorem Stream.len_of_open (hfin : s.fin = false) : s.len = s.data.length := by
  rw [len, hfin, Bool.toNat_false, Nat.add_zero]

/-- Where no FIN is queued, the last segment of `unsent` ends with the data of the stream. -/
theorem SendInv.tail_open (h : SendInv base s una nxt v) (hfin : s.fin = false) (ho : Ordered v)
    (hk : Keeps v.state) {last : TcpSeg} (hl : last ∈ v.unsent.getLast?) :
    ∃ p, QueuedAt base s una v.mssLocal last.chunk p ∧ p + last.data.length = s.data.length ∧
      last.fin = false := by
  obtain ⟨p, hp, hend⟩ := h.tail_end ho hk hl
  have hlast : last.fin = false := by
    cases hf : last.fin with
    | false => rfl
    | true => exact absurd (hfin ▸ (hp.fin hf).1) Bool.false_ne_true
  rw [TcpSeg.tcplen, hlast, Bool.toNat_false, Nat.add_zero, Stream.len_of_open hfin] at hend
  exact ⟨p, hp, hend, hlast⟩

theorem QueuedAt.extend {limit limit' p : ℕ} {last : TcpSeg} {ext : List U8}
    (h : QueuedAt base s una limit last.chunk p) (hend : p + last.data.length = s.data.length)
    (hfin : last.fin = false) (hl : last.data.length + ext.length ≤ limit') (clen : ℕ)
    (left : List U8) : QueuedAt base (s.write (ext ++ left)) una limit'
      ({ last with data := last.data ++ ext, clen := clen } : TcpSeg).chunk p := by
  have hlen : last.chunk.tcplen = last.data.length := by
    rw [TcpSeg.tcplen_chunk, TcpSeg.tcplen, hfin]
    rfl
  have hlive := h.live
  have hpos := h.nonempty
  rw [hlen] at hlive hpos
  have hlen' : ({ last with data := last.data ++ ext, clen := clen } : TcpSeg).chunk.tcplen =
      last.data.length + ext.length := by
    show (last.data ++ ext).length + last.fin.toNat = _
    rw [hfin, List.length_append]
    rfl
  refine ⟨⟨h.seqno, ?_, fun hf => absurd (hfin ▸ hf) Bool.false_ne_true⟩, by omega, by omega, ?_⟩
  · show StandsAt (s.data ++ (ext ++ left)) p (last.data ++ ext)
    rw [← List.append_assoc]
    exact (h.data.append hend ext).grow (List.prefix_append _ _)
  · show (last.data ++ ext).length ≤ limit'
    rw [List.length_append]
    exact hl

section
variable {pcb : Pcb} {more : Bool} {x : Pcb.Extension} {queue : List TcpSeg} {data : List U8}
  {os : ℕ}

/-- `last_unsent` with what phases 1 and 2 put behind it. -/
def extendSeg (x : Pcb.Extension) (last : TcpSeg) : TcpSeg :=
  { last with data := last.data ++ x.ext, clen := last.clen + x.clen }

theorem unsent_commitWrite (len : ℕ) :
    (pcb.commitWrite more len x queue os).unsent.map TcpSeg.chunk =
      (pcb.unsent.modifyLast (extendSeg x) ++ queue).map TcpSeg.chunk := by
  show (if _ then Pcb.setPsh _ else _).map TcpSeg.chunk = _
  split
  · rw [chunk_setPsh]
    rfl
  · rfl

theorem chunks_commitWrite (len : ℕ) :
    (pcb.commitWrite more len x queue os).sendVars.chunks =
      pcb.unacked.map TcpSeg.chunk ++ (pcb.unsent.modifyLast (extendSeg x)).map TcpSeg.chunk ++
        queue.map TcpSeg.chunk := by
  show (pcb.unacked ++ (pcb.commitWrite more len x queue os).unsent).map TcpSeg.chunk = _
  rw [List.map_append, unsent_commitWrite, List.map_append, List.append_assoc]

/-- What the three phases have found when they succeed. -/
structure Committed (pcb : Pcb) (data : List U8) (x : Pcb.Extension) (queue : List TcpSeg)
    (os : ℕ) : Prop where
  split : data = x.ext ++ x.left
  len : data.length ≤ pcb.sndBuf
  cuts : Cuts pcb.sendVars.mssLocal (pcb.sndLbb + BitVec.ofNat 32 x.ext.length) x.left queue
  noLast : pcb.unsent = [] → x.ext = [] ∧ x.oversize = 0
  last : ∀ last ∈ pcb.unsent.getLast?,
    last.data.length + x.ext.length + x.oversize ≤ pcb.sendVars.mssLocal
  noQueue : queue = [] → os = x.oversize
  queue : ∀ last ∈ queue.getLast?, last.data.length + os ≤ pcb.sendVars.mssLocal

/-- The new segments stand behind the extension and cover the rest of the data. -/
theorem SendInv.queued_new (h : SendInv base s una nxt pcb.sendVars) (hfin : s.fin = false)
    (hc : Committed pcb data x queue os) :
    (∀ c ∈ queue.map TcpSeg.chunk, ∃ p,
      QueuedAt base (s.write data) una pcb.sendVars.mssLocal c p) ∧
      ∀ q, s.data.length + x.ext.length ≤ q → q < (s.write data).len →
        ∃ c ∈ queue.map TcpSeg.chunk, ∃ p,
          QueuedAt base (s.write data) una pcb.sendVars.mssLocal c p ∧ p ≤ q ∧ q < p + c.tcplen := by
  have hlbb : pcb.sndLbb = place base s.data.length := (h.buffered hfin).1
  have hlen := Stream.len_of_open hfin
  have huna : una ≤ s.data.length := by
    have := h.una_le
    have := h.nxt_le
    omega
  have hend : (s.write data).len = s.data.length + x.ext.length + x.left.length := by
    rw [Stream.len_of_open (s := s.write data) hfin, hc.split]
    show (s.data ++ (x.ext ++ x.left)).length = _
    rw [List.length_append, List.length_append, Nat.add_assoc]
  have hcuts := hc.cuts
  rw [hlbb, place_add] at hcuts
  have hstands : StandsAt (s.write data).data (s.data.length + x.ext.length) x.left := by
    have hat := (StandsAt.atEnd s.data (x.ext ++ x.left)).drop (n := x.ext.length)
      (by rw [List.length_append]; omega)
    rwa [List.drop_left' rfl, ← hc.split] at hat
  obtain ⟨hnew, hcover⟩ := hcuts.queuedAt hstands (Nat.le_add_right_of_le huna)
  rw [List.forall_mem_map]
  refine ⟨hnew, fun q hq hq' => ?_⟩
  obtain ⟨seg, hseg, hp⟩ := hcover q hq (hend ▸ hq')
  exact ⟨seg.chunk, List.mem_map_of_mem hseg, hp⟩

theorem SendInv.queued_extended (h : SendInv base s una nxt pcb.sendVars) (hfin : s.fin = false)
    (ho : Ordered pcb.sendVars) (hk : Keeps pcb.state) (hc : Committed pcb data x queue os)
    {last : TcpSeg} (hl : last ∈ pcb.unsent.getLast?) :
    ∃ p, QueuedAt base s una pcb.sendVars.mssLocal last.chunk p ∧
      QueuedAt base (s.write data) una pcb.sendVars.mssLocal (extendSeg x last).chunk p ∧
      last.tcplen ≤ (extendSeg x last).tcplen ∧
      p + (extendSeg x last).tcplen = s.data.length + x.ext.length := by
  obtain ⟨p, hp, hend, hlfin⟩ := h.tail_open hfin ho hk hl
  have hlimit : last.data.length + x.ext.length ≤ pcb.sendVars.mssLocal := by
    have := hc.last last hl
    omega
  have hextended := hp.extend hend hlfin hlimit (last.clen + x.clen) x.left
  rw [← hc.split] at hextended
  have hlen : last.tcplen = last.data.length := by
    rw [TcpSeg.tcplen, hlfin]
    rfl
  have hlen' : (extendSeg x last).tcplen = last.data.length + x.ext.length := by
    show (last.data ++ x.ext).length + last.fin.toNat = _
    rw [hlfin, List.length_append]
    rfl
  exact ⟨p, hp, hextended, by omega, by omega⟩

theorem SendInv.queued_commit (more : Bool) (h : SendInv base s una nxt pcb.sendVars)
    (hfin : s.fin = false) (ho : Ordered pcb.sendVars) (hk : Keeps pcb.state)
    (hc : Committed pcb data x queue os) :
    let m := pcb.sendVars.mssLocal
    let s' := s.write data
    let chunks := (pcb.commitWrite more data.length x queue os).sendVars.chunks
    (∀ c ∈ chunks, ∃ p, QueuedAt base s' una m c p) ∧
      (Keeps pcb.state → ∀ q, una ≤ q → q < s'.len →
        ∃ c ∈ chunks, ∃ p, QueuedAt base s' una m c p ∧ p ≤ q ∧ q < p + c.tcplen) := by
  intro m s' chunks
  have hchunks : chunks = _ := chunks_commitWrite data.length
  have hlen := Stream.len_of_open hfin
  have hgrow {c : Chunk} {p : ℕ} (hp : QueuedAt base s una m c p) : QueuedAt base s' una m c p :=
    hp.grow (Stream.grows_write hfin data) le_rfl
  obtain ⟨hnew, hcover⟩ := h.queued_new hfin hc
  rcases List.eq_nil_or_concat pcb.unsent with hnil | ⟨init, last, hunsent⟩
  · have hold : pcb.sendVars.chunks = pcb.unacked.map TcpSeg.chunk := by
      show (pcb.unacked ++ pcb.unsent).map TcpSeg.chunk = _
      rw [hnil, List.append_nil]
    rw [hnil, show List.modifyLast (extendSeg x) [] = [] from rfl, List.map_nil, List.append_nil,
      ← hold] at hchunks
    rw [hchunks]
    refine ⟨List.forall_mem_append.mpr ⟨fun c hcm => ?_, hnew⟩, fun hk q hq hq' =>
      h.covered_of_kept hk (fun c hcm p hp => ?_) (fun q hq hq' => ?_) hq hq'⟩
    · obtain ⟨p, hp⟩ := h.queued c hcm
      exact ⟨p, hgrow hp⟩
    · exact ⟨c, List.mem_append_left _ hcm, hgrow hp, le_rfl⟩
    · obtain ⟨c, hcm, hp⟩ := hcover q (by rw [(hc.noLast hnil).1, List.length_nil]; omega) hq'
      exact ⟨c, List.mem_append_right _ hcm, hp⟩
  · rw [List.concat_eq_append] at hunsent
    have hl : last ∈ pcb.unsent.getLast? := by
      rw [hunsent, List.getLast?_concat]
      rfl
    obtain ⟨p₀, hp₀, hextended, hle, hend⟩ := h.queued_extended hfin ho hk hc hl
    generalize hfront : pcb.unacked.map TcpSeg.chunk ++ init.map TcpSeg.chunk = front
    have hold : pcb.sendVars.chunks = front ++ [last.chunk] := by
      show (pcb.unacked ++ pcb.unsent).map TcpSeg.chunk = _
      rw [hunsent, ← hfront, List.map_append, List.map_append, List.append_assoc]
      rfl
    rw [hunsent, List.modifyLast_concat, List.map_append, List.map_singleton, ← List.append_assoc,
      hfront] at hchunks
    have hlast : (extendSeg x last).chunk ∈ chunks := by
      rw [hchunks]
      exact List.mem_append_left _ (List.mem_append_right _ List.mem_cons_self)
    have hkept {c : Chunk} (hcm : c ∈ front) : c ∈ pcb.sendVars.chunks ∧ c ∈ chunks := by
      rw [hold, hchunks]
      exact ⟨List.mem_append_left _ hcm, List.mem_append_left _ (List.mem_append_left _ hcm)⟩
    constructor
    · rw [hchunks]
      refine List.forall_mem_append.mpr ⟨List.forall_mem_append.mpr ⟨fun c hcm => ?_,
        fun c hcm => ?_⟩, hnew⟩
      · obtain ⟨p, hp⟩ := h.queued c (hkept hcm).1
        exact ⟨p, hgrow hp⟩
      · exact ⟨p₀, List.mem_singleton.mp hcm ▸ hextended⟩
    refine fun hk q hq hq' => h.covered_of_kept hk (fun c hcm p hp => ?_) (fun q hq hq' => ?_)
      hq hq'
    · rw [hold] at hcm
      rcases List.mem_append.mp hcm with hcm | hcm
      · exact ⟨c, (hkept hcm).2, hgrow hp, le_rfl⟩
      · rw [List.mem_singleton] at hcm
        subst hcm
        exact ⟨_, hlast, h.position_unique hp hp₀ ▸ hextended, hle⟩
    · rcases Nat.lt_or_ge q (s.data.length + x.ext.length) with hlt | hge
      · have hp₀_le := hp₀.toChunkAt.end_le
        exact ⟨_, hlast, p₀, hextended, by omega, by rw [TcpSeg.tcplen_chunk]; omega⟩
      · obtain ⟨c, hcm, hp⟩ := hcover q hge hq'
        exact ⟨c, hchunks ▸ List.mem_append_right _ hcm, hp⟩

theorem last_commitWrite (hc : Committed pcb data x queue os) {last : TcpSeg}
    (hl : last ∈ (pcb.commitWrite more data.length x queue os).unsent.getLast?) :
    (queue = [] ∧ ∃ l ∈ pcb.unsent.getLast?, last.chunk = (extendSeg x l).chunk) ∨
      ∃ l ∈ queue.getLast?, last.chunk = l.chunk := by
  obtain ⟨l, hmem, heq⟩ := getLast?_chunk (unsent_commitWrite data.length) hl
  rcases List.eq_nil_or_concat queue with rfl | ⟨rest, l', rfl⟩
  · rw [List.append_nil] at hmem
    rcases List.eq_nil_or_concat pcb.unsent with hnil | ⟨init, last', hunsent⟩
    · rw [hnil] at hmem
      exact absurd hmem (Option.not_mem_none l)
    · rw [hunsent, List.concat_eq_append, List.modifyLast_concat, List.getLast?_concat] at hmem
      refine Or.inl ⟨rfl, last', ?_, ?_⟩
      · rw [hunsent, List.concat_eq_append, List.getLast?_concat]
        rfl
      · rw [← heq, ← Option.some.inj hmem]
  · rw [List.concat_eq_append, ← List.append_assoc, List.getLast?_concat] at hmem
    refine Or.inr ⟨l', ?_, by rw [← heq, Option.some.inj hmem]⟩
    rw [List.concat_eq_append, List.getLast?_concat]
    rfl

theorem tcplen_of_chunk {a b : TcpSeg} (h : a.chunk = b.chunk) :
    a.seqno = b.seqno ∧ a.data = b.data ∧ a.fin = b.fin := by
  injection h with hs hd hf
  exact ⟨hs, hd, hf⟩

theorem SendInv.commit (more : Bool) (h : SendInv base s una nxt pcb.sendVars)
    (hfin : s.fin = false) (ho : Ordered pcb.sendVars) (hk : Keeps pcb.state)
    (hc : Committed pcb data x queue os) :
    SendInv base (s.write data) una nxt (pcb.commitWrite more data.length x queue os).sendVars := by
  have hgrow : s.Grows (s.write data) := Stream.grows_write hfin data
  obtain ⟨hqueued, hcovered⟩ := h.queued_commit more hfin ho hk hc
  obtain ⟨hlbb, hbuf⟩ := h.buffered hfin
  have hlbb' : pcb.sndLbb = place base s.data.length := hlbb
  have hbuf' : pcb.sndBuf + s.data.length = tcpSndBuf + una := hbuf
  have hlen := hc.len
  have hwrite : (s.write data).data.length = s.data.length + data.length := List.length_append
  refine
    { lastack := h.lastack
      sndNxt := h.sndNxt
      una_le := h.una_le
      nxt_le := h.nxt_le.trans hgrow.len_le
      bounded := by omega
      fin := h.fin
      mss := h.mss
      writable := h.writable
      buffered := fun _ => ⟨?_, ?_⟩
      queued := hqueued
      covered := hcovered
      room := fun last hl => ?_
      noRoom := fun hnil => ?_ }
  · show pcb.sndLbb + BitVec.ofNat 32 data.length = _
    rw [hlbb', place_add, hwrite]
  · show pcb.sndBuf - data.length + _ = _
    omega
  · show last.data.length + os ≤ pcb.sendVars.mssLocal
    rcases last_commitWrite hc hl with ⟨rfl, l, hmem, heq⟩ | ⟨l, hmem, heq⟩
    · obtain ⟨-, hdata, -⟩ := tcplen_of_chunk heq
      rw [hc.noQueue rfl, hdata]
      show (l.data ++ x.ext).length + _ ≤ _
      rw [List.length_append]
      exact hc.last l hmem
    · obtain ⟨-, hdata, -⟩ := tcplen_of_chunk heq
      rw [hdata]
      exact hc.queue l hmem
  · have hmap : (pcb.commitWrite more data.length x queue os).unsent.map TcpSeg.chunk = _ :=
      unsent_commitWrite data.length
    rw [show (pcb.commitWrite more data.length x queue os).unsent = [] from hnil] at hmap
    obtain ⟨hmod, hq⟩ := List.append_eq_nil_iff.mp (List.map_eq_nil_iff.mp hmap.symm)
    have hunsent : pcb.unsent = [] := by
      rcases List.eq_nil_or_concat pcb.unsent with hnil | ⟨init, last, hunsent⟩
      · exact hnil
      · rw [hunsent, List.concat_eq_append, List.modifyLast_concat] at hmod
        exact absurd hmod (List.append_ne_nil_of_right_ne_nil _ (List.cons_ne_nil _ _))
    show os = 0
    rw [hc.noQueue hq, (hc.noLast hunsent).2]

theorem pairwise_chunks (queue : List TcpSeg) : queue.Pairwise Precedes ↔
    (queue.map TcpSeg.chunk).Pairwise fun a b =>
      tcpSeqLeq (a.seqno + BitVec.ofNat 32 a.tcplen) b.seqno := by
  rw [List.pairwise_map]
  rfl

/-- The order does not depend on what the last segment holds. -/
theorem pairwise_last {queue : List TcpSeg} {last last' : TcpSeg}
    (h : (queue ++ [last]).Pairwise Precedes) (hseq : last'.seqno = last.seqno) :
    (queue ++ [last']).Pairwise Precedes := by
  obtain ⟨hqueue, -, hlast⟩ := List.pairwise_append.mp h
  refine List.pairwise_append.mpr ⟨hqueue, List.pairwise_singleton _ _,
    fun seg hmem seg' hmem' => ?_⟩
  rw [List.mem_singleton.mp hmem', Precedes, hseq]
  exact hlast seg hmem last List.mem_cons_self

theorem ordered_commit (more : Bool) (h : SendInv base s una nxt pcb.sendVars)
    (hfin : s.fin = false) (ho : Ordered pcb.sendVars) (hk : Keeps pcb.state)
    (hc : Committed pcb data x queue os) :
    Ordered (pcb.commitWrite more data.length x queue os).sendVars := by
  have hbuf := (h.buffered hfin).2
  have hlbb : pcb.sndLbb = place base s.data.length := (h.buffered hfin).1
  have hbuf' : pcb.sndBuf + s.data.length = tcpSndBuf + una := hbuf
  have hbound := h.bounded
  have huna : una ≤ s.data.length := by
    have := h.una_le
    have := h.nxt_le
    have := Stream.len_of_open hfin
    omega
  have hsnd : tcpSndBuf = 5840 := rfl
  have hlen : x.ext.length + x.left.length ≤ pcb.sndBuf := by
    have := hc.len
    rwa [hc.split, List.length_append] at this
  have hcuts := hc.cuts
  rw [hlbb, place_add] at hcuts
  obtain ⟨hpair, hstarts⟩ := hcuts.pairwise (by omega)
  -- whatever ends in the stream so far, or in the extension, precedes the new segments
  have hbefore (seg : TcpSeg) (q : ℕ) (hq : seg.seqno + BitVec.ofNat 32 seg.tcplen = place base q)
      (hle : una ≤ q) (hle' : q ≤ s.data.length + x.ext.length) :
      ∀ seg' ∈ queue, Precedes seg seg' := by
    intro seg' hmem
    obtain ⟨q', hq', hge, hge'⟩ := hstarts seg' hmem
    have hnear : Near 32 q q' := by constructor <;> omega
    rw [Precedes, hq, hq']
    exact (tcpSeqLeq_iff hnear).mpr (by omega)
  have hold (seg : TcpSeg) (hmem : seg ∈ pcb.unacked ++ pcb.unsent) :
      ∀ seg' ∈ queue, Precedes seg seg' := by
    obtain ⟨p, hp⟩ := h.queued seg.chunk (List.mem_map_of_mem hmem)
    have hend := hp.toChunkAt.end_le
    have hlive := hp.live
    rw [Stream.len_of_open hfin] at hend
    exact hbefore seg (p + seg.tcplen) hp.seqno_end (Nat.le_of_lt hlive) (by
      rw [← TcpSeg.tcplen_chunk]
      omega)
  have hchunks : ((pcb.unacked ++ (pcb.commitWrite more data.length x queue os).unsent).Pairwise
      Precedes) ↔ (pcb.unacked ++ (pcb.unsent.modifyLast (extendSeg x) ++ queue)).Pairwise
        Precedes := by
    rw [pairwise_chunks, pairwise_chunks, List.map_append, List.map_append, unsent_commitWrite]
  refine hchunks.mpr ?_
  rcases List.eq_nil_or_concat pcb.unsent with hnil | ⟨init, last, hunsent⟩
  · rw [hnil, show List.modifyLast (extendSeg x) [] = [] from rfl, List.nil_append]
    have hsorted : (pcb.unacked ++ pcb.unsent).Pairwise Precedes := ho
    rw [hnil, List.append_nil] at hsorted
    exact List.pairwise_append.mpr ⟨hsorted, hpair, fun seg hmem =>
      hold seg (List.mem_append_left _ hmem)⟩
  · rw [List.concat_eq_append] at hunsent
    have hl : last ∈ pcb.unsent.getLast? := by
      rw [hunsent, List.getLast?_concat]
      rfl
    obtain ⟨p₀, hp₀, -, -, hend⟩ := h.queued_extended hfin ho hk hc hl
    have hsorted : (pcb.unacked ++ pcb.unsent).Pairwise Precedes := ho
    rw [hunsent, ← List.append_assoc] at hsorted
    rw [hunsent, List.modifyLast_concat, ← List.append_assoc, ← List.append_assoc]
    refine List.pairwise_append.mpr ⟨pairwise_last hsorted rfl, hpair, fun seg hmem => ?_⟩
    rcases List.mem_append.mp hmem with hmem | hmem
    · refine hold seg ?_
      rw [hunsent, ← List.append_assoc]
      exact List.mem_append_left _ hmem
    · rw [List.mem_singleton.mp hmem]
      have hlive := hp₀.live
      refine hbefore _ (p₀ + (extendSeg x last).tcplen) ?_ (by omega) hend.le
      rw [show (extendSeg x last).seqno = place base p₀ from hp₀.seqno, place_add]

theorem keeps_of_writable {state : TcpState} (h : Writable state) : Keeps state := by
  rcases h with rfl | rfl <;> rw [Keeps] <;> decide

theorem writable_iff {state : TcpState} :
    Writable state ↔ ¬(state ≠ .established ∧ state ≠ .closeWait) := by
  rw [Writable]
  tauto

theorem tcpWriteChecks_cases (pcb : Pcb) (len : ℕ) :
    (∃ err flag, err ≠ .ok ∧
      pcb.tcpWriteChecks len = ({ pcb with tfNaglememerr := flag }, err)) ∨
      Writable pcb.state ∧ len ≤ pcb.sndBuf ∧ pcb.tcpWriteChecks len = (pcb, .ok) := by
  unfold Pcb.tcpWriteChecks
  split_ifs with hstate hzero hbuf hqueue
  · exact Or.inl ⟨.conn, pcb.tfNaglememerr, by decide, rfl⟩
  · exact Or.inr ⟨writable_iff.mpr hstate, by omega, rfl⟩
  · exact Or.inl ⟨.mem, true, by decide, rfl⟩
  · exact Or.inl ⟨.mem, true, by decide, rfl⟩
  · exact Or.inr ⟨writable_iff.mpr hstate, by omega, rfl⟩

theorem extension_spec (h : SendInv base s una nxt pcb.sendVars) {alloc : ℕ → Bool}
    (hx : pcb.extension more pcb.sendVars.mssLocal alloc data = some x) :
    data = x.ext ++ x.left ∧ (pcb.unsent = [] → x.ext = [] ∧ x.oversize = 0) ∧
      ∀ last ∈ pcb.unsent.getLast?,
        last.data.length + x.ext.length + x.oversize ≤ pcb.sendVars.mssLocal := by
  have hm : pcb.sendVars.mssLocal < 2 ^ 16 := by
    have := h.mssLocal_le
    have : tcpMss = 1460 := rfl
    omega
  unfold Pcb.extension at hx
  cases hl : pcb.unsent.getLast? with
  | none =>
    rw [hl] at hx
    obtain rfl := Option.some.inj hx
    exact ⟨rfl, fun _ => ⟨rfl, rfl⟩, fun last hlast => absurd hlast (Option.not_mem_none last)⟩
  | some last =>
    rw [hl] at hx
    obtain ⟨hsplit, hle⟩ := extendLast_spec hm (h.room last hl) hx
    refine ⟨hsplit, fun hnil => ?_, fun last' hlast' => ?_⟩
    · rw [hnil] at hl
      exact absurd hl (Option.some_ne_none last).symm
    · obtain rfl := Option.some.inj hlast'
      exact hle

/-- `tcp_write` makes all its changes or none. -/
theorem tcpWrite_cases (h : SendInv base s una nxt pcb.sendVars) (data : List U8) (more : Bool)
    (alloc : ℕ → Bool) :
    (∃ err flag, err ≠ .ok ∧
      pcb.tcpWrite data more alloc = ({ pcb with tfNaglememerr := flag }, err)) ∨
      Writable pcb.state ∧ ∃ x queue os, Committed pcb data x queue os ∧
        pcb.tcpWrite data more alloc = (pcb.commitWrite more data.length x queue os, .ok) := by
  unfold Pcb.tcpWrite
  rcases tcpWriteChecks_cases pcb data.length with ⟨err, flag, herr, hchecks⟩ | ⟨hw, hlen, hchecks⟩
  · refine Or.inl ⟨err, flag, herr, ?_⟩
    rw [hchecks]
    cases err with
    | ok => exact absurd rfl herr
    | _ => rfl
  rw [hchecks]
  dsimp only
  cases hphases : pcb.writePhases data more alloc with
  | none => exact Or.inl ⟨.mem, true, by decide, rfl⟩
  | some pcb' =>
    obtain ⟨x, hx, hmap⟩ := Option.bind_eq_some_iff.mp hphases
    obtain ⟨⟨queue, os⟩, hq, rfl⟩ := Option.map_eq_some_iff.mp hmap
    obtain ⟨hsplit, hnoLast, hlast⟩ := extension_spec h hx
    obtain ⟨hcuts, hos, hqueue⟩ := newSegments_spec hq
    have hlen' : data.length - x.left.length = x.ext.length := by
      rw [hsplit, List.length_append, Nat.add_sub_cancel]
    rw [hlen'] at hcuts
    exact Or.inr ⟨hw, x, queue, os, ⟨hsplit, hlen, hcuts, hnoLast, hlast, hos, hqueue⟩, rfl⟩

end

/-! ## FIN -/

def Stream.close (s : Stream) : Stream := { s with fin := true }

theorem Stream.grows_close (s : Stream) : s.Grows s.close :=
  ⟨List.prefix_refl _, fun _ => ⟨rfl, rfl⟩⟩

theorem Stream.len_close (s : Stream) : s.close.len = s.data.length + 1 := rfl

theorem SendInv.close_of {pcb : Pcb} (pcb' : Pcb) (h : SendInv base s una nxt pcb.sendVars)
    (hw : Writable pcb.state) (state : TcpState) (hstate : ¬Writable state)
    (hvars : pcb'.sendVars = { pcb.sendVars with
      state := state, tfFin := true, sndLbb := pcb'.sndLbb, sndBuf := pcb'.sndBuf,
      unsent := pcb'.unsent, unsentOversize := pcb'.unsentOversize })
    (init : List Chunk) (last : Chunk) {p : ℕ}
    (hold : ∀ c ∈ pcb.sendVars.chunks, c ∈ init ∨
      QueuedAt base s una pcb.sendVars.mssLocal c p ∧ c.tcplen ≤ last.tcplen)
    (hinit : ∀ c ∈ init, c ∈ pcb.sendVars.chunks)
    (hchunks : pcb'.sendVars.chunks = init ++ [last])
    (hlast : QueuedAt base s.close una pcb.sendVars.mssLocal last p)
    (hend : p + last.tcplen = s.data.length + 1)
    (hroom : ∀ last ∈ pcb'.unsent.getLast?,
      last.data.length + pcb'.unsentOversize ≤ pcb.sendVars.mssLocal)
    (hnoRoom : pcb'.unsent = [] → pcb'.unsentOversize = 0) :
    SendInv base s.close una nxt pcb'.sendVars := by
  have hmss : pcb'.sendVars.mssLocal = pcb.sendVars.mssLocal := by rw [hvars]; rfl
  have hlen : s.len = s.data.length := Stream.len_of_open (h.writable hw)
  have hgrow := s.grows_close
  refine
    { lastack := by rw [hvars]; exact h.lastack
      sndNxt := by rw [hvars]; exact h.sndNxt
      una_le := h.una_le
      nxt_le := h.nxt_le.trans hgrow.len_le
      bounded := h.bounded
      fin := by rw [hvars]; rfl
      mss := by rw [hvars]; exact h.mss
      writable := fun hs => absurd (by rw [hvars] at hs; exact hs) hstate
      buffered := fun hf => absurd hf.symm Bool.false_ne_true
      queued := fun c hc => ?_
      covered := fun _ q hq hq' => ?_
      room := by rw [hmss]; exact hroom
      noRoom := hnoRoom }
  · rw [hchunks] at hc
    rw [hmss]
    rcases List.mem_append.mp hc with hc | hc
    · obtain ⟨q, hq⟩ := h.queued c (hinit c hc)
      exact ⟨q, hq.grow hgrow le_rfl⟩
    · rw [List.mem_singleton] at hc
      exact ⟨p, hc ▸ hlast⟩
  · rw [hchunks, hmss]
    have hmem : last ∈ init ++ [last] := List.mem_append_right _ List.mem_cons_self
    refine h.covered_of_kept (keeps_of_writable hw) (fun c hc p' hp' => ?_) (fun q hq hq' => ?_) hq
      hq'
    · rcases hold c hc with hc | ⟨hp, hle⟩
      · exact ⟨c, List.mem_append_left _ hc, hp'.grow hgrow le_rfl, le_rfl⟩
      · exact ⟨last, hmem, h.position_unique hp' hp ▸ hlast, hle⟩
    · rw [Stream.len_close] at hq'
      have hdata : p ≤ s.data.length := hlast.data.1
      exact ⟨last, hmem, p, hlast, by omega, by omega⟩

theorem tcpEnqueueFin_cases (pcb : Pcb) (alloc : Bool) :
    (∃ flag, pcb.tcpEnqueueFin alloc = ({ pcb with tfNaglememerr := flag }, .mem)) ∨
      0 < pcb.sndBuf ∧ pcb.tcpEnqueueFin alloc = ({ pcb with
        unsent := pcb.unsent ++ [⟨pcb.sndLbb, [], true, false, 1⟩]
        unsentOversize := 0
        sndLbb := pcb.sndLbb + 1
        sndBuf := pcb.sndBuf - 1
        tfFin := true
        sndQueuelen := pcb.sndQueuelen + 1 }, .ok) := by
  unfold Pcb.tcpEnqueueFin
  split_ifs with hqueue hbuf halloc
  · exact Or.inl ⟨true, rfl⟩
  · exact Or.inl ⟨pcb.tfNaglememerr, rfl⟩
  · exact Or.inr ⟨by omega, rfl⟩
  · exact Or.inl ⟨true, rfl⟩

theorem SendInv.enqueueFin {pcb : Pcb} (h : SendInv base s una nxt pcb.sendVars)
    (hw : Writable pcb.state) (hnil : pcb.unsent = []) {state : TcpState}
    (hstate : ¬Writable state) : SendInv base s.close una nxt ({ pcb with
        state := state
        unsent := pcb.unsent ++ [⟨pcb.sndLbb, [], true, false, 1⟩]
        unsentOversize := 0
        sndLbb := pcb.sndLbb + 1
        sndBuf := pcb.sndBuf - 1
        tfFin := true
        sndQueuelen := pcb.sndQueuelen + 1 } : Pcb).sendVars := by
  have hfin := h.writable hw
  have huna : una ≤ s.data.length := by
    have := h.una_le
    have := h.nxt_le
    have := Stream.len_of_open hfin
    omega
  refine h.close_of _ hw state hstate rfl pcb.sendVars.chunks
    (⟨pcb.sndLbb, [], true⟩ : Chunk) (fun c hc => Or.inl hc) (fun c hc => hc) ?_ ?_ rfl ?_
    fun _ => rfl
  · show (pcb.unacked ++ (pcb.unsent ++ [_])).map TcpSeg.chunk =
      (pcb.unacked ++ pcb.unsent).map _ ++ _
    rw [← List.append_assoc, List.map_append]
    rfl
  · exact ⟨⟨(h.buffered hfin).1, StandsAt.nil le_rfl, fun _ => ⟨rfl, rfl⟩⟩, Nat.lt_succ_of_le huna,
      Nat.zero_lt_one, Nat.zero_le _⟩
  · intro last hl
    rw [hnil] at hl
    obtain rfl : _ = last := Option.some.inj hl
    exact Nat.zero_le _

theorem SendInv.ordered_enqueueFin {pcb : Pcb} (h : SendInv base s una nxt pcb.sendVars)
    (hw : Writable pcb.state) (ho : Ordered pcb.sendVars) :
    (pcb.unacked ++ (pcb.unsent ++ [(⟨pcb.sndLbb, [], true, false, 1⟩ : TcpSeg)])).Pairwise
      Precedes := by
  have hfin := h.writable hw
  have hlbb : pcb.sndLbb = place base s.data.length := (h.buffered hfin).1
  rw [← List.append_assoc]
  refine List.pairwise_append.mpr ⟨ho, List.pairwise_singleton _ _, fun seg hmem seg' hmem' => ?_⟩
  obtain ⟨p, hp⟩ := h.queued_seg hmem
  have hle := hp.toChunkAt.end_le
  have hlive := hp.live
  rw [TcpSeg.tcplen_chunk] at hle hlive
  have hlen := Stream.len_of_open hfin
  have hend : seg.seqno + BitVec.ofNat 32 seg.tcplen = place base (p + seg.tcplen) := hp.seqno_end
  rw [List.mem_singleton.mp hmem', Precedes, hend, hlbb]
  exact (tcpSeqLeq_iff (h.near (by omega) hle (by omega) (by omega))).mpr (by omega)

/-- FIN goes into the last unsent segment or into one of its own. -/
theorem SendInv.sendFin {pcb : Pcb} (h : SendInv base s una nxt pcb.sendVars)
    (hw : Writable pcb.state) (ho : Ordered pcb.sendVars) (alloc : Bool) :
    (∃ err flag, err ≠ .ok ∧
      pcb.tcpSendFin alloc = ({ pcb with tfNaglememerr := flag }, err)) ∨
      ∃ pcb', pcb.tcpSendFin alloc = (pcb', .ok) ∧ pcb'.state = pcb.state ∧
        pcb'.recvVars = pcb.recvVars ∧ Ordered pcb'.sendVars ∧ ∀ state, ¬Writable state →
          SendInv base s.close una nxt { pcb'.sendVars with state := state } := by
  have hfin := h.writable hw
  rcases List.eq_nil_or_concat pcb.unsent with hnil | ⟨init, last, hunsent⟩
  · have hsend : pcb.tcpSendFin alloc = pcb.tcpEnqueueFin alloc := by
      unfold Pcb.tcpSendFin
      rw [hnil]
      rfl
    rw [hsend]
    rcases tcpEnqueueFin_cases pcb alloc with ⟨flag, heq⟩ | ⟨-, heq⟩
    · exact Or.inl ⟨.mem, flag, by decide, heq⟩
    · exact Or.inr ⟨_, heq, rfl, rfl, h.ordered_enqueueFin hw ho, fun state hs =>
        h.enqueueFin hw hnil hs⟩
  rw [List.concat_eq_append] at hunsent
  have hl : pcb.unsent.getLast? = some last := by rw [hunsent, List.getLast?_concat]
  obtain ⟨p, hp, hend, hlfin⟩ := h.tail_open hfin ho (keeps_of_writable hw) hl
  have hmod : pcb.unsent.modifyLast (fun last => { last with fin := true }) =
      init ++ [{ last with fin := true }] := by rw [hunsent, List.modifyLast_concat]
  refine Or.inr ⟨{ pcb with
    unsent := pcb.unsent.modifyLast fun last => { last with fin := true }, tfFin := true }, ?_, rfl,
    rfl, ?_, fun state hs => ?_⟩
  · unfold Pcb.tcpSendFin
    rw [hl]
    dsimp only
    rw [hlfin, if_neg Bool.false_ne_true]
  · have hsorted : (pcb.unacked ++ pcb.unsent).Pairwise Precedes := ho
    rw [hunsent, ← List.append_assoc] at hsorted
    show (pcb.unacked ++ pcb.unsent.modifyLast _).Pairwise Precedes
    rw [hmod, ← List.append_assoc]
    exact pairwise_last hsorted rfl
  have hold : pcb.sendVars.chunks = (pcb.unacked ++ init).map TcpSeg.chunk ++ [last.chunk] := by
    show (pcb.unacked ++ pcb.unsent).map TcpSeg.chunk = _
    rw [hunsent, ← List.append_assoc, List.map_append]
    rfl
  have hlive := hp.live
  have hlen : last.chunk.tcplen = last.data.length := by
    show last.data.length + last.fin.toNat = _
    rw [hlfin]
    rfl
  have hlen' : (⟨last.seqno, last.data, true⟩ : Chunk).tcplen = last.data.length + 1 := rfl
  refine h.close_of { pcb with
      state := state
      unsent := pcb.unsent.modifyLast fun last => { last with fin := true }
      tfFin := true } hw state hs rfl ((pcb.unacked ++ init).map TcpSeg.chunk)
    ⟨last.seqno, last.data, true⟩ (p := p) (fun c hc => ?_) (fun c hc => ?_) ?_ ?_ (by omega)
    (fun l hmem => ?_) (fun hnil => ?_)
  · rw [hold] at hc
    rcases List.mem_append.mp hc with hc | hc
    · exact Or.inl hc
    · rw [List.mem_singleton] at hc
      subst hc
      exact Or.inr ⟨hp, by omega⟩
  · rw [hold]
    exact List.mem_append_left _ hc
  · show (pcb.unacked ++ pcb.unsent.modifyLast _).map TcpSeg.chunk = _
    rw [hmod, ← List.append_assoc, List.map_append]
    rfl
  · exact ⟨⟨hp.seqno, hp.data, fun _ => ⟨rfl, hend⟩⟩, by omega, by omega, hp.short⟩
  · rw [show ({ pcb with
      state := state
      unsent := pcb.unsent.modifyLast fun last => { last with fin := true }
      tfFin := true } : Pcb).unsent = pcb.unsent.modifyLast fun last => { last with fin := true }
      from rfl, hmod, List.getLast?_concat] at hmem
    obtain rfl := Option.some.inj hmem
    exact h.room last hl
  · exact absurd (hmod ▸ hnil) (List.append_ne_nil_of_right_ne_nil _ (List.cons_ne_nil _ _))

end EnvirMonitor.Tcp
