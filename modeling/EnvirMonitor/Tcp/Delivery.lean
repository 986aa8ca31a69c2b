import EnvirMonitor.Tcp.Link

/-! What a connection guarantees in every run that stays settled: the data arrives in order and
whole, nothing is lost while both ends live, and every segment tells the truth. A run that does
not stay settled can break this. -/

namespace EnvirMonitor.Tcp
open Machine
open Client (TcpState tcpMss tcpWnd)

def Endpoint.offered (t : Endpoint) : List U8 := t.taken ++ t.pcb.recvVars.refused

variable {base : Side → U32} {l l₀ : Link}

/-! ## A run of three steps, over the wrap of the sequence numbers -/

def sampleBase : Side → U32
  | .client => 0xfffffffe
  | .server => 1000

def sampleEnd (side : Side) : Endpoint where
  pcb :=
    { state := .established, tfAckDelay := false, tfAckNow := false, tfInfr := false,
      tfRxclosed := false, tfFin := false, tfNodelay := false, tfNaglememerr := false,
      rcvNxt := sampleBase side.other, rcvWnd := tcpWnd, rcvAnnWnd := tcpWnd,
      rcvAnnRightEdge := sampleBase side.other + BitVec.ofNat 32 tcpWnd, rtime := -1, mss := tcpMss,
      rttest := 0, rtseq := 0, sa := 0, sv := 6, rto := 6, nrtx := 0, dupacks := 0,
      lastack := sampleBase side, cwnd := 2 * tcpMss, ssthresh := 10 * tcpMss,
      sndNxt := sampleBase side, sndWl1 := sampleBase side.other - 1, sndWl2 := sampleBase side,
      sndLbb := sampleBase side, sndWnd := tcpWnd, sndWndMax := tcpWnd, acked := 0,
      sndBuf := tcpSndBuf, sndQueuelen := 0, unsentOversize := 0, unsent := [], unacked := [],
      refusedData := none, persistCnt := 0, persistBackoff := 0 }
  ticks := 0
  input := false
  log := []

def sampleStart : Link := ⟨sampleEnd, fun _ => []⟩

def sampleScript : Endpoint.Script := ⟨[], true, [], [], [], true, []⟩

def sampleData : List U8 := [1, 2, 3]

def sampleSegment : Segment :=
  ⟨0xfffffffe, 1000, tcpWnd, false, false, false, true, true, sampleData⟩

/-- The client writes and sends, and the segment arrives. -/
def sampleRun : Link :=
  ((sampleStart.after .client (.call (.write sampleData false fun _ => true))).after .client
    (.call (.output true))).after .server (.arrive sampleSegment sampleScript true)

theorem sampleStart_start : Link.Start sampleBase sampleStart := by
  refine ⟨fun side => ?_, fun _ => rfl, fun _ => rfl⟩
  cases side <;> constructor <;> rfl

theorem sampleRun_reached : Link.Reached sampleStart sampleRun := by
  refine .step .server _ (.step .client _ (.step .client _ .start trivial ?_) trivial ?_) ?_ ?_
  · intro side
    cases side <;> decide +kernel
  · intro side
    cases side <;> decide +kernel
  · exact ⟨⟨sampleSegment, 3⟩, by decide +kernel, rfl, by decide +kernel⟩
  · intro side
    cases side <;> decide +kernel

theorem LinkInv.offered {una r : Side → ℕ} (h : LinkInv base una r l) (side : Side)
    (hk : Keeps (l.ends side).pcb.state) :
    (l.ends side).offered = (l.ends side.other).written.take (r side) := by
  have heq := (h.ends side).recv.inOrder_of_keeps hk
  rw [List.append_nil] at heq
  exact heq

/-- In every run that stays settled, what an application takes is a first part of what the other
one wrote, and the end of the stream comes when it is all of it and the other end has closed. -/
theorem tcp_in_order (h₀ : Link.Start base l₀) (h : Link.Reached l₀ l) (side : Side) :
    (l.ends side).taken <+: (l.ends side.other).written ∧
      (.eof ∈ (l.ends side).log → (l.ends side).taken = (l.ends side.other).written ∧
        (l.ends side.other).pcb.tfFin = true) := by
  obtain ⟨una, r, hinv⟩ := h.inv h₀
  exact ⟨(hinv.ends side).recv.isPrefix, (hinv.ends side).eof⟩

/-- The server takes the three bytes that the client wrote. -/
theorem tcp_in_order_sample : (sampleRun.ends .server).taken = sampleData ∧
    (sampleRun.ends .server).taken <+: (sampleRun.ends .client).written := by
  refine ⟨by decide +kernel, ?_⟩
  exact (tcp_in_order sampleStart_start sampleRun_reached .server).1

/-! ## A run that does not stay settled -/

def callWrite (data : List U8) : Action := .call (.write data false fun _ => true)

def callOutput : Action := .call (.output true)

def arrival (seqno ackno : U32) (wnd : ℕ) (psh : Bool) (data : List U8) : Action :=
  .arrive ⟨seqno, ackno, wnd, false, false, false, psh, true, data⟩ sampleScript true

/-- A window that looks open until it is found closed, so that a segment which is to be sent again
has to wait. -/
def lateRun : List (Side × Action) :=
  -- the first byte of the server is lost, what follows it arrives
  [(.server, callWrite [1]), (.server, callOutput),
    (.server, callWrite (List.replicate 1460 2)), (.server, callOutput),
    (.client, arrival 1001 0xfffffffe 2920 true (List.replicate 1460 2)),
    -- the client fills the window of the server
    (.client, callWrite (List.replicate 2920 3)), (.client, callOutput),
    (.server, arrival 0xfffffffe 1000 2920 false (List.replicate 1460 3)),
    (.server, arrival 1458 1000 2920 true (List.replicate 1460 3))] ++
  -- the first byte comes again, too old for its window of 0 to count
  List.replicate 6 (.server, .slowtmr false 0 true) ++
  [(.client, arrival 1000 2918 0 true [1]),
    (.client, callWrite [4, 5]), (.client, callOutput),
    (.client, callWrite (List.replicate 1460 6)), (.client, callOutput)] ++
  -- three acknowledgements close the window and ask for the two bytes again
  List.replicate 3 (.client, arrival 2461 2918 0 false []) ++
  -- three more bytes go into the segment of the two that wait
  [(.client, callWrite [7, 8, 9]),
    (.server, .call (.recved 2920 true)),
    (.client, arrival 2461 2918 2920 false []),
    (.server, arrival 2918 1001 2919 true [4, 5, 7, 8, 9])]

/-- The server takes bytes at a place where the client wrote others. -/
theorem lateRun_out_of_order : sampleStart.Allowed lateRun ∧
    ¬((sampleStart.run lateRun).ends .server).taken <+:
      ((sampleStart.run lateRun).ends .client).written := by
  decide +kernel

/-- While both ends keep their queues, each byte that was written was offered to the other
application or stands at its place in a queued segment. -/
theorem tcp_nothing_lost (h₀ : Link.Start base l₀) (h : Link.Reached l₀ l) (side : Side)
    (hs : Keeps (l.ends side).pcb.state) (hr : Keeps (l.ends side.other).pcb.state) {i : ℕ} {b : U8}
    (hi : (l.ends side).written[i]? = some b) :
    (l.ends side.other).offered[i]? = some b ∨
      ∃ seg ∈ (l.ends side).pcb.unacked ++ (l.ends side).pcb.unsent, ∃ k,
        seg.seqno + BitVec.ofNat 32 k = base side + BitVec.ofNat 32 i ∧ seg.data[k]? = some b := by
  obtain ⟨una, r, hinv⟩ := h.inv h₀
  have hoffered := hinv.offered side.other hr
  rw [Side.other_other] at hoffered
  obtain ⟨nxt, hsend⟩ := (hinv.ends side).send
  have hagree := hinv.agree side
  have hlt : i < (l.ends side).written.length := (List.getElem?_eq_some_iff.mp hi).1
  rcases Nat.lt_or_ge i (r side.other) with hread | hunread
  · refine Or.inl ?_
    rw [hoffered, List.getElem?_take_of_lt hread]
    exact hi
  · right
    have hlen : (l.ends side).stream.len = (l.ends side).written.length +
      (l.ends side).pcb.tfFin.toNat := rfl
    obtain ⟨c, hc, p, hp, hle, hin⟩ := hsend.covered hs i (hagree.trans hunread) (by omega)
    obtain ⟨seg, hseg, rfl⟩ := List.mem_map.mp hc
    have hcov : i - p < seg.data.length := by
      have hlen' : seg.chunk.tcplen = seg.data.length + seg.fin.toNat := rfl
      cases hf : seg.fin with
      | false =>
        rw [hf, Bool.toNat_false] at hlen'
        omega
      | true =>
        -- the place of the FIN is behind the data
        have hend : p + seg.data.length = (l.ends side).written.length := (hp.fin hf).2
        rw [hf, Bool.toNat_true] at hlen'
        omega
    refine ⟨seg, hseg, i - p, ?_, ?_⟩
    · rw [show seg.seqno = place (base side) p from hp.seqno, place_add, Nat.add_sub_cancel' hle]
      rfl
    · obtain ⟨rest, heq⟩ := hp.data.2
      have hget : (seg.data ++ rest)[i - p]? = ((l.ends side).written.drop p)[i - p]? :=
        congrArg (fun xs => xs[i - p]?) heq
      rw [List.getElem?_append_left hcov, List.getElem?_drop, Nat.add_sub_cancel' hle] at hget
      exact hget.trans hi

theorem tcp_nothing_lost_sample : (sampleRun.ends .server).offered[1]? = some 2 ∨
    ∃ seg ∈ (sampleRun.ends .client).pcb.unacked ++ (sampleRun.ends .client).pcb.unsent, ∃ k,
      seg.seqno + BitVec.ofNat 32 k = sampleBase .client + BitVec.ofNat 32 1 ∧
        seg.data[k]? = some 2 :=
  tcp_nothing_lost sampleStart_start sampleRun_reached .client (by decide +kernel) (by decide +kernel)
    (by decide +kernel)

/-- While the other end keeps its queues, a sender is never more than its buffer ahead of what the
application there was offered. -/
theorem tcp_buffer_bounds (h₀ : Link.Start base l₀) (h : Link.Reached l₀ l) (side : Side)
    (hr : Keeps (l.ends side.other).pcb.state) :
    (l.ends side).written.length ≤ (l.ends side.other).offered.length + tcpSndBuf := by
  obtain ⟨una, r, hinv⟩ := h.inv h₀
  have hoffered := congrArg List.length (hinv.offered side.other hr)
  rw [Side.other_other, List.length_take] at hoffered
  obtain ⟨nxt, hsend⟩ := (hinv.ends side).send
  have hbound : (l.ends side).written.length ≤ una side + tcpSndBuf := hsend.bounded
  have hagree := hinv.agree side
  omega

theorem tcp_buffer_bounds_sample : (sampleRun.ends .client).written.length ≤
    (sampleRun.ends .server).offered.length + tcpSndBuf :=
  tcp_buffer_bounds sampleStart_start sampleRun_reached .client (by decide +kernel)

/-- Every segment on the link, however late it arrives, carries the bytes that were written at its
place, and acknowledges nothing that was not written; while its sender keeps its queues, it
acknowledges only what the application there was offered. -/
theorem tcp_segments_honest (h₀ : Link.Start base l₀) (h : Link.Reached l₀ l) (side : Side)
    {f : Flight} (hf : f ∈ l.flights side) (hrst : f.w.rst = false) :
    (0 < f.w.tcplen → ∃ p, f.w.seqno = base side + BitVec.ofNat 32 p ∧
      f.w.data <+: (l.ends side).written.drop p ∧
      (f.w.fin = true → p + f.w.data.length = (l.ends side).written.length)) ∧
      ∃ a, f.w.ackno = base side.other + BitVec.ofNat 32 a ∧
        a ≤ (l.ends side.other).written.length + (l.ends side.other).pcb.tfFin.toNat ∧
        (Keeps (l.ends side).pcb.state →
          (l.ends side.other).written.take a <+: (l.ends side).offered) := by
  obtain ⟨una, r, hinv⟩ := h.inv h₀
  obtain ⟨n, n', -, -, -, hhonest⟩ := hinv.flights side f hf
  constructor
  · intro hpos
    obtain ⟨p, hp, -⟩ := hhonest.data hrst hpos
    exact ⟨p, hp.seqno, hp.data.2, fun hfin => (hp.fin hfin).2⟩
  · obtain ⟨a, ha, hle, -⟩ := hhonest.ack hrst
    refine ⟨a, ha, hle.trans (hinv.ends side).recv.le, fun hk => ?_⟩
    rw [hinv.offered side hk]
    exact List.take_prefix_take_left hle

theorem tcp_segments_honest_sample :
    (0 < sampleSegment.tcplen → ∃ p, sampleSegment.seqno = sampleBase .client + BitVec.ofNat 32 p ∧
      sampleSegment.data <+: (sampleRun.ends .client).written.drop p ∧
      (sampleSegment.fin = true →
        p + sampleSegment.data.length = (sampleRun.ends .client).written.length)) ∧
      ∃ a, sampleSegment.ackno = sampleBase .server + BitVec.ofNat 32 a ∧
        a ≤ (sampleRun.ends .server).written.length + (sampleRun.ends .server).pcb.tfFin.toNat ∧
        (Keeps (sampleRun.ends .client).pcb.state →
          (sampleRun.ends .server).written.take a <+: (sampleRun.ends .client).offered) :=
  tcp_segments_honest sampleStart_start sampleRun_reached .client
    (show ⟨sampleSegment, 3⟩ ∈ sampleRun.flights .client by decide +kernel) rfl

end EnvirMonitor.Tcp
