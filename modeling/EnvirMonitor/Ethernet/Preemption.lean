import EnvirMonitor.Ethernet.Chip

/-! `DM9000_SendPacket` in the main loop, preempted by the key interrupt that sends a frame of
its own. The driver masks only the chip's interrupt and keeps no copy of the selected register. -/

namespace EnvirMonitor.Ethernet
open Machine Prog

/-- Every frame that lwIP hands to `low_level_output` starts with a 14-byte Ethernet header. -/
structure Frame extends PbufChain where
  header : 14 ≤ totLen.toNat

theorem Frame.bytes_ne_nil (A : Frame) : A.bytes ≠ [] := by
  intro h
  have hlen := A.length_bytes
  have := A.header
  rw [h, List.length_nil] at hlen
  omega

/-- The handler sends `B` when the main loop has made `k` of the accesses that send `A`. -/
def preemptedSend (fuel k : ℕ) (A B : Frame) : Driver Unit :=
  preempt (dm9000SendPacket imrAll fuel B.toPbufChain) k
    (dm9000SendPacket imrAll fuel A.toPbufChain)

def sendInTurn (fuel : ℕ) (A B : Frame) : Driver Unit := do
  dm9000SendPacket imrAll fuel A.toPbufChain
  dm9000SendPacket imrAll fuel B.toPbufChain

/-- `b'` is what sending `A` and then `B` makes of `b`, apart from the transmit memory. -/
structure AsInTurn (A B : Frame) (b b' : Board) : Prop where
  sent : b'.sent = b.sent ++ [A.bytes, B.bytes]
  regs : ∃ fuel c, (sendInTurn fuel A B).run board b = some ((), c) ∧
    b'.index = c.index ∧ b'.regs = c.regs

/-- With enough fuel for the polls both sends return, as if made in turn. -/
def SafeAt (A B : Frame) (b : Board) (k : ℕ) : Prop :=
  ∃ lower b', (∀ fuel, lower ≤ fuel → (preemptedSend fuel k A B).run board b = some ((), b')) ∧
    (AsInTurn A B b b' ∨ AsInTurn B A b b')

theorem run_sendInTurn (fuel : ℕ) (A B : Frame) (b : Board) :
    (sendInTurn (fuel + 1) A B).run board b =
      some ((), (b.afterSend imrAll A.toPbufChain).afterSend imrAll B.toPbufChain) := by
  rw [sendInTurn, run_bind_of (run_send ..), run_send]

/-! ## The handler runs before the poll -/

def remaining (fuel : ℕ) (ops : List Access) : Driver Unit :=
  performAll ops >>= fun _ => waitSent fuel >>= fun _ => performAll (finish imrAll)

theorem run_preempted_request (fuel : ℕ) {k : ℕ} (A B : Frame) (b : Board)
    (hk : k ≤ (request A.toPbufChain).length) :
    (preemptedSend (fuel + 1) k A B).run board b =
      (remaining (fuel + 1) ((request A.toPbufChain).drop k)).run board
        ((after board ((request A.toPbufChain).take k) b).afterSend imrAll B.toPbufChain) := by
  rw [preemptedSend, dm9000SendPacket_eq imrAll _ A.toPbufChain, preempt_performAll _ hk,
    run_performAll_bind, run_bind, run_send]
  rfl

theorem safeAt_of_le_two {A B : Frame} {b : Board} (hidle : b.tx = []) {k : ℕ} (hk : k ≤ 2) :
    SafeAt A B b k := by
  have hlen : 2 ≤ (request A.toPbufChain).length := by simp [request, selectTx]
  have hrun fuel := run_preempted_request fuel A B b (hk.trans hlen)
  have hmask : (after board ((request A.toPbufChain).take k) b).afterSend imrAll B.toPbufChain =
      b.afterSend imrAll B.toPbufChain := by
    -- so far `A` has at most written the interrupt mask, which `B` writes anew
    interval_cases k
    · rfl
    · rfl
    · exact afterSend_maskImr imrAll B.toPbufChain b _ _
  have hrest (fuel : ℕ) (c : Board) (hc : c.index = Reg.IMR) :
      (remaining (fuel + 1) ((request A.toPbufChain).drop k)).run board c =
        some ((), c.afterSend imrAll A.toPbufChain) := by
    have hwrite : c.write (imrPar.setWidth 16) =
        { c with index := Reg.IMR, regs := Function.update c.regs Reg.IMR (imrPar.setWidth 16) } := by
      rw [← hc]
      simp [Board.write, hc]
    have hdrop := run_send_drop_two imrAll fuel A.toPbufChain
    interval_cases k
    · exact (hdrop _).trans (congrArg (fun d => some ((), d)) (afterSend_maskImr ..))
    · rw [← afterSend_maskImr imrAll A.toPbufChain c (imrPar.setWidth 16) Reg.IMR, ← hwrite]
      exact hdrop _
    · exact hdrop c
  refine ⟨1, (b.afterSend imrAll B.toPbufChain).afterSend imrAll A.toPbufChain,
    fun fuel hfuel => ?_, Or.inr ⟨?_, 1, _, run_sendInTurn 0 B A b, rfl, rfl⟩⟩
  · obtain ⟨fuel, rfl⟩ := Nat.exists_eq_add_of_le' hfuel
    rw [hrun, hmask, hrest fuel _ rfl]
  · rw [afterSend_sent _ _ rfl, afterSend_sent _ _ hidle, List.append_assoc]
    rfl

theorem run_remaining_none (fuel : ℕ) {ops : List Access} {c : Board}
    (h : (after board ops c).regs Reg.ISR &&& 0x02 = 0) :
    (remaining fuel ops).run board c = none := by
  rw [remaining, run_performAll_bind, run_bind, run_waitSent_clear fuel h, Option.bind_none]

theorem remaining_sent {fuel : ℕ} {ops : List Access} {c b' : Board}
    (h : (remaining fuel ops).run board c = some ((), b')) :
    b'.sent = (after board ops c).sent := by
  by_cases hbit : (after board ops c).regs Reg.ISR &&& 0x02 = 0
  · rw [run_remaining_none fuel hbit] at h
    cases h
  · cases fuel with
    | zero => rw [remaining, run_performAll_bind] at h; cases h
    | succ fuel =>
      rw [remaining, run_performAll_bind, run_bind_of (run_waitSent_set fuel hbit), run_performAll,
        after_finish] at h
      cases h
      rfl

/-- Accesses that can neither fill the transmit memory nor start a transmission. -/
def Access.Quiet : Access → Prop
  | setReg reg => reg ≠ Reg.MWCMD ∧ reg ≠ Reg.TCR
  | putData _ => True
  | _ => False

theorem after_quiet {ops : List Access} (h : ∀ op ∈ ops, op.Quiet) {b : Board}
    (hi : b.index ≠ Reg.MWCMD ∧ b.index ≠ Reg.TCR) :
    (after board ops b).tx = b.tx ∧ (after board ops b).sent = b.sent := by
  induction ops generalizing b with
  | nil => exact ⟨rfl, rfl⟩
  | cons op ops ih =>
    have hop := h op (List.mem_cons_self ..)
    have hops := fun o ho => h o (List.mem_cons_of_mem op ho)
    cases op with
    | setReg reg => exact ih hops hop
    | putData data =>
      have hw : (b.write data).index = b.index ∧ (b.write data).tx = b.tx ∧
          (b.write data).sent = b.sent := by
        unfold Board.write
        rw [if_neg hi.1]
        split_ifs with h1 h2
        · exact ⟨rfl, rfl, rfl⟩
        · exact absurd h2.1 hi.2
        · exact ⟨rfl, rfl, rfl⟩
      have := ih (b := b.write data) hops (by rwa [hw.1])
      exact ⟨this.1.trans hw.2.1, this.2.trans hw.2.2⟩
    | getReg => exact hop.elim
    | getData => exact hop.elim
    | pbufAlloc len => exact hop.elim
    | pbufFree p => exact hop.elim

theorem startTx_sent {b : Board} (h : b.tx = []) :
    (after board startTx b).sent = b.sent ++ [[]] := by
  simp [startTx, Board.write, Board.transmit, h, unpack]

def frameData (p : PbufChain) : List Access := p.words.map .putData ++ setLength p

theorem frameData_quiet (p : PbufChain) : ∀ op ∈ frameData p, op.Quiet := by
  intro op hop
  simp only [frameData, setLength, List.mem_append, List.mem_map, List.mem_cons,
    List.not_mem_nil, or_false] at hop
  rcases hop with ⟨w, -, rfl⟩ | rfl | rfl | rfl | rfl <;> simp [Access.Quiet]

theorem length_request (p : PbufChain) : (request p).length = (frameData p).length + 5 := by
  simp only [request, frameData, selectTx, startTx, List.length_append, List.length_cons,
    List.length_nil]
  omega

theorem not_safeAt_of_data {A B : Frame} {b : Board} {j : ℕ}
    (hj : j ≤ (frameData A.toPbufChain).length) : ¬ SafeAt A B b (j + 3) := by
  rintro ⟨lower, b', hrun, h⟩
  have hlen := length_request A.toPbufChain
  have hdrop : (request A.toPbufChain).drop (j + 3) =
      (frameData A.toPbufChain).drop j ++ startTx := by
    rw [← List.drop_append_of_le_length hj, Nat.add_comm, ← List.drop_drop]
    rfl
  have hquiet : ∀ op ∈ (frameData A.toPbufChain).drop j, op.Quiet := fun op hop =>
    frameData_quiet A.toPbufChain op (List.mem_of_mem_drop hop)
  have hsent := remaining_sent ((run_preempted_request lower A B b (by omega)).symm.trans
    (hrun _ lower.le_succ))
  rw [hdrop, after_append] at hsent
  -- the handler leaves `IMR` selected, so the rest of `A` misses the transmit memory
  obtain ⟨htx, -⟩ := after_quiet hquiet (b := (after board ((request A.toPbufChain).take (j + 3))
    b).afterSend imrAll B.toPbufChain) (by simp [Board.afterSend])
  rw [startTx_sent htx] at hsent
  have hlast := congrArg List.getLast? hsent
  rw [List.getLast?_concat] at hlast
  rcases h with h | h
  · rw [h.sent] at hlast
    simp [B.bytes_ne_nil] at hlast
  · rw [h.sent] at hlast
    simp [A.bytes_ne_nil] at hlast

theorem not_safeAt_of_request {A B : Frame} {b : Board} {j : ℕ} (hj : j < 2) :
    ¬ SafeAt A B b ((frameData A.toPbufChain).length + 4 + j) := by
  rintro ⟨lower, b', hrun, -⟩
  have hlen := length_request A.toPbufChain
  have hdrop : (request A.toPbufChain).drop ((frameData A.toPbufChain).length + 4 + j) =
      startTx.drop (j + 1) := by
    have hsplit : request A.toPbufChain = (selectTx ++ frameData A.toPbufChain) ++ startTx := rfl
    have hhead : (selectTx ++ frameData A.toPbufChain).length =
        (frameData A.toPbufChain).length + 3 := by
      rw [List.length_append, Nat.add_comm]
      rfl
    rw [hsplit, List.drop_append, List.drop_eq_nil_of_le (by omega), hhead, List.nil_append]
    congr 1
    omega
  have hran := hrun _ lower.le_succ
  -- the handler has consumed the end-of-transmission bit that `A` polls for
  rw [run_preempted_request lower A B b (by omega), hdrop, run_remaining_none] at hran
  · cases hran
  · interval_cases j
    · exact sentRegs_isr imrAll B.toPbufChain _
    · exact sentRegs_isr imrAll B.toPbufChain _

/-! ## The handler runs after the request -/

theorem run_preempted_request_add (fuel i : ℕ) (A B : Frame) (b : Board) :
    (preemptedSend fuel ((request A.toPbufChain).length + i) A B).run board b =
      (preempt (dm9000SendPacket imrAll fuel B.toPbufChain) i
        (waitSent fuel >>= fun _ => performAll (finish imrAll))).run board
          (after board (request A.toPbufChain) b) := by
  rw [preemptedSend, dm9000SendPacket_eq imrAll _ A.toPbufChain, preempt_performAll_add,
    run_performAll_bind]

theorem run_preempted_poll (fuel : ℕ) (handler : Driver Unit) (next : Unit → Driver Unit)
    (b : Board) :
    (preempt handler 1 (waitSent (fuel + 1) >>= next)).run board b =
      (handler.run board { b with index := Reg.ISR }).bind fun x =>
        ((if x.2.read &&& 0x02 = 0 then waitSent fuel else pure ()) >>= next).run board
          x.2.afterRead := by
  -- the poll has selected `ISR`; after the handler it reads `IMR`
  have hpoll : (preempt handler 1 (waitSent (fuel + 1) >>= next)).run board b =
      (handler >>= fun _ => getData >>= fun status =>
        (if status &&& 0x02 = 0 then waitSent fuel else pure ()) >>= next).run board
          { b with index := Reg.ISR } := rfl
  rw [hpoll, run_bind]
  rfl

theorem run_preempted_polled (fuel i : ℕ) (handler : Driver Unit) (next : Unit → Driver Unit)
    {b : Board} (h : b.regs Reg.ISR &&& 0x02 ≠ 0) :
    (preempt handler (i + 2) (waitSent (fuel + 1) >>= next)).run board b =
      (preempt handler i (next ())).run board { b with index := Reg.ISR } := by
  have hpoll : (preempt handler (i + 2) (waitSent (fuel + 1) >>= next)).run board b =
      (preempt handler i ((if b.regs Reg.ISR &&& 0x02 = 0 then waitSent fuel else pure ()) >>=
        next)).run board { b with index := Reg.ISR } := rfl
  rw [hpoll, if_neg h, pure_bind]

theorem not_safeAt_of_poll {A B : Frame} {b : Board} :
    ¬ SafeAt A B b ((request A.toPbufChain).length + 1) := by
  rintro ⟨lower, b', hrun, -⟩
  have hran := hrun _ lower.le_succ
  have hmask (c : Board) : (c.afterSend imrAll B.toPbufChain).read &&& 0x02 = 0 := by
    simp [Board.read, Board.afterSend, sentRegs, imrAll, imrPar, imrPri]
  have hstay (c : Board) : (c.afterSend imrAll B.toPbufChain).afterRead =
      c.afterSend imrAll B.toPbufChain := rfl
  rw [run_preempted_request_add, run_preempted_poll, run_send, Option.bind_some, if_pos (hmask _),
    hstay, run_bind, run_waitSent_clear _ (sentRegs_isr imrAll B.toPbufChain _)] at hran
  cases hran

theorem finish_around_send (p : PbufChain) (b : Board) {j : ℕ} (hj : j < 4) :
    after board ((finish imrAll).drop j)
        ((after board ((finish imrAll).take j) { b with index := Reg.ISR }).afterSend imrAll p) =
      (after board (finish imrAll) { b with index := Reg.ISR }).afterSend imrAll p := by
  have hidem (x : U16) : x &&& 65533#16 &&& 65533#16 = x &&& 65533#16 := by
    rw [BitVec.and_assoc, BitVec.and_self]
  interval_cases j <;> simp [finish, Board.write, Board.afterSend] <;> funext reg <;>
    simp [sentRegs, Function.update_apply, hidem] <;> split_ifs <;> simp_all

theorem safeAt_of_polled {A B : Frame} {b : Board} (hidle : b.tx = []) {j : ℕ} (hj : j < 4) :
    SafeAt A B b ((request A.toPbufChain).length + 2 + j) := by
  have hreq : after board (request A.toPbufChain) b = after board ((request A.toPbufChain).drop 2)
      { b with index := Reg.IMR, regs := Function.update b.regs Reg.IMR (imrPar.setWidth 16) } :=
    rfl
  have hsent : after board (finish imrAll)
      { after board (request A.toPbufChain) b with index := Reg.ISR } =
        b.afterSend imrAll A.toPbufChain := by
    rw [hreq, after_request_finish, afterSend_maskImr]
  have hbit : (after board (request A.toPbufChain) b).regs Reg.ISR &&& 0x02 ≠ 0 := by
    rw [hreq, after_request_drop_two]
    exact requestedRegs_isr A.toPbufChain _
  refine ⟨1, (b.afterSend imrAll A.toPbufChain).afterSend imrAll B.toPbufChain, fun fuel hfuel => ?_,
    Or.inl ⟨?_, 1, _, run_sendInTurn 0 A B b, rfl, rfl⟩⟩
  · obtain ⟨fuel, rfl⟩ := Nat.exists_eq_add_of_le' hfuel
    rw [Nat.add_assoc, Nat.add_comm 2 j, run_preempted_request_add, run_preempted_polled _ _ _ _ hbit,
      ← bind_pure (performAll (finish imrAll)), preempt_performAll _ (Nat.le_of_lt hj),
      run_performAll_bind, run_bind_of (run_send ..), run_performAll_bind,
      finish_around_send B.toPbufChain _ hj, hsent, run_pure]
  · rw [afterSend_sent _ _ rfl, afterSend_sent _ _ hidle, List.append_assoc]
    rfl

theorem reentrant_send_safe_iff (A B : Frame) {b : Board} (hidle : b.tx = []) {k : ℕ}
    (hlast : k < (trace imrAll A.toPbufChain 1).length) :
    SafeAt A B b k ↔ k ≤ 2 ∨ (request A.toPbufChain).length + 2 ≤ k := by
  have hlen := length_request A.toPbufChain
  have htrace : (trace imrAll A.toPbufChain 1).length = (request A.toPbufChain).length + 6 := by
    simp [trace, poll, finish]
  constructor
  · intro h
    by_contra hno
    obtain ⟨hlow, hhigh⟩ := not_or.mp hno
    by_cases hdata : k ≤ (frameData A.toPbufChain).length + 3
    · obtain ⟨j, rfl⟩ := Nat.exists_eq_add_of_le' (Nat.lt_of_not_le hlow)
      exact not_safeAt_of_data (by omega) h
    by_cases hpoll : k = (request A.toPbufChain).length + 1
    · exact not_safeAt_of_poll (hpoll ▸ h)
    · obtain ⟨j, rfl⟩ : ∃ j, k = (frameData A.toPbufChain).length + 4 + j :=
        Nat.exists_eq_add_of_le (by omega)
      exact not_safeAt_of_request (by omega) h
  · rintro (h | h)
    · exact safeAt_of_le_two hidle h
    · obtain ⟨j, rfl⟩ := Nat.exists_eq_add_of_le h
      exact safeAt_of_polled hidle (by omega)

/-- An ARP request and a SYN segment on an idle chip. -/
def sampleFrame (byte : U8) (len : U16) (h : 14 ≤ len.toNat) : Frame where
  segments := [List.replicate len.toNat byte]
  totLen := len
  totLen_eq := by simp
  header := h

def idleBoard : Board where
  index := 0
  regs := fun _ => 0
  tx := []
  sent := []
  rxReady := fun _ => 0
  rxWord := fun _ => 0
  rxPtr := 0
  granted := fun _ => true
  allocs := 0
  freed := []

theorem not_reentrant_after_select : ¬ ∀ k,
    0 < k → k < (trace imrAll (sampleFrame 1 42 (by decide)).toPbufChain 1).length →
      SafeAt (sampleFrame 1 42 (by decide)) (sampleFrame 2 54 (by decide)) idleBoard k :=
  fun h => not_safeAt_of_data (Nat.zero_le _) (h 3 (by decide) (by decide))

theorem reentrant_send_safe_iff_sample :
    SafeAt (sampleFrame 1 42 (by decide)) (sampleFrame 2 54 (by decide)) idleBoard 2 ∧
      ¬ SafeAt (sampleFrame 1 42 (by decide)) (sampleFrame 2 54 (by decide)) idleBoard 20 := by
  constructor
  · exact (reentrant_send_safe_iff _ _ rfl (by decide)).mpr (by decide)
  · exact fun h => absurd ((reentrant_send_safe_iff _ _ rfl (by decide)).mp h) (by decide)

end EnvirMonitor.Ethernet
