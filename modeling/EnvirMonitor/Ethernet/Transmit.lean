import EnvirMonitor.Ethernet.Driver

/-! What `DM9000_SendPacket` puts on the bus, for every way the chip may answer its polls. -/

namespace EnvirMonitor.Ethernet
open Machine Prog

def PbufChain.bytes (p : PbufChain) : List U8 := p.segments.flatten

theorem PbufChain.length_bytes (p : PbufChain) : p.bytes.length = p.totLen.toNat := by
  rw [p.totLen_eq, bytes, List.length_flatten]

def PbufChain.words (p : PbufChain) : List U16 := pack p.bytes

def selectTx : List Access :=
  [.setReg Reg.IMR, .putData (imrPar.setWidth 16), .setReg Reg.MWCMD]

def setLength (p : PbufChain) : List Access :=
  [.setReg Reg.TXPLL, .putData (p.totLen &&& 0xFF),
    .setReg Reg.TXPLH, .putData (p.totLen >>> 8 &&& 0xFF)]

def startTx : List Access := [.setReg Reg.TCR, .putData 0x01]

def request (p : PbufChain) : List Access :=
  selectTx ++ (p.words.map .putData ++ setLength p) ++ startTx

def finish (imr : U8) : List Access :=
  [.setReg Reg.ISR, .putData 0x02, .setReg Reg.IMR, .putData (imr.setWidth 16)]

/-! ## The loops of the driver as straight-line code -/

section
variable {α : Type}

theorem sendSegment_bind (payload rest : List U8) (f : Option U8 → Driver Unit)
    (hf : ∀ word, f word = performAll ((pack (word.toList ++ rest)).map Access.putData))
    (word : Option U8) :
    (sendSegment payload word >>= f) =
      performAll ((pack (word.toList ++ payload ++ rest)).map Access.putData) := by
  induction payload generalizing word with
  | nil =>
    rw [sendSegment, pure_bind, hf, List.append_nil]
  | cons byte payload ih =>
    cases word with
    | none =>
      rw [sendSegment, ih]
      rfl
    -- a buffered byte and the next one make a word
    | some first =>
      have hnone := ih none
      rw [sendSegment, bind_assoc, hnone]
      rfl

theorem sendSegments_bind (segments : List (List U8)) (word : Option U8) :
    (sendSegments segments word >>= sendLast) =
      performAll ((pack (word.toList ++ segments.flatten)).map Access.putData) := by
  induction segments generalizing word with
  | nil => cases word <;> rfl
  | cons payload segments ih =>
    rw [sendSegments, bind_assoc, sendSegment_bind payload segments.flatten _ ih,
      List.flatten_cons, List.append_assoc]

end

theorem dm9000SendPacket_eq (imr : U8) (fuel : ℕ) (p : PbufChain) :
    dm9000SendPacket imr fuel p =
      performAll (request p) >>= fun _ => waitSent fuel >>= fun _ => performAll (finish imr) := by
  have hdata : ∀ f : Unit → Driver Unit,
      (sendSegments p.segments none >>= fun word => sendLast word >>= f) =
        performAll (p.words.map Access.putData) >>= f := fun f => by
    rw [← bind_assoc, sendSegments_bind]
    rfl
  unfold dm9000SendPacket request
  simp only [hdata, performAll_append, bind_assoc]
  rfl

theorem waitSent_succ (fuel : ℕ) :
    waitSent (fuel + 1) = setReg Reg.ISR >>= fun _ => getData >>= fun status =>
      if status &&& 0x02 = 0 then waitSent fuel else pure () := rfl

/-! ## The bus seen from outside -/

structure Bus where
  log : List Access
  reads : ℕ

/-- `reply n` answers the `n`-th read. -/
def bus (reply : ℕ → U16) : Device Access Access.Reply Bus
  | .getData, b => (reply b.reads, ⟨b.log ++ [.getData], b.reads + 1⟩)
  | .getReg, b => (reply b.reads, ⟨b.log ++ [.getReg], b.reads + 1⟩)
  | .setReg reg, b => ((), ⟨b.log ++ [.setReg reg], b.reads⟩)
  | .putData data, b => ((), ⟨b.log ++ [.putData data], b.reads⟩)
  | .pbufAlloc len, b => (none, ⟨b.log ++ [.pbufAlloc len], b.reads⟩)
  | .pbufFree p, b => ((), ⟨b.log ++ [.pbufFree p], b.reads⟩)

def Access.IsWrite : Access → Prop
  | setReg _ => True
  | putData _ => True
  | _ => False

theorem after_bus (reply : ℕ → U16) {ops : List Access} (h : ∀ op ∈ ops, op.IsWrite) (b : Bus) :
    after (bus reply) ops b = ⟨b.log ++ ops, b.reads⟩ := by
  induction ops generalizing b with
  | nil => rw [List.append_nil]; rfl
  | cons op ops ih =>
    have hop := h op (List.mem_cons_self ..)
    have hops := fun o ho => h o (List.mem_cons_of_mem op ho)
    cases op with
    | setReg reg => rw [after_cons, ih hops]; simp [bus]
    | putData data => rw [after_cons, ih hops]; simp [bus]
    | getReg => exact hop.elim
    | getData => exact hop.elim
    | pbufAlloc len => exact hop.elim
    | pbufFree p => exact hop.elim

theorem request_isWrite (p : PbufChain) : ∀ op ∈ request p, op.IsWrite := by
  intro op hop
  simp only [request, selectTx, setLength, startTx, List.mem_append, List.mem_cons, List.mem_map,
    List.not_mem_nil, or_false] at hop
  rcases hop with ((rfl | rfl | rfl) | ⟨w, -, rfl⟩ | rfl | rfl | rfl | rfl) | rfl | rfl <;> trivial

theorem finish_isWrite (imr : U8) : ∀ op ∈ finish imr, op.IsWrite := by
  intro op hop
  simp only [finish, List.mem_cons, List.not_mem_nil, or_false] at hop
  rcases hop with rfl | rfl | rfl | rfl <;> trivial

def poll : List Access := [.setReg Reg.ISR, .getData]

theorem run_waitSent_succ (reply : ℕ → U16) (fuel : ℕ) (b : Bus) :
    (waitSent (fuel + 1)).run (bus reply) b =
      (if reply b.reads &&& 0x02 = 0 then waitSent fuel else pure ()).run (bus reply)
        ⟨b.log ++ poll, b.reads + 1⟩ := by
  have hlog : b.log ++ [Access.setReg Reg.ISR] ++ [Access.getData] = b.log ++ poll :=
    List.append_assoc ..
  rw [waitSent_succ, run_setReg, run_getData, ← hlog]
  rfl

theorem run_waitSent {reply : ℕ → U16} {n : ℕ} {b : Bus} (h : reply (b.reads + n) &&& 0x02 ≠ 0) :
    ∃ polls, ∀ fuel, n < fuel → (waitSent fuel).run (bus reply) b =
      some ((), ⟨b.log ++ (List.replicate polls poll).flatten, b.reads + polls⟩) := by
  induction n generalizing b with
  | zero =>
    refine ⟨1, fun fuel hfuel => ?_⟩
    obtain ⟨fuel, rfl⟩ := Nat.exists_eq_add_one_of_ne_zero hfuel.ne'
    rw [Nat.add_zero] at h
    rw [run_waitSent_succ, if_neg h, run_pure]
    simp
  | succ n ih =>
    by_cases hb : reply b.reads &&& 0x02 = 0
    · obtain ⟨polls, hpolls⟩ := ih (b := ⟨b.log ++ poll, b.reads + 1⟩)
        (by rwa [Nat.add_right_comm])
      refine ⟨polls + 1, fun fuel hfuel => ?_⟩
      obtain ⟨fuel, rfl⟩ := Nat.exists_eq_add_one_of_ne_zero (Nat.ne_zero_of_lt hfuel)
      rw [run_waitSent_succ, if_pos hb, hpolls fuel (Nat.lt_of_succ_lt_succ hfuel),
        List.replicate_succ, List.flatten_cons, List.append_assoc, Nat.add_right_comm]
      rfl
    · refine ⟨1, fun fuel hfuel => ?_⟩
      obtain ⟨fuel, rfl⟩ := Nat.exists_eq_add_one_of_ne_zero (Nat.ne_zero_of_lt hfuel)
      rw [run_waitSent_succ, if_neg hb, run_pure]
      simp

/-- The values put on `DATA` while `reg` is selected; `sel` is the register selected before. -/
def writesTo (reg : U16) : Option U16 → List Access → List U16
  | _, [] => []
  | _, .setReg r :: log => writesTo reg (some r) log
  | sel, .putData data :: log =>
    if sel = some reg then data :: writesTo reg sel log else writesTo reg sel log
  | sel, _ :: log => writesTo reg sel log

theorem writesTo_putData (reg r : U16) (words : List U16) (log : List Access) :
    writesTo reg (some r) (words.map .putData ++ log) =
      (if r = reg then words else []) ++ writesTo reg (some r) log := by
  induction words with
  | nil => simp
  | cons w words ih =>
    simp only [List.map_cons, List.cons_append, writesTo, ih, Option.some.injEq]
    split_ifs <;> rfl

theorem writesTo_polls (reg r : U16) (sel : Option U16) (polls : ℕ) (log : List Access) :
    writesTo reg sel ((List.replicate polls poll).flatten ++ .setReg r :: log) =
      writesTo reg (some r) log := by
  induction polls generalizing sel with
  | zero => rfl
  | succ polls ih =>
    rw [List.replicate_succ, List.flatten_cons, List.append_assoc]
    exact ih (some Reg.ISR)

def trace (imr : U8) (p : PbufChain) (polls : ℕ) : List Access :=
  request p ++ (List.replicate polls poll).flatten ++ finish imr

theorem run_dm9000SendPacket {reply : ℕ → U16} (hdone : ∃ n, reply n &&& 0x02 ≠ 0) (imr : U8)
    (p : PbufChain) : ∃ lower polls, ∀ fuel, lower ≤ fuel →
      (dm9000SendPacket imr fuel p).run (bus reply) ⟨[], 0⟩ =
        some ((), ⟨trace imr p polls, polls⟩) := by
  obtain ⟨n, hn⟩ := hdone
  obtain ⟨polls, hpolls⟩ := run_waitSent (b := ⟨request p, 0⟩) (by rwa [Nat.zero_add])
  refine ⟨n + 1, polls, fun fuel hfuel => ?_⟩
  rw [dm9000SendPacket_eq, run_performAll_bind, after_bus reply (request_isWrite p),
    List.nil_append, run_bind_of (hpolls fuel hfuel), run_performAll,
    after_bus reply (finish_isWrite imr), Nat.zero_add, trace]

theorem writesTo_trace (imr : U8) (p : PbufChain) (polls : ℕ) (reg : U16) :
    writesTo reg none (trace imr p polls) =
      (if Reg.IMR = reg then [imrPar.setWidth 16] else []) ++
      (if Reg.MWCMD = reg then p.words else []) ++
      (if Reg.TXPLL = reg then [p.totLen &&& 0xFF] else []) ++
      (if Reg.TXPLH = reg then [p.totLen >>> 8 &&& 0xFF] else []) ++
      (if Reg.TCR = reg then [0x01] else []) ++
      (if Reg.ISR = reg then [0x02] else []) ++
      (if Reg.IMR = reg then [imr.setWidth 16] else []) := by
  have hput (r data : U16) (log : List Access) : writesTo reg (some r) (.putData data :: log) =
      (if r = reg then [data] else []) ++ writesTo reg (some r) log :=
    writesTo_putData reg r [data] log
  have hset (r : U16) (sel : Option U16) (log : List Access) :
      writesTo reg sel (.setReg r :: log) = writesTo reg (some r) log := rfl
  have hnil (sel : Option U16) : writesTo reg sel [] = [] := rfl
  simp only [trace, request, selectTx, setLength, startTx, finish, List.append_assoc, List.cons_append,
    List.nil_append, hset, hput, hnil, writesTo_putData, writesTo_polls, List.append_nil]

theorem ofBytes_totLen (p : PbufChain) :
    ofBytes (lowByte (p.totLen &&& 0xFF)) (lowByte (p.totLen >>> 8 &&& 0xFF)) = p.totLen := by
  rw [lowByte_and_mask, lowByte_and_mask]
  exact low_high_eq p.totLen

theorem dm9000SendPacket_faithful {reply : ℕ → U16} (hdone : ∃ n, reply n &&& 0x02 ≠ 0)
    (imr : U8) (p : PbufChain) :
    ∃ lower log polls, (∀ fuel, lower ≤ fuel →
        (dm9000SendPacket imr fuel p).run (bus reply) ⟨[], 0⟩ = some ((), ⟨log, polls⟩)) ∧
      log = trace imr p polls ∧
      writesTo Reg.MWCMD none log = p.words ∧
      p.words.length = (p.totLen.toNat + 1) / 2 ∧
      (∃ lo hi, writesTo Reg.TXPLL none log = [lo] ∧ writesTo Reg.TXPLH none log = [hi] ∧
        (unpack p.words).take (ofBytes (lowByte lo) (lowByte hi)).toNat = p.segments.flatten) ∧
      (writesTo Reg.IMR none log).getLast? = some (imr.setWidth 16) := by
  obtain ⟨lower, polls, hrun⟩ := run_dm9000SendPacket hdone imr p
  refine ⟨lower, trace imr p polls, polls, hrun, rfl, ?_, ?_, ⟨p.totLen &&& 0xFF,
    p.totLen >>> 8 &&& 0xFF, ?_, ?_, ?_⟩, ?_⟩
  · rw [writesTo_trace]
    simp
  · rw [PbufChain.words, length_pack, p.length_bytes]
  · rw [writesTo_trace]
    simp
  · rw [writesTo_trace]
    simp
  · rw [ofBytes_totLen, ← p.length_bytes]
    exact unpack_pack p.bytes
  · rw [writesTo_trace]
    simp

def sampleChain : PbufChain := ⟨[[1, 2, 3], [], [4, 5]], 5, by decide⟩

theorem dm9000SendPacket_faithful_sample : ∃ lower log polls, (∀ fuel, lower ≤ fuel →
    (dm9000SendPacket 0x81 fuel sampleChain).run (bus fun _ => 0x02) ⟨[], 0⟩ =
      some ((), ⟨log, polls⟩)) ∧ writesTo Reg.MWCMD none log = [0x0201, 0x0403, 0x0005] := by
  have hdone : ∃ n, (fun _ => 0x02 : ℕ → U16) n &&& 0x02 ≠ 0 := ⟨0, by decide⟩
  obtain ⟨lower, log, polls, hrun, -, hwords, -⟩ := dm9000SendPacket_faithful hdone 0x81 sampleChain
  exact ⟨lower, log, polls, hrun, hwords.trans (by decide)⟩

end EnvirMonitor.Ethernet
