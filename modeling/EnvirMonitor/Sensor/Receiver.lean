import EnvirMonitor.Machine.Words
import EnvirMonitor.Machine.BlockDecoder

/-! The MH-Z14 receiver: `USART3_IRQHandler` collects one byte per interrupt, and
its runs are compared with the decoder of the whole byte stream. -/

namespace EnvirMonitor.Sensor
open Machine Machine.BlockFormat

/-- The handler's static counter and the globals it writes; `assigned` records the
values stored into `Envir_collectedVlaue.CO2`, the latest last. -/
structure Receiver where
  revcnt : ℕ
  recvMeasureData : ℕ → U8
  co2 : ℕ
  co2DataReady : Bool
  assigned : List ℕ

/-- `MHZ14_RecvMeasureData[revcnt++]` stores at the counter's old value. -/
def storeIndex (s : Receiver) : ℕ := s.revcnt

def store (s : Receiver) (received : U8) : Receiver :=
  { s with
    recvMeasureData := Function.update s.recvMeasureData (storeIndex s) received
    revcnt := (s.revcnt + 1) % 256 }

/-- `if(revcnt == 2)`: a pair that is no header is dropped and the buffer cleared. -/
def checkHeader (s : Receiver) : Receiver :=
  if s.revcnt = 2 then
    if s.recvMeasureData 0 ≠ 0xFF ∨ s.recvMeasureData 1 ≠ 0x86 then
      { s with
        revcnt := 0
        recvMeasureData := fun i => if i < 9 then 0 else s.recvMeasureData i }
    else s
  else s

def checksum (data : ℕ → U8) : U8 :=
  ~~~((List.range' 1 7).foldl (fun sum i => sum + data i) 0) + 1

/-- `if(revcnt == 9)`: a measurement is complete. -/
def finish (s : Receiver) : Receiver :=
  if s.revcnt = 9 then
    if checksum s.recvMeasureData = s.recvMeasureData 8 then
      let value := (s.recvMeasureData 2).toNat * 256 + (s.recvMeasureData 3).toNat
      { s with revcnt := 0, co2 := value, co2DataReady := true, assigned := s.assigned ++ [value] }
    else { s with revcnt := 0 }
  else s

def receiveByte (s : Receiver) (received : U8) : Receiver :=
  finish (checkHeader (store s received))

/-- `rxne` is the received byte when the RXNE flag is set. -/
def usart3IRQHandler (s : Receiver) (rxne : Option U8) : Receiver :=
  match rxne with
  | none => s
  | some received => receiveByte s received

def boot : Receiver := ⟨0, fun _ => 0, 0, false, []⟩

def run (s : Receiver) (bytes : List U8) : Receiver :=
  bytes.foldl (fun s b => usart3IRQHandler s (some b)) s

@[simp] theorem run_nil (s : Receiver) : run s [] = s := rfl

@[simp] theorem run_cons (s : Receiver) (b : U8) (bytes : List U8) :
    run s (b :: bytes) = run (receiveByte s b) bytes := rfl

theorem run_append (s : Receiver) (xs ys : List U8) :
    run s (xs ++ ys) = run (run s xs) ys := List.foldl_append

/-- The sensor's reply as a block format: nine bytes after `0xFF 0x86`, accepted when
bytes 1 to 8 sum to 0 modulo 256. -/
def mhz14 : BlockFormat U8 ℕ where
  isHeader a b := a = 0xFF && b = 0x86
  body := 7
  emit block :=
    if ((block.drop 1).map BitVec.toNat).sum % 256 = 0 then
      some ((block.getD 2 0).toNat * 256 + (block.getD 3 0).toNat)
    else none

@[simp] theorem mhz14_body : mhz14.body = 7 := rfl

theorem isHeader_iff (a b : U8) : mhz14.isHeader a b = true ↔ a = 0xFF ∧ b = 0x86 := by
  simp [mhz14]

theorem isHeader_false_iff (a b : U8) : mhz14.isHeader a b = false ↔ a ≠ 0xFF ∨ b ≠ 0x86 := by
  rw [Bool.eq_false_iff, Ne, isHeader_iff, not_and_or]

structure Emits (s s' : Receiver) (vs : List ℕ) : Prop where
  assigned : s'.assigned = s.assigned ++ vs
  co2 : s'.co2 = vs.getLastD s.co2
  ready : s'.co2DataReady = (s.co2DataReady || !vs.isEmpty)

theorem Emits.refl (s : Receiver) : Emits s s [] := ⟨by simp, rfl, by simp⟩

theorem Emits.trans {s s' s'' : Receiver} {vs ws : List ℕ} (h : Emits s s' vs)
    (h' : Emits s' s'' ws) : Emits s s'' (vs ++ ws) := by
  refine ⟨by rw [h'.assigned, h.assigned, List.append_assoc], ?_, ?_⟩
  · rw [h'.co2, h.co2]
    cases ws using List.reverseRecOn <;> simp
  · rw [h'.ready, h.ready]
    cases vs <;> cases ws <;> simp

/-- The bytes received since the counter was last 0 are `p`, and they are in the buffer. -/
structure Filled (s : Receiver) (p : List U8) : Prop where
  count : s.revcnt = p.length
  data : ∀ (i : ℕ) (h : i < p.length), s.recvMeasureData i = p[i]

theorem filled_nil {s : Receiver} (h : s.revcnt = 0) : Filled s [] :=
  ⟨h, fun i hi => absurd hi (Nat.not_lt_zero i)⟩

theorem store_filled {s : Receiver} {p : List U8} (h : Filled s p) (hlen : p.length ≤ 8) (b : U8) :
    Filled (store s b) (p ++ [b]) := by
  constructor
  · simp only [store, h.count, List.length_append, List.length_singleton]
    omega
  · intro i hi
    simp only [store, storeIndex, h.count]
    by_cases hlt : i < p.length
    · rw [Function.update_of_ne (by omega), List.getElem_append_left hlt, h.data i hlt]
    · have : i = p.length := by
        simp only [List.length_append, List.length_singleton] at hi
        omega
      subst this
      simp

theorem checkHeader_of_ne {s : Receiver} (h : s.revcnt ≠ 2) : checkHeader s = s := if_neg h

theorem finish_of_ne {s : Receiver} (h : s.revcnt ≠ 9) : finish s = s := if_neg h

theorem checkHeader_pair {s : Receiver} {a b : U8} (h : Filled s [a, b]) :
    checkHeader s = if mhz14.isHeader a b = true then s else
      { s with
        revcnt := 0
        recvMeasureData := fun i => if i < 9 then 0 else s.recvMeasureData i } := by
  have h0 : s.recvMeasureData 0 = a := h.data 0 (by simp)
  have h1 : s.recvMeasureData 1 = b := h.data 1 (by simp)
  have h2 : s.revcnt = 2 := h.count
  unfold checkHeader
  rw [if_pos h2, h0, h1]
  by_cases hhead : mhz14.isHeader a b = true
  · rw [if_pos hhead, if_neg]
    rw [isHeader_iff] at hhead
    simp [hhead]
  · rw [if_neg hhead, if_pos]
    rwa [Bool.not_eq_true, isHeader_false_iff] at hhead

theorem checksum_iff {s : Receiver} {a b : U8} {body : List U8} (h : Filled s (a :: b :: body))
    (hbody : body.length = 7) :
    checksum s.recvMeasureData = s.recvMeasureData 8 ↔
      (((a :: b :: body).drop 1).map BitVec.toNat).sum % 256 = 0 := by
  obtain ⟨d2, d3, d4, d5, d6, d7, c, rfl⟩ :
      ∃ d2 d3 d4 d5 d6 d7 c, body = [d2, d3, d4, d5, d6, d7, c] := by
    match body, hbody with
    | [d2, d3, d4, d5, d6, d7, c], _ => exact ⟨d2, d3, d4, d5, d6, d7, c, rfl⟩
  have e (i : ℕ) (hi : i < 9) := h.data i hi
  have hsum : (List.range' 1 7).foldl (fun sum i => sum + s.recvMeasureData i) 0 +
      s.recvMeasureData 8 = ((a :: b :: [d2, d3, d4, d5, d6, d7, c]).drop 1).sum := by
    simp only [List.range', List.foldl_cons, List.foldl_nil, List.drop_succ_cons, List.drop_zero,
      List.sum_cons, List.sum_nil, Nat.reduceAdd, e 1 (by decide), e 2 (by decide),
      e 3 (by decide), e 4 (by decide), e 5 (by decide), e 6 (by decide), e 7 (by decide),
      e 8 (by decide), List.getElem_cons_succ, List.getElem_cons_zero]
    ring
  rw [checksum, show (1 : U8) = 1#8 from rfl, not_add_one_eq_iff, hsum, sum_eq_zero_iff]
  exact Iff.rfl

theorem finish_block {s : Receiver} {a b : U8} {body : List U8} (h : Filled s (a :: b :: body))
    (hbody : body.length = 7) :
    (finish s).revcnt = 0 ∧ Emits s (finish s) (mhz14.emit (a :: b :: body)).toList := by
  have h9 : s.revcnt = 9 := by simpa [hbody] using h.count
  have hsum := checksum_iff h hbody
  have h2 : s.recvMeasureData 2 = (a :: b :: body).getD 2 0 := by
    rw [h.data 2 (by simp [hbody]), List.getElem_eq_getD]
  have h3 : s.recvMeasureData 3 = (a :: b :: body).getD 3 0 := by
    rw [h.data 3 (by simp [hbody]), List.getElem_eq_getD]
  unfold finish
  rw [if_pos h9]
  by_cases hok : checksum s.recvMeasureData = s.recvMeasureData 8
  · rw [if_pos hok, h2, h3]
    refine ⟨rfl, ?_⟩
    simp only [mhz14, if_pos (hsum.mp hok), Option.toList_some]
    exact ⟨rfl, rfl, by simp⟩
  · rw [if_neg hok]
    refine ⟨rfl, ?_⟩
    simp only [mhz14, if_neg (mt hsum.mpr hok), Option.toList_none]
    exact ⟨by simp, rfl, by simp⟩

/-- The receiver waits for the rest of a block that opens with `p`. -/
structure Pending (s : Receiver) (p : List U8) : Prop extends Filled s p where
  waiting : mhz14.residual p = p

theorem pending_nil {s : Receiver} (h : s.revcnt = 0) : Pending s [] :=
  ⟨filled_nil h, residual_nil mhz14⟩

theorem Pending.length_le {s : Receiver} {p : List U8} (h : Pending s p) : p.length ≤ 8 := by
  rcases residual_shape (F := mhz14) p with hp | ⟨a, hp⟩ | ⟨a, b, rest, hp, -, hlen⟩ <;>
    rw [h.waiting] at hp <;> subst hp
  · simp
  · simp
  · simp only [List.length_cons]
    rw [mhz14_body] at hlen
    omega

theorem receiveByte_pending {s : Receiver} {p : List U8} (h : Pending s p) (b : U8) :
    Pending (receiveByte s b) (mhz14.residual (p ++ [b])) ∧
      Emits s (receiveByte s b) (mhz14.decode (p ++ [b])) := by
  have hfill := store_filled h.toFilled h.length_le b
  have hcount := hfill.count
  have hstore : Emits s (store s b) [] := ⟨by simp [store], rfl, by simp [store]⟩
  unfold receiveByte
  rcases residual_shape (F := mhz14) p with hp | ⟨x, hp⟩ | ⟨x, y, rest, hp, hhead, hlen⟩ <;>
    rw [h.waiting] at hp <;> subst hp
  · -- the first byte of a pair is only stored
    have h1 : (store s b).revcnt = 1 := hcount
    rw [checkHeader_of_ne (by omega), finish_of_ne (by omega)]
    simp only [List.nil_append, residual_single, decode_single]
    exact ⟨⟨hfill, residual_single mhz14 b⟩, hstore⟩
  · -- the second byte of a pair decides whether the pair is kept
    have h2 : (store s b).revcnt = 2 := hcount
    rw [checkHeader_pair hfill, List.singleton_append]
    by_cases hhead : mhz14.isHeader x b = true
    · rw [if_pos hhead, finish_of_ne (by omega), residual_short hhead (by simp),
        decode_short hhead (by simp)]
      exact ⟨⟨hfill, residual_short hhead (by simp)⟩, hstore⟩
    · have hdrop : mhz14.isHeader x b = false := by simpa using hhead
      rw [if_neg hhead, finish_of_ne (by simp), residual_skip hdrop, decode_skip hdrop,
        residual_nil, decode_nil]
      exact ⟨pending_nil rfl, hstore.assigned, hstore.co2, hstore.ready⟩
  · -- a byte of the body is stored, and the ninth byte closes the block
    have hcnt : (store s b).revcnt = rest.length + 3 := by simpa using hcount
    rw [mhz14_body] at hlen
    rw [checkHeader_of_ne (by omega), List.cons_append, List.cons_append]
    by_cases hlast : rest.length = 6
    · have hseven : (rest ++ [b]).length = 7 := by simp [hlast]
      have hblock : mhz14.body ≤ (rest ++ [b]).length := hseven.ge
      rw [residual_block hhead hblock, decode_block hhead hblock, mhz14_body,
        List.take_of_length_le hseven.le, List.drop_of_length_le hseven.le, residual_nil,
        decode_nil, List.append_nil]
      obtain ⟨hzero, hemit⟩ := finish_block hfill hseven
      exact ⟨pending_nil hzero, by simpa using hstore.trans hemit⟩
    · have hshort : (rest ++ [b]).length < mhz14.body := by
        rw [List.length_append, List.length_singleton, mhz14_body]
        omega
      rw [finish_of_ne (by omega), residual_short hhead hshort, decode_short hhead hshort]
      exact ⟨⟨hfill, residual_short hhead hshort⟩, hstore⟩

/-- Whole runs: the receiver holds what the decoder leaves over and has emitted what it decodes. -/
theorem run_pending {s : Receiver} {p : List U8} (h : Pending s p) (bytes : List U8) :
    Pending (run s bytes) (mhz14.residual (p ++ bytes)) ∧
      Emits s (run s bytes) (mhz14.decode (p ++ bytes)) := by
  induction bytes generalizing s p with
  | nil =>
    have hnil : mhz14.decode p = [] := by
      rcases residual_shape (F := mhz14) p with hp | ⟨x, hp⟩ | ⟨x, y, rest, hp, hhead, hlen⟩ <;>
        rw [h.waiting] at hp <;> subst hp
      · exact decode_nil mhz14
      · exact decode_single mhz14 x
      · exact decode_short hhead hlen
    rw [List.append_nil, h.waiting, hnil]
    exact ⟨h, Emits.refl s⟩
  | cons b bytes ih =>
    obtain ⟨hpend, hemit⟩ := receiveByte_pending h b
    obtain ⟨hpend', hemit'⟩ := ih hpend
    rw [List.append_cons, residual_append, decode_append]
    exact ⟨hpend', hemit.trans hemit'⟩

theorem boot_pending : Pending boot [] := pending_nil rfl

/-- The handler refines the decoder on every stream: the counter and every store stay in
the nine-byte buffer, CO2 gets exactly the decoded values, and each of them is the value of
nine contiguous bytes of the stream that open with `0xFF 0x86` and have a correct checksum. -/
theorem usart3_refines_decode (bytes : List U8) :
    (∀ sent, sent <+: bytes → (run boot sent).revcnt ≤ 8 ∧ storeIndex (run boot sent) < 9) ∧
      Emits boot (run boot bytes) (mhz14.decode bytes) ∧
      ∀ v ∈ (run boot bytes).assigned, ∃ pre d2 d3 tail post,
        bytes = pre ++ (0xFF :: 0x86 :: d2 :: d3 :: tail) ++ post ∧ tail.length = 5 ∧
          ((0x86 :: d2 :: d3 :: tail).map BitVec.toNat).sum % 256 = 0 ∧
          v = d2.toNat * 256 + d3.toNat := by
  refine ⟨fun sent _ => ?_, (run_pending boot_pending bytes).2, fun v hv => ?_⟩
  · have hpend := (run_pending boot_pending sent).1
    have hle := hpend.length_le
    rw [← hpend.count] at hle
    exact ⟨hle, Nat.lt_succ_of_le hle⟩
  · have hemit := (run_pending boot_pending bytes).2
    rw [hemit.assigned] at hv
    obtain ⟨pre, a, b, body, post, heq, hbody, hhead, hval⟩ := mem_decode hv
    obtain ⟨rfl, rfl⟩ := (isHeader_iff a b).mp hhead
    match body, hbody with
    | d2 :: d3 :: tail, hbody =>
      by_cases hsum : (((0xFF :: 0x86 :: d2 :: d3 :: tail : List U8).drop 1).map
          BitVec.toNat).sum % 256 = 0
      · simp only [mhz14, if_pos hsum, Option.some.injEq] at hval
        exact ⟨pre, d2, d3, tail, post, heq, by simpa using hbody, hsum, hval.symm⟩
      · simp only [mhz14, if_neg hsum, reduceCtorEq] at hval

end EnvirMonitor.Sensor
