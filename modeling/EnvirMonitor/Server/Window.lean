import EnvirMonitor.Server.TcpServer

/-! The server credits the receive window with the bytes of the messages it sends, so it credits
more than it was given as soon as a message goes out that data refused before does not cover. -/

namespace EnvirMonitor.Server
open Machine Lwip
open Client (Err hasFlag setFlag clearFlag)

/-! ## Totals of the log -/

namespace Event

def credits : Event → ℕ
  | .tcpRecved len => len
  | _ => 0

def delivers : Event → ℕ
  | .delivered len _ => len
  | _ => 0

/-- What is delivered with an error, which the server releases without crediting it. -/
def refuses : Event → ℕ
  | .delivered len err => if err = .ok then 0 else len
  | _ => 0

def takes : Event → ℕ
  | .tcpWrite _ len err => if err = .ok then len else 0
  | _ => 0

end Event

def total (f : Event → ℕ) (w : World) : ℕ := (w.log.map f).sum

/-- The condition of the window: no more is credited than was delivered. -/
def Credited (w : World) : Prop := total Event.credits w ≤ total Event.delivers w

def taken (h : Heap) : Option ℕ → List (ℕ × Err) → ℕ
  | none, _ => 0
  | some _, [] => 0
  | some p, (sndbuf, err) :: answers =>
    if (h.pbufs p).len ≤ sndbuf ∧ err = .ok then
      (h.pbufs p).len + taken h (h.pbufs p).next answers
    else 0

def messageTaken : List (ℕ × Err) → ℕ
  | [] => 0
  | (sndbuf, err) :: _ =>
    if tcpServerSendbuf.length ≤ sndbuf ∧ err = .ok then tcpServerSendbuf.length else 0

/-- Data that was refused covers what lwIP takes of messages, before the step and in it. -/
def Covered (w : World) : Input → Prop
  | .sent answers => total Event.takes w + taken w.heap w.es.p answers ≤ total Event.refuses w
  | .poll alloc answers => alloc = true → hasFlag w.tcpServerFlag senddataFlag = true →
      total Event.takes w + messageTaken answers ≤ total Event.refuses w
  | _ => True

instance (w : World) : (i : Input) → Decidable (Covered w i)
  | .sent _ => inferInstanceAs (Decidable (_ ≤ _))
  | .poll _ _ => inferInstanceAs (Decidable (_ → _))
  | .recv _ _ | .fin _ | .err | .request | .reuse _ _ => isTrue trivial

/-- A count of the log to which a byte that lwIP takes contributes `k`. -/
structure Counts (f : Event → ℕ) (k : ℕ) : Prop where
  obtained : ∀ p, f (.obtained p) = 0
  pbufRef : ∀ p, f (.pbufRef p) = 0
  pbufFree : ∀ p, f (.pbufFree p) = 0
  dealloc : ∀ p, f (.dealloc p) = 0
  written : ∀ p len, f (.tcpWrite p len .ok) + f (.tcpRecved len) = k * len
  failed : ∀ p len err, err ≠ .ok → f (.tcpWrite p len err) = 0

theorem counts_credits : Counts Event.credits 1 := by
  refine ⟨fun _ => rfl, fun _ => rfl, fun _ => rfl, fun _ => rfl, fun p len => ?_, fun _ _ _ _ => rfl⟩
  simp [Event.credits]

theorem counts_delivers : Counts Event.delivers 0 := by
  refine ⟨fun _ => rfl, fun _ => rfl, fun _ => rfl, fun _ => rfl, fun p len => ?_, fun _ _ _ _ => rfl⟩
  simp [Event.delivers]

theorem counts_refuses : Counts Event.refuses 0 := by
  refine ⟨fun _ => rfl, fun _ => rfl, fun _ => rfl, fun _ => rfl, fun p len => ?_, fun _ _ _ _ => rfl⟩
  simp [Event.refuses]

theorem counts_takes : Counts Event.takes 1 := by
  refine ⟨fun _ => rfl, fun _ => rfl, fun _ => rfl, fun _ => rfl, fun p len => ?_,
    fun _ _ _ herr => if_neg herr⟩
  simp [Event.takes]

section
variable {f : Event → ℕ} {k : ℕ}

theorem total_emit (w : World) (e : Event) : total f (w.emit e) = f e + total f w := rfl

theorem total_free (hf : Counts f k) (w : World) (p : ℕ) : total f (w.free p) = total f w := by
  have hdealloc (freed : List ℕ) : ((freed.map Event.dealloc).map f).sum = 0 := by
    induction freed with
    | nil => rfl
    | cons j freed ih => rw [List.map_cons, List.map_cons, List.sum_cons, ih, hf.dealloc]
  rw [total, free_log, released, List.map_append, List.sum_append, hdealloc, List.map_cons,
    List.sum_cons, hf.pbufFree, Nat.zero_add, Nat.zero_add, total]

theorem taken_congr {h h' : Heap} (hnext : ∀ i, (h'.pbufs i).next = (h.pbufs i).next)
    (hpayload : ∀ i, (h'.pbufs i).payload = (h.pbufs i).payload) (p : Option ℕ)
    (answers : List (ℕ × Err)) : taken h' p answers = taken h p answers := by
  induction answers generalizing p with
  | nil => cases p <;> rfl
  | cons a answers ih =>
    cases p with
    | none => rfl
    | some p => rw [taken, taken, Pbuf.len, Pbuf.len, hnext, hpayload, ih]

theorem nextSegment_spec (hf : Counts f k) (w : World) (p : ℕ) :
    total f (w.nextSegment p) = total f w ∧
      (w.nextSegment p).es.p = (w.heap.pbufs p).next ∧
      (∀ i, ((w.nextSegment p).heap.pbufs i).next = (w.heap.pbufs i).next) ∧
      ∀ i, ((w.nextSegment p).heap.pbufs i).payload = (w.heap.pbufs i).payload := by
  rw [World.nextSegment]
  cases hnext : (w.heap.pbufs p).next with
  | none => exact ⟨rfl, rfl, fun _ => rfl, fun _ => rfl⟩
  | some q =>
    refine ⟨?_, rfl, fun i => Heap.setRef_next _ q _ i, fun i => Heap.setRef_payload _ q _ i⟩
    simp only [World.ref, total_emit, hf.pbufRef, Nat.zero_add]
    rfl

theorem taken_nextSegment (hf : Counts f k) (w : World) (p : ℕ) (answers : List (ℕ × Err)) :
    taken ((w.nextSegment p).free p).heap ((w.nextSegment p).free p).es.p answers =
      taken w.heap (w.heap.pbufs p).next answers := by
  obtain ⟨-, hes, hnext, hpayload⟩ := nextSegment_spec hf w p
  have hfree := frees_pbufFree (w.nextSegment p).heap p
  rw [free_es, hes, free_heap]
  refine taken_congr (fun i => ?_) (fun i => ?_) _ answers
  · rw [hfree.next, hnext]
  · rw [hfree.payload, hpayload]

theorem total_senddata (hf : Counts f k) (w : World) (answers : List (ℕ × Err)) :
    total f (tcpServerSenddata w answers) = total f w + k * taken w.heap w.es.p answers := by
  induction answers generalizing w with
  | nil =>
    cases hp : w.es.p with
    | none =>
      rw [senddata_null hp]
      rfl
    | some p =>
      rw [tcpServerSenddata, hp]
      rfl
  | cons a answers ih =>
    obtain ⟨sndbuf, wrErr⟩ := a
    cases hp : w.es.p with
    | none =>
      rw [senddata_null hp]
      rfl
    | some p =>
      rw [tcpServerSenddata, hp, taken]
      dsimp only
      generalize hlen : (w.heap.pbufs p).len = len
      by_cases hfits : len ≤ sndbuf
      · by_cases hok : wrErr = .ok
        · subst hok
          rw [if_pos hfits, if_pos rfl, if_pos ⟨hfits, rfl⟩]
          -- the next segment is referenced before this one is freed
          have htotal := (nextSegment_spec hf (w.emit (.tcpWrite p len .ok)) p).1
          have hrest := taken_nextSegment hf (w.emit (.tcpWrite p len .ok)) p answers
          generalize (w.emit (.tcpWrite p len .ok)).nextSegment p = w₁ at htotal hrest
          have hcredit : taken ((w₁.free p).emit (.tcpRecved len)).heap
              ((w₁.free p).emit (.tcpRecved len)).es.p answers =
                taken w.heap (w.heap.pbufs p).next answers := hrest
          rw [ih, tcpRecved, hcredit, total_emit, total_free hf, htotal, total_emit, Nat.mul_add]
          have hwritten := hf.written p len
          omega
        · have hkept : total f (if wrErr = .mem then (w.emit (.tcpWrite p len wrErr)).setP (some p)
              else w.emit (.tcpWrite p len wrErr)) = total f (w.emit (.tcpWrite p len wrErr)) := by
            split_ifs <;> rfl
          have hnone : ¬ (len ≤ sndbuf ∧ wrErr = .ok) := fun h => hok h.2
          rw [if_pos hfits, if_neg hok, hkept, if_neg hnone, total_emit, hf.failed p len wrErr hok,
            Nat.mul_zero, Nat.zero_add, Nat.add_zero]
      · rw [if_neg hfits, if_neg fun h => hfits h.1, Nat.mul_zero, Nat.add_zero]

/-! ## Callbacks -/

theorem total_deliver (hf : Counts f k) (w : World) (d : Delivery) (err : Err) :
    total f (deliver w d err) = f (.delivered (segmentsLen d.segments) err) + total f w := by
  rw [deliver, total_emit, total_emit, hf.obtained, Nat.zero_add]
  rfl

theorem totLen_deliver (w : World) (d : Delivery) (err : Err) :
    ((deliver w d err).heap.pbufs w.heap.fresh).totLen = segmentsLen d.segments :=
  congrArg Pbuf.totLen (handOver_head w.heap d.head d.rest)

/-- A delivery is counted, and then refused, credited in full, or kept in an endless loop. -/
theorem recv_cases (w : World) (d : Delivery) (err : Err) :
    (err ≠ .ok ∧ ∀ f k, Counts f k →
      total f (react w (.recv d err)) = f (.delivered (segmentsLen d.segments) err) + total f w) ∨
    (err = .ok ∧ ∀ f k, Counts f k → total f (react w (.recv d err)) =
      f (.tcpRecved (segmentsLen d.segments)) +
        (f (.delivered (segmentsLen d.segments) err) + total f w)) ∨
    (err = .ok ∧ (react w (.recv d err)).phase = .stuck ∧ ∀ f k, Counts f k →
      total f (react w (.recv d err)) = f (.delivered (segmentsLen d.segments) err) + total f w) := by
  have hdeliver (f : Event → ℕ) (k : ℕ) (hf : Counts f k) := total_deliver hf w d err
  have hlen := totLen_deliver w d err
  simp only [react, tcpRecvServer]
  generalize deliver w d err = w₁ at hdeliver hlen
  by_cases herr : err = .ok
  · rw [if_neg (not_not.mpr herr)]
    by_cases hstate : w₁.es.state = .accepted
    · rw [if_pos hstate]
      cases hends : (copyRevdata w₁.heap w.heap.fresh copyTurns (some w.heap.fresh) 0
          (List.replicate tcpServerRxBufsize 0)).2 with
      | true =>
        refine Or.inr (Or.inl ⟨herr, fun f k hf => ?_⟩)
        rw [if_pos rfl, total_free hf, tcpRecved, total_emit, hlen, ← hdeliver f k hf]
        rfl
      | false =>
        refine Or.inr (Or.inr ⟨herr, rfl, fun f k hf => ?_⟩)
        rw [if_neg Bool.false_ne_true]
        exact hdeliver f k hf
    · refine Or.inr (Or.inl ⟨herr, fun f k hf => ?_⟩)
      rw [if_neg hstate, total_free hf, hlen, ← hdeliver f k hf]
      rfl
  · refine Or.inl ⟨herr, fun f k hf => ?_⟩
    rw [if_pos herr, total_free hf]
    exact hdeliver f k hf

theorem taken_message (w : World) (answers : List (ℕ × Err)) :
    taken (newMessage w).heap (some w.heap.fresh) answers = messageTaken answers := by
  obtain ⟨hnext, hlen⟩ := newMessage_pbuf w
  cases answers with
  | nil => rfl
  | cons a answers =>
    rw [taken, messageTaken, hlen, hnext]
    cases answers <;> rfl

theorem total_messageSent (hf : Counts f k) (w : World) : total f (messageSent w) = total f w := by
  rw [messageSent]
  split_ifs with hbusy
  · rfl
  · cases hp : w.es.p with
    | none =>
      simp only [hp]
      rfl
    | some p =>
      simp only [hp]
      exact total_free hf _ p

theorem total_poll (hf : Counts f k) {w : World} {alloc : Bool} (halloc : alloc = true)
    (hflag : hasFlag w.tcpServerFlag senddataFlag = true) (answers : List (ℕ × Err)) :
    total f (react w (.poll alloc answers)) = total f w + k * messageTaken answers := by
  have hes : (newMessage w).es.p = some w.heap.fresh := rfl
  have hnew : total f (newMessage w) = total f w := by
    have hemit := total_emit (f := f) w (.obtained w.heap.fresh)
    rw [hf.obtained, Nat.zero_add] at hemit
    exact hemit
  rw [react, tcpPollServer, if_pos hflag, if_pos halloc, total_messageSent hf, total_senddata hf,
    hes, taken_message, hnew]

end

/-! ## The balance -/

/-- What was credited and refused is what was delivered and taken, unless data is kept. -/
structure Balanced (w : World) : Prop where
  even : w.phase ≠ .stuck → total Event.credits w + total Event.refuses w =
    total Event.delivers w + total Event.takes w
  bound : total Event.credits w + total Event.refuses w ≤
    total Event.delivers w + total Event.takes w
  covered : total Event.takes w ≤ total Event.refuses w

theorem Balanced.credited {w : World} (h : Balanced w) : Credited w := by
  have hbound := h.bound
  have hcovered := h.covered
  rw [Credited]
  omega

theorem balanced_same {w w' : World} (h : Balanced w) (hreg : w.phase = .registered)
    (hlog : w'.log = w.log) : Balanced w' := by
  have htotal (f : Event → ℕ) : total f w' = total f w := by rw [total, hlog, total]
  have heven := h.even (by rw [hreg]; decide)
  refine ⟨fun _ => ?_, ?_, ?_⟩
  · rw [htotal, htotal, htotal, htotal]
    exact heven
  · rw [htotal, htotal, htotal, htotal]
    exact h.bound
  · rw [htotal, htotal]
    exact h.covered

/-- Every byte that lwIP takes is credited, so the step is right exactly if it is covered. -/
theorem balanced_taken {w w' : World} {n : ℕ} (h : Balanced w) (hreg : w.phase = .registered)
    (htotal : ∀ f k, Counts f k → total f w' = total f w + k * n) :
    (total Event.takes w + n ≤ total Event.refuses w → Balanced w') ∧
      (¬ total Event.takes w + n ≤ total Event.refuses w → ¬ Credited w') := by
  have heven := h.even (by rw [hreg]; decide)
  have hcredits := htotal _ _ counts_credits
  have hdelivers := htotal _ _ counts_delivers
  have hrefuses := htotal _ _ counts_refuses
  have htakes := htotal _ _ counts_takes
  refine ⟨fun hn => ⟨fun _ => ?_, ?_, ?_⟩, fun hn hcredited => hn ?_⟩
  · omega
  · omega
  · omega
  · rw [Credited] at hcredited
    omega

theorem balanced_recv {w : World} (h : Balanced w) (hreg : w.phase = .registered) (d : Delivery)
    (err : Err) : Balanced (react w (.recv d err)) := by
  have heven := h.even (by rw [hreg]; decide)
  have hcovered := h.covered
  rcases recv_cases w d err with ⟨herr, htotal⟩ | ⟨rfl, htotal⟩ | ⟨rfl, hphase, htotal⟩
  all_goals
    have hcredits := htotal _ _ counts_credits
    have hdelivers := htotal _ _ counts_delivers
    have hrefuses := htotal _ _ counts_refuses
    have htakes := htotal _ _ counts_takes
    simp only [Event.credits, Event.delivers, Event.refuses, Event.takes, if_true]
      at hcredits hdelivers hrefuses htakes
  · rw [if_neg herr] at hrefuses
    exact ⟨fun _ => by omega, by omega, by omega⟩
  · exact ⟨fun _ => by omega, by omega, by omega⟩
  · exact ⟨fun hrun => absurd hphase hrun, by omega, by omega⟩

/-! ## Runs -/

theorem total_sent {f : Event → ℕ} {k : ℕ} (hf : Counts f k) (w : World)
    (answers : List (ℕ × Err)) :
    total f (react w (.sent answers)) = total f w + k * taken w.heap w.es.p answers := by
  have hsent : tcpSentServer w answers = tcpServerSenddata w answers := by
    rw [tcpSentServer]
    cases hp : w.es.p with
    | none => exact (senddata_null hp answers).symm
    | some p => rfl
  rw [react, hsent, total_senddata hf]

theorem poll_quiet {w : World} {alloc : Bool} {answers : List (ℕ × Err)}
    (hquiet : ¬ (alloc = true ∧ hasFlag w.tcpServerFlag senddataFlag = true)) :
    (react w (.poll alloc answers)).log = w.log := by
  rw [react, tcpPollServer]
  split_ifs with hflag halloc
  · exact absurd ⟨halloc, hflag⟩ hquiet
  · rfl
  · rfl
  · rfl

theorem step_balanced {w w' : World} {i : Input} (h : Balanced w) (hcovered : Covered w i)
    (hs : step w i = some w') : Balanced w' := by
  obtain ⟨hen, rfl⟩ := step_eq_some hs
  have hreg := registered_of_enabled hen
  cases i with
  | recv d err => exact balanced_recv h hreg d err
  | sent answers => exact (balanced_taken h hreg fun f k hf => total_sent hf w answers).1 hcovered
  | poll alloc answers =>
    by_cases hsend : alloc = true ∧ hasFlag w.tcpServerFlag senddataFlag = true
    · exact (balanced_taken h hreg fun f k hf => total_poll hf hsend.1 hsend.2 answers).1
        (hcovered hsend.1 hsend.2)
    · exact balanced_same h hreg (poll_quiet hsend)
  | fin err | err | request | reuse i pbuf => exact balanced_same h hreg rfl

theorem step_overdrawn {w w' : World} {i : Input} (h : Balanced w) (hcovered : ¬ Covered w i)
    (hs : step w i = some w') : ¬ Credited w' := by
  obtain ⟨hen, rfl⟩ := step_eq_some hs
  have hreg := registered_of_enabled hen
  cases i with
  | sent answers => exact (balanced_taken h hreg fun f k hf => total_sent hf w answers).2 hcovered
  | poll alloc answers =>
    obtain ⟨halloc, hcovered⟩ := Classical.not_imp.mp hcovered
    obtain ⟨hflag, hcovered⟩ := Classical.not_imp.mp hcovered
    exact (balanced_taken h hreg fun f k hf => total_poll hf halloc hflag answers).2 hcovered
  | recv d err | fin err | err | request | reuse i pbuf => exact absurd trivial hcovered

theorem balanced_accepted (flag : U8) (revdata : List U8) : Balanced (accepted flag revdata) :=
  ⟨fun _ => rfl, le_rfl, le_rfl⟩

/-- In a run of the callbacks of an accepted connection no more is credited than was delivered,
exactly if what lwIP takes of the messages is covered by what was refused. -/
theorem credited_iff_covered {flag : U8} {revdata : List U8} {run : List Input} {w : World}
    (hrun : exec step (accepted flag revdata) run = some w) :
    Along step Credited (accepted flag revdata) run ↔
      Guarded step Covered (accepted flag revdata) run :=
  along_iff_guarded (fun _ h => h.credited) (fun _ _ _ => step_balanced)
    (fun _ _ _ => step_overdrawn) (balanced_accepted flag revdata) hrun

def thirtyBytes : Delivery := ⟨.unshared (List.replicate 30 0x31), [], by decide⟩

/-- Data with this status, and a message that is sent. -/
def creditRun (err : Err) : List Input :=
  [.recv thirtyBytes err, .request, .poll true [(5840, .ok)]]

theorem credited_iff_covered_sample : ∃ w, exec step (accepted 0 (List.replicate 100 0))
    (creditRun .mem) = some w ∧
      Along step Credited (accepted 0 (List.replicate 100 0)) (creditRun .mem) :=
  ⟨_, rfl, (credited_iff_covered rfl).mpr (by decide)⟩

/-- The data is credited when it arrives, and the message after that. -/
theorem message_credited : ∃ w, exec step (accepted 0 (List.replicate 100 0))
    (creditRun .ok) = some w ∧ total Event.delivers w = 30 ∧ total Event.credits w = 53 ∧
      ¬ Credited w :=
  ⟨_, rfl, rfl, rfl, Nat.not_le.mpr (by decide)⟩

end EnvirMonitor.Server
