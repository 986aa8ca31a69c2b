import EnvirMonitor.Client.Upload
import EnvirMonitor.Server.TcpServer

/-! The send loops of client and server: what they leave of a chain that is sent in part. -/

namespace EnvirMonitor.Server
open Machine Lwip
open Client (Err)

def Event.accepted : Event → Option ℕ
  | tcpWrite p _ err => if err = .ok then some p else none
  | _ => none

def Event.deallocated : Event → Option ℕ
  | dealloc p => some p
  | _ => none

def inOrder (f : Event → Option ℕ) (log : List Event) : List ℕ := (log.filterMap f).reverse

theorem inOrder_append (f : Event → Option ℕ) (log log' : List Event) :
    inOrder f (log' ++ log) = inOrder f log ++ inOrder f log' := by
  rw [inOrder, List.filterMap_append, List.reverse_append]
  rfl

structure SentAs (w : World) (s : Sent) (w' : World) : Prop where
  heap : w'.heap = s.heap
  p : w'.es.p = s.p
  phase : s.finished = true → w'.phase = w.phase
  log : ∃ added, w'.log = added ++ w.log ∧ inOrder Event.accepted added = s.written ∧
    inOrder Event.deallocated added = s.freed

def turnLog (h : Heap) (ptr len : ℕ) : List Event :=
  .tcpRecved len :: released (passOn h ptr).2 ptr
    ((h.pbufs ptr).next.toList.map .pbufRef ++ [.tcpWrite ptr len .ok])

theorem turn_eq (w : World) (ptr len : ℕ) :
    tcpRecved (((w.emit (.tcpWrite ptr len .ok)).nextSegment ptr).free ptr) len =
      { w with
        heap := (passOn w.heap ptr).1
        es := { w.es with p := (w.heap.pbufs ptr).next }
        log := turnLog w.heap ptr len ++ w.log } := by
  have hlog (freed : List ℕ) (log : List Event) :
      released freed ptr (log ++ w.log) = released freed ptr log ++ w.log := by simp [released]
  have hheap : (w.emit (.tcpWrite ptr len .ok)).heap = w.heap := rfl
  rw [turnLog, List.cons_append, ← hlog, World.nextSegment, hheap, passOn]
  cases (w.heap.pbufs ptr).next <;> rfl

theorem inOrder_turnLog (h : Heap) (ptr len : ℕ) :
    inOrder Event.accepted (turnLog h ptr len) = [ptr] ∧
      inOrder Event.deallocated (turnLog h ptr len) = (passOn h ptr).2 := by
  have hdealloc : Event.deallocated ∘ Event.dealloc = some := rfl
  have href : Event.deallocated ∘ Event.pbufRef = fun _ => none := rfl
  constructor
  · simp [turnLog, released, inOrder, List.filterMap_cons, Event.accepted]
  · simp [turnLog, released, inOrder, List.filterMap_cons, Event.deallocated, hdealloc, href]

theorem sentAs_stop {w : World} {p : Option ℕ} (hp : w.es.p = p) :
    SentAs w ⟨w.heap, p, [], [], true⟩ w := ⟨rfl, hp, fun _ => rfl, [], rfl, rfl, rfl⟩

theorem tcpServerSenddata_sentAs (w : World) (answers : List (ℕ × Err)) :
    SentAs w (sendLoop w.heap w.es.p (answers.map Client.Upload.answer))
      (tcpServerSenddata w answers) := by
  induction answers generalizing w with
  | nil =>
    rw [tcpServerSenddata]
    cases hp : w.es.p with
    | none => exact sentAs_stop hp
    | some p => exact ⟨rfl, hp, fun h => absurd h Bool.false_ne_true, [], rfl, rfl, rfl⟩
  | cons a answers ih =>
    obtain ⟨sndbuf, wrErr⟩ := a
    rw [tcpServerSenddata, List.map_cons, Client.Upload.answer]
    cases hp : w.es.p with
    | none => exact sentAs_stop hp
    | some ptr =>
      rw [sendLoop]
      dsimp only
      by_cases hfits : (w.heap.pbufs ptr).len ≤ sndbuf
      · rw [if_pos hfits]
        by_cases herr : wrErr = .ok
        · subst herr
          have htaken : (w.heap.pbufs ptr).len ≤ sndbuf ∧ decide (Err.ok = Err.ok) = true :=
            ⟨hfits, decide_eq_true rfl⟩
          obtain ⟨haccepted, hdeallocated⟩ := inOrder_turnLog w.heap ptr (w.heap.pbufs ptr).len
          rw [if_pos htaken, if_pos rfl, turn_eq]
          obtain ⟨hheap, hp', hphase, added, hlog, hwritten, hfreed⟩ := ih { w with
            heap := (passOn w.heap ptr).1
            es := { w.es with p := (w.heap.pbufs ptr).next }
            log := turnLog w.heap ptr (w.heap.pbufs ptr).len ++ w.log }
          refine ⟨hheap, hp', hphase, added ++ turnLog w.heap ptr (w.heap.pbufs ptr).len, ?_, ?_, ?_⟩
          · rw [hlog, List.append_assoc]
          · rw [inOrder_append, haccepted, hwritten]
            rfl
          · rw [inOrder_append, hdeallocated, hfreed]
        · have hrefused : inOrder Event.accepted
              [.tcpWrite ptr (w.heap.pbufs ptr).len wrErr] = [] := by
            simp [inOrder, Event.accepted, herr]
          rw [if_neg herr, if_neg (fun h => herr (of_decide_eq_true h.2))]
          split_ifs
          · exact ⟨rfl, rfl, fun _ => rfl, [_], rfl, hrefused, rfl⟩
          · exact ⟨rfl, hp, fun _ => rfl, [_], rfl, hrefused, rfl⟩
      · rw [if_neg hfits, if_neg (fun h => hfits h.1)]
        exact sentAs_stop hp

end EnvirMonitor.Server

namespace EnvirMonitor.Firmware
open Machine Lwip
open Client (Err)
open Client.Upload (tcpClientSenddata)
open Server (tcpServerSenddata inOrder)

structure ClientKept (w : Client.Upload.World) (es : ℕ) (qs sent rest : List ℕ)
    (w' : Client.Upload.World) : Prop where
  returns : w'.mode = w.mode
  accepted : w'.queued = w.queued ++ payloads w.heap sent
  kept : ∃ freed, w'.freed = w.freed ++ freed ∧
    SuffixKept w.heap qs sent rest w'.heap (w'.es es).p freed

structure ServerKept (w : Server.World) (qs sent rest : List ℕ) (w' : Server.World) : Prop where
  returns : w'.phase = w.phase
  kept : ∃ added, w'.log = added ++ w.log ∧ inOrder Server.Event.accepted added = sent ∧
    SuffixKept w.heap qs sent rest w'.heap w'.es.p (inOrder Server.Event.deallocated added)

theorem length_answers {qs : List ℕ} {answers : List (ℕ × Err)} (hlen : qs.length ≤ answers.length) :
    qs.length ≤ (answers.map Client.Upload.answer).length := by rwa [List.length_map]

theorem clientKept {w : Client.Upload.World} {es : ℕ} {qs : List ℕ}
    (hs : Sendable w.heap (w.es es).p qs) {answers : List (ℕ × Err)}
    (hlen : qs.length ≤ answers.length) :
    ∃ sent rest, ClientKept w es qs sent rest (tcpClientSenddata es w answers) := by
  obtain ⟨hfinished, rest, hkept⟩ :=
    sendLoop_keeps hs (length_answers hlen)
  rw [Client.Upload.tcpClientSenddata_eq]
  refine ⟨_, rest, ?_, rfl, _, rfl, ?_⟩
  · exact if_pos hfinished
  · have hp (s : Sent) : ((w.sent es s).es es).p = s.p := by simp [Client.Upload.World.sent]
    rw [hp]
    exact hkept

theorem serverKept {w : Server.World} {qs : List ℕ} (hs : Sendable w.heap w.es.p qs)
    {answers : List (ℕ × Err)} (hlen : qs.length ≤ answers.length) :
    ∃ sent rest, ServerKept w qs sent rest (tcpServerSenddata w answers) := by
  obtain ⟨hfinished, rest, hkept⟩ :=
    sendLoop_keeps hs (length_answers hlen)
  obtain ⟨hheap, hp, hphase, added, hlog, hwritten, hfreed⟩ :=
    Server.tcpServerSenddata_sentAs w answers
  refine ⟨_, rest, hphase hfinished, added, hlog, hwritten, ?_⟩
  rw [hheap, hp, hfreed]
  exact hkept

/-- A chain that is sent in part is kept from the first segment that was not accepted. -/
theorem partial_send_keeps_suffix {h : Heap} {p : Option ℕ} {qs : List ℕ} (hs : Sendable h p qs)
    {answers : List (ℕ × Err)} (hlen : qs.length ≤ answers.length) :
    (∀ (w : Client.Upload.World) (es : ℕ), w.heap = h → (w.es es).p = p →
      ∃ sent rest, ClientKept w es qs sent rest (tcpClientSenddata es w answers)) ∧
    ∀ w : Server.World, w.heap = h → w.es.p = p →
      ∃ sent rest, ServerKept w qs sent rest (tcpServerSenddata w answers) :=
  ⟨fun _ _ hheap hp => clientKept (hheap ▸ hp ▸ hs) hlen,
    fun _ hheap hp => serverKept (hheap ▸ hp ▸ hs) hlen⟩

def twoBuffers (ref : ℕ) : Heap :=
  ((⟨fun _ => ⟨none, [], 0, 0⟩, fun _ => false, 0⟩ : Heap).new ⟨some 1, [0x61], 2, 2⟩).new
    ⟨none, [0x62], 1, ref⟩

def sender (ref : ℕ) : Client.Upload.World :=
  { Client.Upload.connected with
    heap := twoBuffers ref
    es := fun _ => ⟨.connected, some 0, some 0⟩ }

theorem sendable_twoBuffers : Sendable (twoBuffers 1) (some 0) [0, 1] :=
  ⟨by decide, by decide, by decide, by decide⟩

theorem partial_send_keeps_suffix_sample : ∃ sent rest,
    ClientKept (sender 1) 0 [0, 1] sent rest (tcpClientSenddata 0 (sender 1) [(1, .ok), (0, .ok)]) :=
  (partial_send_keeps_suffix sendable_twoBuffers (by decide)).1 (sender 1) 0 rfl rfl

/-- The count 65535 goes to 0, although the buffer before it stays. -/
theorem count_wraps : Linked (twoBuffers 65535) (some 0) [0, 1] ∧
    (∀ q ∈ [0, 1], 1 ≤ ((twoBuffers 65535).pbufs q).ref ∧
      ((twoBuffers 65535).pbufs q).ref < 2 ^ 16) ∧
    ¬ ∃ sent rest, ClientKept (sender 65535) 0 [0, 1] sent rest
      (tcpClientSenddata 0 (sender 65535) [(1, .ok), (0, .ok)]) := by
  refine ⟨by decide, by decide, ?_⟩
  rintro ⟨sent, rest, -, -, freed, -, hkept⟩
  have hp : ((tcpClientSenddata 0 (sender 65535) [(1, .ok), (0, .ok)]).es 0).p = some 1 := by
    decide +kernel
  have hcount : ((tcpClientSenddata 0 (sender 65535) [(1, .ok), (0, .ok)]).heap.pbufs 1).ref = 0 := by
    decide +kernel
  have horiginal : ((sender 65535).heap.pbufs 1).ref = 65535 := by decide +kernel
  have hhead := hkept.head 1 (by rw [← hkept.suffix.head?, hp]; rfl)
  rw [hcount, horiginal] at hhead
  omega

end EnvirMonitor.Firmware
