import EnvirMonitor.Client.TcpClient
import EnvirMonitor.Lwip.SendLoop

/-! `Send_EnvirPacketData` and `tcp_client_senddata` on the pbuf heap, with the results of
`mem_malloc`, `pbuf_alloc`, `tcp_sndbuf` and `tcp_write` as inputs. -/

namespace EnvirMonitor.Client.Upload
open Machine Lwip

/-! ## The record -/

structure PacketData where
  name : Vector U8 10
  sendData : Vector U8 10

def packetBytes (packetdata : Vector PacketData 3) : List U8 :=
  packetdata.toList.flatMap fun d => d.name.toList ++ d.sendData.toList

/-- `texts` is what the three `sprintf` calls leave in `sendData`. -/
def sprintfAll (texts : Fin 3 → Vector U8 10) (packetdata : Vector PacketData 3) : Vector PacketData 3 :=
  Vector.ofFn fun i => { packetdata[i] with sendData := texts i }

/-! ## The functions -/

/-- A call returns, waits for further answers, uses `NULL`, or is in `while(1)`. -/
inductive Mode
  | running | busy | fault | stuck
  deriving DecidableEq

structure ClientData where
  state : ClientState
  pcb : Option ℕ
  p : Option ℕ

/-- `es` are the blocks of `mem_malloc`, of which `esLive` are allocated. `queued` is what
`tcp_write` has taken and `freed` the pbufs that were deallocated, in order. -/
structure World where
  heap : Heap
  es : ℕ → ClientData
  esLive : ℕ → Bool
  nextEs : ℕ
  clientPcb : Option ℕ
  packetdata : Vector PacketData 3
  queued : List (List U8)
  freed : List ℕ
  mode : Mode

namespace World

def setEs (w : World) (es : ℕ) (d : ClientData) : World := { w with es := Function.update w.es es d }

def setP (w : World) (es : ℕ) (p : Option ℕ) : World := w.setEs es { w.es es with p := p }

def memMalloc (w : World) : World :=
  { w with esLive := Function.update w.esLive w.nextEs true, nextEs := w.nextEs + 1 }

def memFree (w : World) (es : ℕ) : World := { w with esLive := Function.update w.esLive es false }

def free (w : World) (p : ℕ) : World :=
  let r := Lwip.pbufFree w.heap p
  { w with heap := r.1, freed := w.freed ++ r.2 }

def tcpWrite (w : World) (p : ℕ) (wrErr : Err) : World :=
  if wrErr = .ok then { w with queued := w.queued ++ [(w.heap.pbufs p).payload] } else w

/-- `es->p = sendptr->next; if(es->p) pbuf_ref(es->p);` -/
def nextSegment (w : World) (es sendptr : ℕ) : World :=
  let next := (w.heap.pbufs sendptr).next
  let w := w.setP es next
  match next with
  | some q => { w with heap := pbufRef w.heap q }
  | none => w

end World

/-- `answers` are `tcp_sndbuf` and the result of `tcp_write`, turn by turn; where they run out, the
call goes on. -/
def tcpClientSenddata (es : ℕ) : World → List (ℕ × Err) → World
  | w, [] =>
    match (w.es es).p with
    | none => w
    | some _ => { w with mode := .busy }
  | w, (sndbuf, wrErr) :: answers =>
    match (w.es es).p with
    | none => w
    | some sendptr =>
      if (w.heap.pbufs sendptr).len ≤ sndbuf then
        let w := w.tcpWrite sendptr wrErr
        if wrErr = .ok then tcpClientSenddata es ((w.nextSegment es sendptr).free sendptr) answers
        else if wrErr = .mem then w.setP es (some sendptr)
        else w
      else w

/-- `senddata->p = pbuf_alloc(..)` and the fields that are set behind it. -/
def newPacket (w : World) (senddata : ℕ) : World :=
  let p := w.heap.fresh
  let bytes := packetBytes w.packetdata
  let heap := pbufAlloc w.heap bytes.length
  let heap := { heap with
    pbufs := Function.update heap.pbufs p { heap.pbufs p with payload := bytes } }
  { w with heap := heap }.setEs senddata ⟨.connected, w.clientPcb, some p⟩

def releasePacket (w : World) (senddata : ℕ) : World :=
  if w.mode = .busy then w
  else
    let w := match (w.es senddata).p with
      | some p => w.free p
      | none => w
    w.memFree senddata

/-- `tcp_sent(client_pcb, ..)`, which uses `client_pcb`, and what follows it. -/
def sendPacket (w : World) (senddata : ℕ) (answers : List (ℕ × Err)) : World :=
  match w.clientPcb with
  | none => { w with mode := .fault }
  | some _ => releasePacket (tcpClientSenddata senddata w answers) senddata

/-- `memOk` and `pbufOk` are whether `mem_malloc` and `pbuf_alloc` succeed. -/
def sendEnvirPacketData (texts : Fin 3 → Vector U8 10) (w : World) (memOk pbufOk : Bool)
    (answers : List (ℕ × Err)) : World :=
  let senddata := w.nextEs
  let w := if memOk then w.memMalloc else w
  let w := { w with packetdata := sprintfAll texts w.packetdata }
  if memOk then
    if pbufOk then sendPacket (newPacket w senddata) senddata answers
    else { w.setP senddata none with mode := .fault }
  else { w with mode := .stuck }

/-! ## Sending -/

def answer (a : ℕ × Err) : ℕ × Bool := (a.1, decide (a.2 = .ok))

def World.sent (w : World) (es : ℕ) (s : Sent) : World :=
  { w with
    heap := s.heap
    es := Function.update w.es es { w.es es with p := s.p }
    queued := w.queued ++ payloads w.heap s.written
    freed := w.freed ++ s.freed
    mode := if s.finished then w.mode else .busy }

theorem sent_stop (w : World) (es : ℕ) :
    w.sent es ⟨w.heap, (w.es es).p, [], [], true⟩ = w := by
  simp [World.sent]

theorem turn_eq {w : World} {es sendptr : ℕ} :
    ((w.tcpWrite sendptr .ok).nextSegment es sendptr).free sendptr =
      { w with
        heap := (passOn w.heap sendptr).1
        es := Function.update w.es es { w.es es with p := (w.heap.pbufs sendptr).next }
        queued := w.queued ++ [(w.heap.pbufs sendptr).payload]
        freed := w.freed ++ (passOn w.heap sendptr).2 } := by
  have hwrite : w.tcpWrite sendptr .ok =
      { w with queued := w.queued ++ [(w.heap.pbufs sendptr).payload] } := if_pos rfl
  rw [hwrite, World.nextSegment, passOn]
  cases (w.heap.pbufs sendptr).next <;> rfl

theorem payloads_passOn (h : Heap) (ptr : ℕ) (qs : List ℕ) :
    payloads (passOn h ptr).1 qs = payloads h qs :=
  List.map_congr_left fun i _ => (frees_passOn h ptr).payload i

theorem tcpClientSenddata_eq (es : ℕ) (w : World) (answers : List (ℕ × Err)) :
    tcpClientSenddata es w answers = w.sent es (sendLoop w.heap (w.es es).p (answers.map answer)) := by
  have hstop (w : World) {p : Option ℕ} (hp : (w.es es).p = p) :
      w.sent es ⟨w.heap, p, [], [], true⟩ = w := hp ▸ sent_stop w es
  induction answers generalizing w with
  | nil =>
    cases hp : (w.es es).p with
    | none =>
      rw [tcpClientSenddata, hp]
      exact (hstop w hp).symm
    | some p =>
      have hes : { w.es es with p := some p } = w.es es := by rw [← hp]
      simp [tcpClientSenddata, hp, sendLoop, World.sent, hes]
  | cons a answers ih =>
    obtain ⟨sndbuf, wrErr⟩ := a
    rw [tcpClientSenddata, List.map_cons, answer]
    cases hp : (w.es es).p with
    | none => exact (hstop w hp).symm
    | some sendptr =>
      rw [sendLoop]
      dsimp only
      by_cases hfits : (w.heap.pbufs sendptr).len ≤ sndbuf
      · rw [if_pos hfits]
        by_cases herr : wrErr = .ok
        · subst herr
          have htaken : (w.heap.pbufs sendptr).len ≤ sndbuf ∧ decide (Err.ok = Err.ok) = true :=
            ⟨hfits, decide_eq_true rfl⟩
          rw [if_pos htaken, if_pos rfl, ih, turn_eq]
          simp [World.sent, payloads_passOn]
        · have hwrite : w.tcpWrite sendptr wrErr = w := if_neg herr
          have hes : w.setP es (some sendptr) = w := by simp [World.setP, World.setEs, ← hp]
          rw [if_neg herr, hwrite, hes, ite_self, if_neg (fun h => herr (of_decide_eq_true h.2)),
            hstop w hp]
      · rw [if_neg hfits, if_neg (fun h => hfits h.1), hstop w hp]

/-! ## An upload -/

def packetHeap (w : World) : Heap :=
  w.heap.new ⟨none, packetBytes w.packetdata, (packetBytes w.packetdata).length, 1⟩

theorem newPacket_eq (w : World) (senddata : ℕ) : newPacket w senddata =
    { w with heap := packetHeap w }.setEs senddata ⟨.connected, w.clientPcb, some w.heap.fresh⟩ := by
  simp [newPacket, packetHeap, pbufAlloc, Heap.new]

theorem packetHeap_fresh (w : World) : (packetHeap w).pbufs w.heap.fresh =
    ⟨none, packetBytes w.packetdata, (packetBytes w.packetdata).length, 1⟩ := Function.update_self ..

theorem packetHeap_of_ne (w : World) {i : ℕ} (hi : i ≠ w.heap.fresh) :
    (packetHeap w).pbufs i = w.heap.pbufs i ∧ (packetHeap w).live i = w.heap.live i :=
  ⟨Function.update_of_ne hi .., Function.update_of_ne hi ..⟩

theorem sendable_packet (w : World) : Sendable (packetHeap w) (some w.heap.fresh) [w.heap.fresh] where
  linked := ⟨rfl, ⟨Nat.lt_succ_self _, Function.update_self ..⟩, by rw [packetHeap_fresh]; rfl⟩
  pos := List.forall_mem_singleton.mpr (by rw [packetHeap_fresh])
  lt := List.forall_mem_singleton.mpr (by rw [packetHeap_fresh]; exact (by decide : 1 < 2 ^ 16))
  room := List.pairwise_singleton ..

structure Restored (w : World) (h : Heap) : Prop where
  live : ∀ i, h.live i = ((packetHeap w).live i && decide (i ≠ w.heap.fresh))
  pbufs : ∀ i, i ≠ w.heap.fresh → h.pbufs i = w.heap.pbufs i

theorem packet_sent (w : World) {answers : List (ℕ × Bool)} (hne : answers ≠ []) :
    (∃ h freed, sendLoop (packetHeap w) (some w.heap.fresh) answers =
        ⟨h, none, [w.heap.fresh], freed, true⟩ ∧ Restored w h) ∨
      ∃ h freed, sendLoop (packetHeap w) (some w.heap.fresh) answers =
        ⟨h, some w.heap.fresh, [], freed, true⟩ ∧ Restored w (Lwip.pbufFree h w.heap.fresh).1 := by
  have hcount : ((packetHeap w).pbufs w.heap.fresh).ref = 1 := by rw [packetHeap_fresh]
  obtain ⟨hfinished, rest, hkept⟩ := sendLoop_keeps (sendable_packet w)
    (List.length_pos_of_ne_nil hne : [w.heap.fresh].length ≤ answers.length)
  generalize sendLoop (packetHeap w) (some w.heap.fresh) answers = s at hfinished hkept
  obtain ⟨h, p, written, freed, finished⟩ := s
  obtain rfl : finished = true := hfinished
  have hothers (i : ℕ) (hi : i ≠ w.heap.fresh) : h.pbufs i = w.heap.pbufs i :=
    (hkept.others i (by simpa using hi)).trans (packetHeap_of_ne w hi).1
  rcases List.append_eq_singleton_iff.mp hkept.split.symm with ⟨hwritten, rfl⟩ | ⟨hwritten, rfl⟩
  · obtain rfl : written = [] := hwritten
    have hp : p = some w.heap.fresh := hkept.suffix.head?
    have hlast : (h.pbufs w.heap.fresh).next = none := by
      rw [(hkept.contents _).1, packetHeap_fresh]
    have href : (h.pbufs w.heap.fresh).ref = 1 := by
      rw [hkept.head _ rfl, hcount]
      simp
    have hnone (i : ℕ) : i ∉ freed := fun hi => absurd ((hkept.unreached i).mp hi).1 List.not_mem_nil
    have hpassed := passed_on_last hlast
    rw [passOn_last hlast] at hpassed
    refine Or.inr ⟨h, freed, by rw [hp], fun i => ?_, fun i hi => ?_⟩
    · rw [hpassed.frees.live, hpassed.freed, if_pos href, hkept.live, decide_eq_true (hnone i),
        Bool.and_true]
      simp
    · rw [hpassed.others i hi (by simp [hlast]), hothers i hi]
  · obtain rfl : written = [w.heap.fresh] := hwritten
    have hp : p = none := hkept.suffix
    have hfreed (i : ℕ) : i ∈ freed ↔ i = w.heap.fresh := by
      rw [hkept.unreached, List.mem_singleton, and_iff_left_iff_imp]
      rintro -
      simp [Reached, hcount]
    refine Or.inl ⟨h, freed, by rw [hp], fun i => ?_, hothers⟩
    rw [hkept.live]
    simp [hfreed]

/-- The call returns, queues the whole record or nothing, and gives back what it has taken. -/
structure AllOrNothing (w w' : World) : Prop where
  returns : w'.mode = .running
  queued : w'.queued = w.queued ∨ w'.queued = w.queued ++ [packetBytes w'.packetdata]
  pool : w'.heap.live = w.heap.live
  pbufs : ∀ i, w.heap.live i = true → w'.heap.pbufs i = w.heap.pbufs i
  heap : w'.esLive = w.esLive
  blocks : ∀ i, w.esLive i = true → w'.es i = w.es i

structure Unused (w : World) : Prop where
  pbuf : w.heap.live w.heap.fresh = false
  block : w.esLive w.nextEs = false

def prepared (texts : Fin 3 → Vector U8 10) (w : World) : World :=
  { w.memMalloc with packetdata := sprintfAll texts w.packetdata }

theorem sendEnvirPacketData_true (texts : Fin 3 → Vector U8 10) (w : World)
    (answers : List (ℕ × Err)) : sendEnvirPacketData texts w true true answers =
      sendPacket (newPacket (prepared texts w) w.nextEs) w.nextEs answers := rfl

theorem sendEnvirPacketData_fails (texts : Fin 3 → Vector U8 10) (w : World) {memOk pbufOk : Bool}
    (answers : List (ℕ × Err)) (h : ¬ (memOk = true ∧ pbufOk = true ∧ w.clientPcb ≠ none)) :
    (sendEnvirPacketData texts w memOk pbufOk answers).mode ≠ .running := by
  cases memOk with
  | false => exact fun hmode => by cases hmode
  | true =>
    cases pbufOk with
    | false => exact fun hmode => by cases hmode
    | true =>
      have hnull : w.clientPcb = none := by simpa using h
      have hpcb : (newPacket (prepared texts w) w.nextEs).clientPcb = none := hnull
      rw [sendEnvirPacketData_true, sendPacket, hpcb]
      exact fun hmode => by cases hmode

theorem sendEnvirPacketData_eq (texts : Fin 3 → Vector U8 10) {w : World} (hpcb : w.clientPcb ≠ none)
    (answers : List (ℕ × Err)) :
    sendEnvirPacketData texts w true true answers =
      releasePacket ((newPacket (prepared texts w) w.nextEs).sent w.nextEs
        (sendLoop (packetHeap (prepared texts w)) (some w.heap.fresh) (answers.map answer)))
          w.nextEs := by
  obtain ⟨pcb, hpcb⟩ := Option.ne_none_iff_exists'.mp hpcb
  have hnew : (newPacket (prepared texts w) w.nextEs).clientPcb = some pcb := hpcb
  have hp : ((newPacket (prepared texts w) w.nextEs).es w.nextEs).p = some w.heap.fresh := by
    rw [newPacket_eq]
    simp [World.setEs, prepared, World.memMalloc]
  have hheap : (newPacket (prepared texts w) w.nextEs).heap = packetHeap (prepared texts w) := by
    rw [newPacket_eq]
    rfl
  rw [sendEnvirPacketData_true, sendPacket, hnew, ← hp, ← hheap, ← tcpClientSenddata_eq]

theorem free_eq (w : World) (p : ℕ) : w.free p =
    { w with heap := (Lwip.pbufFree w.heap p).1, freed := w.freed ++ (Lwip.pbufFree w.heap p).2 } := by
  unfold World.free
  generalize Lwip.pbufFree w.heap p = r
  rfl

theorem Restored.live_eq {w : World} {h : Heap} (hr : Restored w h)
    (hfresh : w.heap.live w.heap.fresh = false) : h.live = w.heap.live := by
  funext i
  rw [hr.live]
  by_cases hi : i = w.heap.fresh
  · rw [hi, hfresh]
    simp
  · rw [(packetHeap_of_ne w hi).2, decide_eq_true hi, Bool.and_true]

theorem allOrNothing_of_restored (texts : Fin 3 → Vector U8 10) {w w' : World} (hunused : Unused w)
    (hmode : w'.mode = .running) (hdata : w'.packetdata = sprintfAll texts w.packetdata)
    (hqueued : w'.queued = w.queued ∨
      w'.queued = w.queued ++ [packetBytes (sprintfAll texts w.packetdata)])
    (hheap : Restored (prepared texts w) w'.heap)
    (hlive : w'.esLive = Function.update (prepared texts w).esLive w.nextEs false)
    (hes : ∀ i, i ≠ w.nextEs → w'.es i = w.es i) : AllOrNothing w w' where
  returns := hmode
  queued := hdata ▸ hqueued
  pool := hheap.live_eq hunused.pbuf
  pbufs := fun i hi => hheap.pbufs i fun h => by
    rw [h] at hi
    exact Bool.false_ne_true (hunused.pbuf.symm.trans hi)
  heap := by
    rw [hlive, prepared, World.memMalloc, Function.update_idem, ← hunused.block,
      Function.update_eq_self]
  blocks := fun i hi => hes i fun h => by
    rw [h] at hi
    exact Bool.false_ne_true (hunused.block.symm.trans hi)

theorem releasePacket_sent {w : World} (hmode : w.mode = .running) (es : ℕ) {s : Sent}
    (hfinished : s.finished = true) : releasePacket (w.sent es s) es =
      { w with
        heap := s.p.elim s.heap fun p => (Lwip.pbufFree s.heap p).1
        es := Function.update w.es es { w.es es with p := s.p }
        esLive := Function.update w.esLive es false
        queued := w.queued ++ payloads w.heap s.written
        freed := w.freed ++ s.freed ++ s.p.elim [] fun p => (Lwip.pbufFree s.heap p).2 } := by
  obtain ⟨h, p, written, freed, finished⟩ := s
  obtain rfl : finished = true := hfinished
  have hrunning : ¬ (w.sent es ⟨h, p, written, freed, true⟩).mode = .busy :=
    fun h => by cases hmode.symm.trans h
  have hp : ((w.sent es ⟨h, p, written, freed, true⟩).es es).p = p := by simp [World.sent]
  rw [releasePacket, if_neg hrunning, hp]
  cases p with
  | none => simp [World.sent, World.memFree]
  | some p => simp [World.sent, World.memFree, free_eq]

theorem all_or_nothing_iff (texts : Fin 3 → Vector U8 10) {w : World} (hmode : w.mode = .running)
    (hunused : Unused w) (memOk pbufOk : Bool) {answers : List (ℕ × Err)} (hne : answers ≠ []) :
    AllOrNothing w (sendEnvirPacketData texts w memOk pbufOk answers) ↔
      memOk = true ∧ pbufOk = true ∧ w.clientPcb ≠ none := by
  constructor
  · intro h
    by_contra hno
    exact sendEnvirPacketData_fails texts w answers hno h.returns
  · rintro ⟨rfl, rfl, hpcb⟩
    have hanswers : answers.map answer ≠ [] := mt List.map_eq_nil_iff.mp hne
    have hrunning : (newPacket (prepared texts w) w.nextEs).mode = .running := by
      rw [newPacket_eq]
      exact hmode
    have hheap : (newPacket (prepared texts w) w.nextEs).heap = packetHeap (prepared texts w) := by
      rw [newPacket_eq]
      rfl
    have hrecord : payloads (packetHeap (prepared texts w)) [w.heap.fresh] =
        [packetBytes (sprintfAll texts w.packetdata)] :=
      congrArg (fun p : Pbuf => [p.payload]) (packetHeap_fresh (prepared texts w))
    have hblocks (i : ℕ) (hi : i ≠ w.nextEs) (d : ClientData) :
        Function.update (newPacket (prepared texts w) w.nextEs).es w.nextEs d i = w.es i := by
      rw [Function.update_of_ne hi, newPacket_eq]
      exact Function.update_of_ne hi ..
    rw [sendEnvirPacketData_eq texts hpcb]
    rcases packet_sent (prepared texts w) hanswers with ⟨h, freed, hloop, hrestored⟩ |
      ⟨h, freed, hloop, hrestored⟩
    -- the record was queued, and the callee has freed the pbuf
    · change sendLoop _ (some w.heap.fresh) _ = ⟨h, none, [w.heap.fresh], freed, true⟩ at hloop
      rw [hloop, releasePacket_sent hrunning _ rfl, hheap, hrecord]
      exact allOrNothing_of_restored texts hunused hrunning rfl (Or.inr rfl) hrestored rfl
        fun i hi => hblocks i hi _
    -- nothing was queued, and the caller frees it
    · change sendLoop _ (some w.heap.fresh) _ = ⟨h, some w.heap.fresh, [], freed, true⟩ at hloop
      rw [hloop, releasePacket_sent hrunning _ rfl]
      exact allOrNothing_of_restored texts hunused hrunning rfl (Or.inl (List.append_nil _)) hrestored
        rfl fun i hi => hblocks i hi _

def connected : World where
  heap := ⟨fun _ => ⟨none, [], 0, 0⟩, fun _ => false, 0⟩
  es := fun _ => ⟨.none, none, none⟩
  esLive := fun _ => false
  nextEs := 0
  clientPcb := some 0
  packetdata := Vector.replicate 3 ⟨Vector.replicate 10 0, Vector.replicate 10 0⟩
  queued := []
  freed := []
  mode := .running

def zeroTexts : Fin 3 → Vector U8 10 := fun _ => Vector.replicate 10 0x30

theorem all_or_nothing_iff_sample : AllOrNothing connected
    (sendEnvirPacketData zeroTexts connected true true [(2144, .mem)]) :=
  (all_or_nothing_iff _ rfl ⟨rfl, rfl⟩ true true (by simp)).mpr ⟨rfl, rfl, by decide⟩

/-- Without a block the call does not return, and without a pbuf it writes through `NULL`. -/
theorem upload_without_memory :
    ¬ AllOrNothing connected (sendEnvirPacketData zeroTexts connected false true [(2144, .ok)]) ∧
      ¬ AllOrNothing connected (sendEnvirPacketData zeroTexts connected true false [(2144, .ok)]) := by
  constructor
  · intro h
    cases h.returns
  · intro h
    cases h.returns

end EnvirMonitor.Client.Upload
