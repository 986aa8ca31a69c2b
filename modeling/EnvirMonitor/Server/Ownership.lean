import EnvirMonitor.Machine.ReleaseLog
import EnvirMonitor.Server.TcpServer

/-! Every pbuf reference of the server is released exactly once, and no freed pbuf is used, exactly
in the runs where each message is sent by the poll that allocates it and each copy loop ends. -/

namespace EnvirMonitor.Server
open Machine Lwip
open Client (Err hasFlag setFlag clearFlag)

/-! ## References -/

namespace Event
variable (i : ℕ)

def obtains : Event → Bool
  | .obtained p => p = i
  | .pbufRef p => p = i
  | _ => false

def releases : Event → Bool
  | .pbufFree p => p = i
  | _ => false

def deallocs : Event → Bool
  | .dealloc p => p = i
  | _ => false

def uses : Event → Bool
  | .tcpWrite p _ _ => p = i
  | .pbufRef p => p = i
  | .pbufFree p => p = i
  | _ => false

def mentions (e : Event) : Bool := e.obtains i || e.releases i || e.deallocs i || e.uses i

end Event

theorem mentions_eq_true {e : Event} {i : ℕ} : e.mentions i = true ↔
    ((e.obtains i = true ∨ e.releases i = true) ∨ e.deallocs i = true) ∨ e.uses i = true := by
  rw [Event.mentions, Bool.or_eq_true_iff, Bool.or_eq_true_iff, Bool.or_eq_true_iff]

/-- `es->p`, as long as the record exists. -/
def World.holds (w : World) (i : ℕ) : Prop :=
  w.es.p = some i ∧ w.phase ≠ .closed ∧ w.phase ≠ .gone

instance (w : World) (i : ℕ) : Decidable (w.holds i) := inferInstanceAs (Decidable (_ ∧ _))

/-- References are released once, except the one of `es->p`, which is to a live pbuf; and no freed
pbuf is written, referenced or freed. -/
structure Owned (w : World) : Prop where
  released : ∀ i, w.log.countP (Event.releases i) + (if w.holds i then 1 else 0) =
    w.log.countP (Event.obtains i)
  live : ∀ i, w.holds i → w.heap.live i = true
  safe : ∀ i, NoUseAfterFree (Event.deallocs i) (Event.uses i) w.log

structure Idle (w : World) : Prop where
  owned : Owned w
  fresh : ∀ e ∈ w.log, ∀ i, e.mentions i = true → i < w.heap.fresh
  pending : w.phase = .registered → w.es.p = none

theorem not_holds {w : World} (h : w.es.p = none) (i : ℕ) : ¬ w.holds i := by
  rintro ⟨hp, -⟩
  rw [h] at hp
  cases hp

theorem idle_append {w w' : World} (h : Idle w) (hw : w.es.p = none) (new : List Event)
    (hlog : w'.log = new ++ w.log) (hle : w.heap.fresh ≤ w'.heap.fresh)
    (hnew : ∀ e ∈ new, ∀ i, e.mentions i = true → w.heap.fresh ≤ i ∧ i < w'.heap.fresh)
    (hcount : ∀ i, new.countP (Event.releases i) + (if w'.holds i then 1 else 0) =
      new.countP (Event.obtains i))
    (hlive : ∀ i, w'.holds i → w'.heap.live i = true)
    (hsafe : ∀ i, NoUseAfterFree (Event.deallocs i) (Event.uses i) new)
    (hpending : w'.phase = .registered → w'.es.p = none) : Idle w' := by
  refine ⟨⟨fun i => ?_, hlive, fun i => ?_⟩, fun e he i hm => ?_, hpending⟩
  · have hold := h.owned.released i
    rw [if_neg (not_holds hw i)] at hold
    have hi := hcount i
    rw [hlog, List.countP_append, List.countP_append]
    omega
  · rw [hlog]
    rcases Nat.lt_or_ge i w.heap.fresh with hi | hi
    · refine noUseAfterFree_append_unused (h.owned.safe i) fun e he => ?_
      refine Bool.eq_false_of_not_eq_true fun hu => ?_
      have := (hnew e he i (mentions_eq_true.mpr (Or.inr hu))).1
      omega
    · refine noUseAfterFree_append_unfreed (hsafe i) fun e he => ?_
      refine Bool.eq_false_of_not_eq_true fun hd => ?_
      have := h.fresh e he i (mentions_eq_true.mpr (Or.inl (Or.inr hd)))
      omega
  · rw [hlog] at he
    rcases List.mem_append.mp he with he | he
    · exact (hnew e he i hm).2
    · exact (h.fresh e he i hm).trans_le hle

theorem idle_same {w w' : World} (h : Idle w) (hw : w.es.p = none) (hlog : w'.log = w.log)
    (hfresh : w'.heap.fresh = w.heap.fresh) (hes : w'.es.p = none) : Idle w' := by
  refine idle_append h hw [] hlog hfresh.ge (fun e he => absurd he List.not_mem_nil)
    (fun i => ?_) (fun i hi => absurd hi (not_holds hes i)) (fun i => trivial) fun _ => hes
  rw [if_neg (not_holds hes i)]
  rfl

/-- What happens to one new reference before it is released. -/
structure Receipt (p : ℕ) (log : List Event) : Prop where
  obtained : ∀ i, log.countP (Event.obtains i) = if p = i then 1 else 0
  kept : ∀ e ∈ log, ∀ i, e.releases i = false ∧ e.deallocs i = false
  mentions : ∀ e ∈ log, ∀ i, e.mentions i = true → p = i

theorem receipt_obtained (p : ℕ) : Receipt p [.obtained p] := by
  refine ⟨fun i => ?_, fun e he i => ?_, fun e he i hm => ?_⟩
  · simp [Event.obtains]
  · obtain rfl := List.mem_singleton.mp he
    exact ⟨rfl, rfl⟩
  · obtain rfl := List.mem_singleton.mp he
    simpa [Event.mentions, Event.obtains, Event.releases, Event.deallocs, Event.uses] using hm

theorem Receipt.cons {p : ℕ} {log : List Event} (h : Receipt p log) {e : Event}
    (hkept : ∀ i, e.obtains i = false ∧ e.releases i = false ∧ e.deallocs i = false)
    (hmentions : ∀ i, e.mentions i = true → p = i) : Receipt p (e :: log) := by
  refine ⟨fun i => ?_, fun e' he i => ?_, fun e' he i hm => ?_⟩
  · have hnot : ¬ e.obtains i = true := by rw [(hkept i).1]; exact Bool.false_ne_true
    rw [List.countP_cons_of_neg hnot]
    exact h.obtained i
  · rcases List.mem_cons.mp he with rfl | he
    · exact (hkept i).2
    · exact h.kept e' he i
  · rcases List.mem_cons.mp he with rfl | he
    · exact hmentions i hm
    · exact h.mentions e' he i hm

theorem Receipt.recved {p : ℕ} {log : List Event} (h : Receipt p log) (len : ℕ) :
    Receipt p (.tcpRecved len :: log) :=
  h.cons (fun _ => ⟨rfl, rfl, rfl⟩) fun _ hm => absurd hm Bool.false_ne_true

theorem Receipt.delivered {p : ℕ} {log : List Event} (h : Receipt p log) (len : ℕ) (err : Err) :
    Receipt p (.delivered len err :: log) :=
  h.cons (fun _ => ⟨rfl, rfl, rfl⟩) fun _ hm => absurd hm Bool.false_ne_true

theorem Receipt.written {p : ℕ} {log : List Event} (h : Receipt p log) (len : ℕ) (err : Err) :
    Receipt p (.tcpWrite p len err :: log) :=
  h.cons (fun _ => ⟨rfl, rfl, rfl⟩) fun _ hm => by
    simpa [Event.mentions, Event.obtains, Event.releases, Event.deallocs, Event.uses] using hm

theorem released_append (freed : List ℕ) (p : ℕ) (log rest : List Event) :
    released freed p (log ++ rest) = released freed p log ++ rest := by
  rw [released, released, List.append_assoc, List.cons_append]

theorem countP_releases_released {freed : List ℕ} {p : ℕ} {log : List Event} (h : Receipt p log)
    (i : ℕ) : (released freed p log).countP (Event.releases i) = if p = i then 1 else 0 := by
  have hdealloc : (freed.reverse.map Event.dealloc).countP (Event.releases i) = 0 := by
    refine List.countP_eq_zero.mpr fun e he => ?_
    obtain ⟨j, -, rfl⟩ := List.mem_map.mp he
    exact Bool.false_ne_true
  have hlog : log.countP (Event.releases i) = 0 :=
    List.countP_eq_zero.mpr fun e he => by rw [(h.kept e he i).1]; exact Bool.false_ne_true
  rw [released, List.countP_append, hdealloc, List.countP_cons, hlog]
  simp [Event.releases]

theorem countP_obtains_released {freed : List ℕ} {p : ℕ} {log : List Event} (h : Receipt p log)
    (i : ℕ) : (released freed p log).countP (Event.obtains i) = if p = i then 1 else 0 := by
  have hdealloc : (freed.reverse.map Event.dealloc).countP (Event.obtains i) = 0 := by
    refine List.countP_eq_zero.mpr fun e he => ?_
    obtain ⟨j, -, rfl⟩ := List.mem_map.mp he
    exact Bool.false_ne_true
  rw [released, List.countP_append, hdealloc, List.countP_cons, h.obtained]
  simp [Event.obtains]

theorem safe_released {freed : List ℕ} {p : ℕ} {log : List Event} (h : Receipt p log) (i : ℕ) :
    NoUseAfterFree (Event.deallocs i) (Event.uses i) (released freed p log) := by
  refine noUseAfterFree_append_unused (noUseAfterFree_of_unfreed ?_) ?_
  · intro e he
    rcases List.mem_cons.mp he with rfl | he
    · rfl
    · exact (h.kept e he i).2
  · intro e he
    obtain ⟨j, -, rfl⟩ := List.mem_map.mp he
    rfl

theorem mentions_released {freed : List ℕ} {p : ℕ} {log : List Event} (h : Receipt p log)
    {e : Event} (he : e ∈ released freed p log) {i : ℕ} (hm : e.mentions i = true) :
    i ∈ freed ∨ p = i := by
  rcases List.mem_append.mp he with he | he
  · obtain ⟨j, hj, rfl⟩ := List.mem_map.mp he
    have hji : j = i := by simpa [Event.mentions, Event.obtains, Event.releases, Event.deallocs,
      Event.uses] using hm
    exact Or.inl (hji ▸ List.mem_reverse.mp hj)
  · rcases List.mem_cons.mp he with rfl | he
    · exact Or.inr (by simpa [Event.mentions, Event.obtains, Event.releases, Event.deallocs,
        Event.uses] using hm)
    · exact Or.inr (h.mentions e he i hm)

/-- A new reference that is released within the callback. -/
theorem idle_released {w w' : World} (h : Idle w) (hw : w.es.p = none) (freed : List ℕ)
    {log : List Event} (after : List Event)
    (hlog : w'.log = after ++ released freed w.heap.fresh log ++ w.log)
    (hreceipt : Receipt w.heap.fresh log) (hafter : ∀ e ∈ after, ∀ i, e.mentions i = false)
    (hfresh : w.heap.fresh < w'.heap.fresh)
    (hfreed : ∀ j ∈ freed, w.heap.fresh ≤ j ∧ j < w'.heap.fresh) (hes : w'.es.p = none) :
    Idle w' := by
  have hafter' {e : Event} (he : e ∈ after) (i : ℕ) : e.releases i = false ∧ e.obtains i = false ∧
      e.uses i = false := by
    have hm := hafter e he i
    rw [Event.mentions, Bool.or_eq_false_iff, Bool.or_eq_false_iff, Bool.or_eq_false_iff] at hm
    exact ⟨hm.1.1.2, hm.1.1.1, hm.2⟩
  refine idle_append h hw _ hlog hfresh.le (fun e he i hm => ?_) (fun i => ?_)
    (fun i hi => absurd hi (not_holds hes i)) (fun i => ?_) fun _ => hes
  · rcases List.mem_append.mp he with he | he
    · exact absurd ((hafter e he i).symm.trans hm) Bool.false_ne_true
    · rcases mentions_released hreceipt he hm with hi | rfl
      · exact hfreed i hi
      · exact ⟨le_rfl, hfresh⟩
  · have hr : after.countP (Event.releases i) = 0 :=
      List.countP_eq_zero.mpr fun e he => by rw [(hafter' he i).1]; exact Bool.false_ne_true
    have ho : after.countP (Event.obtains i) = 0 :=
      List.countP_eq_zero.mpr fun e he => by rw [(hafter' he i).2.1]; exact Bool.false_ne_true
    rw [if_neg (not_holds hes i), List.countP_append, List.countP_append, hr, ho,
      countP_releases_released hreceipt, countP_obtains_released hreceipt, Nat.add_zero]
  · exact noUseAfterFree_append_unused (safe_released hreceipt i) fun e he => (hafter' he i).2.2

/-! ## The condition -/

def Delivery.copyEnds (d : Delivery) : Prop :=
  tcpServerRxBufsize < d.head.payload.length ∨ ∀ s ∈ d.rest.head?, 0 < s.payload.length

instance (d : Delivery) : Decidable d.copyEnds := inferInstanceAs (Decidable (_ ∨ _))

/-- The message of a poll is written at once, and data that is copied ends the loop. -/
def Sound (w : World) : Input → Prop
  | .recv d err => err = .ok → w.es.state = .accepted → d.copyEnds
  | .poll alloc answers => alloc = true → hasFlag w.tcpServerFlag senddataFlag = true →
      ∀ a ∈ answers.head?, tcpServerSendbuf.length ≤ a.1 ∧ a.2 = .ok
  | _ => True

instance (w : World) : (i : Input) → Decidable (Sound w i)
  | .recv _ _ | .poll _ _ => inferInstanceAs (Decidable (_ → _))
  | .fin _ | .sent _ | .err | .request | .reuse _ _ => isTrue trivial

theorem copyEnds_iff (h : Heap) (d : Delivery) :
    CopyEnds (handOver h d.segments) h.fresh ↔ d.copyEnds := by
  obtain ⟨head, rest, hlt⟩ := d
  have hhead := handOver_head h head rest
  rw [CopyEnds, Delivery.copyEnds, Delivery.segments, hhead, Pbuf.len]
  refine or_congr_right ?_
  cases rest with
  | nil => simp
  | cons second rest =>
    have hsecond : ((handOver h (head :: second :: rest)).pbufs (h.fresh + 1)).len =
        second.payload.length := congrArg Pbuf.len (handOver_head (h.new _) second rest)
    simp [hsecond]

/-! ## Callbacks -/

section
variable {w : World}

/-- The chain of a delivery is released as far as the server's own reference kept it. -/
theorem freed_deliver (d : Delivery) {h : Heap} (hh : h = handOver w.heap d.segments) :
    ∀ j ∈ (pbufFree h w.heap.fresh).2, w.heap.fresh ≤ j ∧ j < h.fresh := by
  subst hh
  rw [handOver_fresh]
  refine freed_subset (S := Set.Ico w.heap.fresh (w.heap.fresh + d.segments.length)) _ ?_
    (handOver_closed w.heap d.segments)
  rintro i hi
  obtain rfl := Option.some.inj hi
  exact ⟨le_rfl, by rw [Delivery.segments, List.length_cons]; omega⟩

theorem fresh_deliver (d : Delivery) (err : Err) :
    w.heap.fresh < (deliver w d err).heap.fresh := by
  have hfresh : (deliver w d err).heap.fresh = w.heap.fresh + d.segments.length := handOver_fresh ..
  rw [hfresh, Delivery.segments, List.length_cons]
  omega

/-- What a callback does with the data it is handed, before it releases it. -/
structure Takes (w : World) (d : Delivery) (w' : World) : Prop where
  heap : w'.heap = handOver w.heap d.segments
  log : ∃ log, w'.log = log ++ w.log ∧ Receipt w.heap.fresh log
  pending : w'.es.p = none

theorem idle_free {w' : World} (h : Idle w) (hp : w.es.p = none) {d : Delivery}
    (htakes : Takes w d w') : Idle (w'.free w.heap.fresh) := by
  obtain ⟨hheap, ⟨log, hlog, hreceipt⟩, hes⟩ := htakes
  have hfresh : (w'.free w.heap.fresh).heap.fresh = (handOver w.heap d.segments).fresh := by
    rw [free_fresh, hheap]
  refine idle_released h hp (pbufFree w'.heap w.heap.fresh).2 [] ?_ hreceipt
    (fun e he => absurd he List.not_mem_nil) ?_ ?_ ?_
  · rw [free_log, hlog, List.nil_append, released_append]
  · rw [hfresh]
    exact fresh_deliver d .ok
  · rw [hfresh, ← hheap]
    exact freed_deliver d hheap
  · rw [free_es]
    exact hes

theorem takes_deliver (hp : w.es.p = none) (d : Delivery) (err : Err) :
    Takes w d (deliver w d err) := by
  refine ⟨?_, ⟨_, ?_, (receipt_obtained w.heap.fresh).delivered (segmentsLen d.segments) err⟩, ?_⟩
  · simp only [deliver, World.emit]
  · simp only [deliver, World.emit, List.cons_append, List.nil_append]
  · simpa only [deliver, World.emit] using hp

theorem Takes.recved {w' : World} {d : Delivery} (h : Takes w d w') (len : ℕ) :
    Takes w d (tcpRecved w' len) := by
  obtain ⟨hheap, ⟨log, hlog, hreceipt⟩, hes⟩ := h
  refine ⟨hheap, ⟨.tcpRecved len :: log, ?_, hreceipt.recved len⟩, hes⟩
  rw [List.cons_append, ← hlog]
  rfl

/-- A delivery is released, unless the copy loop goes on for ever. -/
theorem react_recv (hp : w.es.p = none) (d : Delivery) (err : Err) :
    if err = .ok ∧ w.es.state = .accepted ∧ ¬ d.copyEnds then
      (react w (.recv d err)).log = (deliver w d err).log ∧ (react w (.recv d err)).es = w.es
    else ∃ w', react w (.recv d err) = w'.free w.heap.fresh ∧ Takes w d w' := by
  have htakes := takes_deliver hp d err
  have hes : (deliver w d err).es = w.es := by simp only [deliver, World.emit]
  have hends := copyEnds_iff w.heap d
  rw [← htakes.heap] at hends
  simp only [react, tcpRecvServer, hes]
  generalize deliver w d err = w₁ at htakes hes hends
  by_cases herr : err = .ok
  · rw [if_neg (not_not.mpr herr)]
    by_cases hstate : w.es.state = .accepted
    · rw [if_pos hstate]
      by_cases hd : d.copyEnds
      · rw [if_neg fun h => h.2.2 hd,
          copyRevdata_ends (hends.mpr hd) (List.replicate tcpServerRxBufsize 0), if_pos rfl]
        refine ⟨_, rfl, Takes.recved ?_ _⟩
        exact ⟨htakes.heap, htakes.log, hp⟩
      · rw [if_pos ⟨herr, hstate, hd⟩, copyRevdata_never (mt hends.mp hd) copyTurns
          (List.replicate tcpServerRxBufsize 0), if_neg Bool.false_ne_true]
        exact ⟨rfl, rfl⟩
    · rw [if_neg hstate, if_neg fun h => hstate h.2.1]
      refine ⟨_, rfl, ?_⟩
      have hrecved := htakes.recved (w₁.heap.pbufs w.heap.fresh).totLen
      exact ⟨hrecved.heap, hrecved.log, rfl⟩
  · rw [if_pos herr, if_neg fun h => herr h.1]
    exact ⟨w₁, rfl, htakes⟩

theorem idle_recv (h : Idle w) (hreg : w.phase = .registered) {d : Delivery} {err : Err}
    (hsound : Sound w (.recv d err)) : Idle (react w (.recv d err)) := by
  have hp := h.pending hreg
  have hrecv := react_recv hp d err
  rw [if_neg fun hstuck => hstuck.2.2 (hsound hstuck.1 hstuck.2.1)] at hrecv
  obtain ⟨w', hreact, htakes⟩ := hrecv
  rw [hreact]
  exact idle_free h hp htakes

theorem countP_fresh (h : Idle w) : w.log.countP (Event.releases w.heap.fresh) = 0 ∧
    w.log.countP (Event.obtains w.heap.fresh) = 0 := by
  have hnone {e : Event} (he : e ∈ w.log) : ¬ e.mentions w.heap.fresh = true :=
    fun hm => lt_irrefl _ (h.fresh e he _ hm)
  refine ⟨List.countP_eq_zero.mpr fun e he hr => hnone he ?_,
    List.countP_eq_zero.mpr fun e he ho => hnone he ?_⟩
  · exact mentions_eq_true.mpr (Or.inl (Or.inl (Or.inr hr)))
  · exact mentions_eq_true.mpr (Or.inl (Or.inl (Or.inl ho)))

theorem not_owned_recv (h : Idle w) (hreg : w.phase = .registered) {d : Delivery} {err : Err}
    (hsound : ¬ Sound w (.recv d err)) : ¬ Owned (react w (.recv d err)) := by
  have hp := h.pending hreg
  obtain ⟨herr, hsound⟩ := Classical.not_imp.mp hsound
  obtain ⟨hstate, hends⟩ := Classical.not_imp.mp hsound
  have hrecv := react_recv hp d err
  rw [if_pos ⟨herr, hstate, hends⟩] at hrecv
  intro howned
  have hcount := howned.released w.heap.fresh
  obtain ⟨hreleases, hobtains⟩ := countP_fresh h
  rw [if_neg (not_holds (hrecv.2.symm ▸ hp) _), hrecv.1] at hcount
  simp only [deliver, World.emit, List.countP_cons, hreleases, hobtains] at hcount
  simp [Event.releases, Event.obtains] at hcount

/-! ### The poll -/

theorem newMessage_spec (w : World) : (newMessage w).log = .obtained w.heap.fresh :: w.log ∧
    (newMessage w).es.p = some w.heap.fresh ∧ (newMessage w).phase = w.phase ∧
    (newMessage w).heap.fresh = w.heap.fresh + 1 ∧
    (newMessage w).heap.live w.heap.fresh = true := by
  simp [newMessage, pbufTake, pbufAlloc, Heap.new, World.setP, World.emit]

/-- The message leaves with the first answer, or not at all. -/
theorem senddata_newMessage (w : World) (a : ℕ × Err) (answers : List (ℕ × Err)) :
    tcpServerSenddata (newMessage w) (a :: answers) =
      if tcpServerSendbuf.length ≤ a.1 then
        let w' := (newMessage w).emit (.tcpWrite w.heap.fresh tcpServerSendbuf.length a.2)
        if a.2 = .ok then
          tcpRecved ((w'.setP none).free w.heap.fresh) tcpServerSendbuf.length
        else w'
      else newMessage w := by
  obtain ⟨-, hes, -, -, -⟩ := newMessage_spec w
  obtain ⟨hnext, hlen⟩ := newMessage_pbuf w
  obtain ⟨sndbuf, wrErr⟩ := a
  generalize newMessage w = w₁ at hes hnext hlen
  have hlast (e : Event) : (w₁.emit e).nextSegment w.heap.fresh = (w₁.emit e).setP none :=
    nextSegment_last hnext
  rw [tcpServerSenddata, hes]
  simp only [hlen, hlast]
  split_ifs with hfits hok hmem
  · refine senddata_null ?_ answers
    rw [tcpRecved, World.emit, free_es]
    rfl
  · exact setP_self hes
  · rfl
  · rfl

theorem messageSent_null {w' : World} (hphase : w'.phase ≠ .busy) (hes : w'.es.p = none) :
    messageSent w' =
      { w' with tcpServerFlag := clearFlag w'.tcpServerFlag senddataFlag } := by
  rw [messageSent, if_neg hphase]
  simp only [hes]

theorem messageSent_some {w' : World} {p : ℕ} (hphase : w'.phase ≠ .busy)
    (hes : w'.es.p = some p) : messageSent w' =
      World.free { w' with tcpServerFlag := clearFlag w'.tcpServerFlag senddataFlag } p := by
  rw [messageSent, if_neg hphase]
  simp only [hes]

theorem idle_waiting (h : Idle w) (hp : w.es.p = none) :
    Idle { newMessage w with phase := .busy } := by
  obtain ⟨hlog, hes, -, hfresh, hlive⟩ := newMessage_spec w
  have hholds (i : ℕ) : World.holds { newMessage w with phase := .busy } i ↔ w.heap.fresh = i := by
    rw [World.holds, hes, Option.some.injEq]
    exact and_iff_left (show Phase.busy ≠ .closed ∧ Phase.busy ≠ .gone by decide)
  have hreceipt := receipt_obtained w.heap.fresh
  refine idle_append h hp [.obtained w.heap.fresh] hlog (hfresh ▸ Nat.le_succ _)
    (fun e he i hm => ?_) (fun i => ?_) (fun i hi => ?_) (fun i => ?_) fun hr => ?_
  · obtain rfl := hreceipt.mentions e he i hm
    exact ⟨le_rfl, hfresh ▸ Nat.lt_succ_self _⟩
  · rw [hreceipt.obtained, List.countP_eq_zero.mpr fun e he => by
      rw [(hreceipt.kept e he i).1]; exact Bool.false_ne_true]
    simp only [hholds, Nat.zero_add]
  · obtain rfl := (hholds i).mp hi
    exact hlive
  · exact noUseAfterFree_of_unfreed fun e he => (hreceipt.kept e he i).2
  · cases hr

theorem freed_message {w' : World} (hheap : w'.heap = (newMessage w).heap) :
    ∀ j ∈ (pbufFree w'.heap w.heap.fresh).2, w.heap.fresh ≤ j ∧ j < w'.heap.fresh := by
  obtain ⟨-, -, -, hfresh, -⟩ := newMessage_spec w
  have hsubset := freed_subset (S := ({w.heap.fresh} : Set ℕ)) (w'.heap.fresh + 1) (h := w'.heap)
    (p := some w.heap.fresh) (fun i hi => (Option.some.inj hi).symm) fun i hi q hq => by
      obtain rfl : i = w.heap.fresh := hi
      rw [hheap, (newMessage_pbuf w).1] at hq
      cases hq
  intro j hj
  obtain rfl : j = w.heap.fresh := hsubset j hj
  rw [hheap, hfresh]
  exact ⟨le_rfl, Nat.lt_succ_self _⟩

theorem idle_sent (h : Idle w) (hreg : w.phase = .registered) {a : ℕ × Err}
    (answers : List (ℕ × Err)) (hfits : tcpServerSendbuf.length ≤ a.1) (hok : a.2 = .ok) :
    Idle (messageSent (tcpServerSenddata (newMessage w) (a :: answers))) := by
  have hp := h.pending hreg
  obtain ⟨hlog, -, hphase, hfresh, -⟩ := newMessage_spec w
  rw [senddata_newMessage, if_pos hfits, if_pos hok]
  generalize hw₁ : ((newMessage w).emit (.tcpWrite w.heap.fresh tcpServerSendbuf.length a.2)).setP
    none = w₁
  have hheap : w₁.heap = (newMessage w).heap := hw₁ ▸ rfl
  have hlog₁ : w₁.log = [.tcpWrite w.heap.fresh tcpServerSendbuf.length a.2,
      .obtained w.heap.fresh] ++ w.log := by
    rw [← hw₁, List.cons_append, List.singleton_append, ← hlog]
    rfl
  have hes : ((w₁.free w.heap.fresh).es).p = none := by
    rw [free_es, ← hw₁]
    rfl
  have hphase₁ : (w₁.free w.heap.fresh).phase ≠ .busy := by
    rw [free_phase, ← hw₁]
    exact fun hbusy => absurd ((hphase.trans hreg).symm.trans hbusy) (by decide)
  have hfree := free_log w₁ w.heap.fresh
  have hfreed := freed_message hheap
  have hlt : w.heap.fresh < (w₁.free w.heap.fresh).heap.fresh := by
    rw [free_fresh, hheap, hfresh]
    exact Nat.lt_succ_self _
  rw [← free_fresh w₁ w.heap.fresh] at hfreed
  generalize w₁.free w.heap.fresh = w₂ at hes hphase₁ hfree hfreed hlt
  rw [@messageSent_null (tcpRecved w₂ tcpServerSendbuf.length) hphase₁ hes]
  refine idle_released h hp _ [.tcpRecved tcpServerSendbuf.length] ?_
    ((receipt_obtained w.heap.fresh).written tcpServerSendbuf.length a.2) (fun e he i => ?_) hlt
    hfreed hes
  · rw [List.append_assoc, ← released_append, ← hlog₁, ← hfree]
    rfl
  · obtain rfl := List.mem_singleton.mp he
    rfl

theorem idle_poll (h : Idle w) (hreg : w.phase = .registered) {alloc : Bool}
    {answers : List (ℕ × Err)} (hsound : Sound w (.poll alloc answers)) :
    Idle (react w (.poll alloc answers)) := by
  have hp := h.pending hreg
  rw [react, tcpPollServer]
  split_ifs with hflag halloc hclosing
  · cases answers with
    | nil =>
      have hes := (newMessage_spec w).2.1
      have hwait : tcpServerSenddata (newMessage w) [] = { newMessage w with phase := .busy } := by
        rw [tcpServerSenddata, hes]
      rw [hwait, messageSent, if_pos rfl]
      exact idle_waiting h hp
    | cons a answers =>
      obtain ⟨hfits, hok⟩ := hsound halloc hflag a rfl
      exact idle_sent h hreg answers hfits hok
  · exact idle_same h hp rfl rfl rfl
  · exact idle_same h hp rfl rfl hp
  · exact h

/-- A poll that does not send its message leaves `es->p` dangling. -/
theorem not_owned_poll (h : Idle w) (hreg : w.phase = .registered) {alloc : Bool}
    {answers : List (ℕ × Err)} (hsound : ¬ Sound w (.poll alloc answers)) :
    ¬ Owned (react w (.poll alloc answers)) := by
  obtain ⟨halloc, hsound⟩ := Classical.not_imp.mp hsound
  obtain ⟨hflag, hsound⟩ := Classical.not_imp.mp hsound
  obtain ⟨a, hsound⟩ := not_forall.mp hsound
  obtain ⟨hhead, hunsent⟩ := Classical.not_imp.mp hsound
  obtain ⟨answers, rfl⟩ : ∃ rest, answers = a :: rest := by
    cases answers with
    | nil => cases hhead
    | cons b rest => exact ⟨rest, by rw [Option.some.inj hhead]⟩
  obtain ⟨hlog, hes, hphase, -, -⟩ := newMessage_spec w
  -- what is left of the message when `tcp_server_senddata` returns
  obtain ⟨w₁, hsend, log, hlog₁, hreceipt, hes₁, hphase₁⟩ : ∃ w₁,
      tcpServerSenddata (newMessage w) (a :: answers) = w₁ ∧ ∃ log, w₁.log = log ++ w.log ∧
        Receipt w.heap.fresh log ∧ w₁.es.p = some w.heap.fresh ∧ w₁.phase = .registered := by
    refine ⟨_, rfl, ?_⟩
    rw [senddata_newMessage]
    split_ifs with hfits hok
    · exact absurd ⟨hfits, hok⟩ hunsent
    · exact ⟨[.tcpWrite w.heap.fresh tcpServerSendbuf.length a.2, .obtained w.heap.fresh],
        congrArg (List.cons _) hlog, (receipt_obtained _).written _ _, hes, hphase.trans hreg⟩
    · exact ⟨[.obtained w.heap.fresh], hlog, receipt_obtained _, hes, hphase.trans hreg⟩
  have hbusy : w₁.phase ≠ .busy := fun hb => absurd (hphase₁.symm.trans hb) (by decide)
  have hreact : react w (.poll alloc (a :: answers)) =
      World.free { w₁ with tcpServerFlag := clearFlag w₁.tcpServerFlag senddataFlag }
        w.heap.fresh := by
    rw [react, tcpPollServer, if_pos hflag, if_pos halloc, hsend, messageSent_some hbusy hes₁]
  rw [hreact]
  intro howned
  have hcount := howned.released w.heap.fresh
  obtain ⟨hreleases, hobtains⟩ := countP_fresh h
  have hholds : World.holds (World.free { w₁ with
      tcpServerFlag := clearFlag w₁.tcpServerFlag senddataFlag } w.heap.fresh) w.heap.fresh := by
    rw [World.holds, free_es, free_phase]
    refine ⟨hes₁, ?_⟩
    rw [hphase₁]
    decide
  rw [if_pos hholds, free_log, hlog₁, released_append, List.countP_append, List.countP_append,
    countP_releases_released hreceipt, countP_obtains_released hreceipt, hreleases, hobtains,
    if_pos rfl] at hcount
  omega

end

/-! ## Runs -/

theorem step_idle {w w' : World} {i : Input} (h : Idle w) (hsound : Sound w i)
    (hs : step w i = some w') : Idle w' := by
  obtain ⟨hen, rfl⟩ := step_eq_some hs
  have hreg := registered_of_enabled hen
  have hp := h.pending hreg
  cases i with
  | recv d err => exact idle_recv h hreg hsound
  | fin err => exact idle_same h hp rfl rfl rfl
  | sent answers =>
    have hreact : react w (.sent answers) = w := by
      rw [react, tcpSentServer, hp]
      rfl
    rw [hreact]
    exact h
  | poll alloc answers => exact idle_poll h hreg hsound
  | err => exact idle_same h hp rfl rfl hp
  | request => exact idle_same h hp rfl rfl hp
  | reuse i pbuf => exact idle_same h hp rfl rfl hp

theorem step_breaks {w w' : World} {i : Input} (h : Idle w) (hsound : ¬ Sound w i)
    (hs : step w i = some w') : ¬ Owned w' := by
  obtain ⟨hen, rfl⟩ := step_eq_some hs
  have hreg := registered_of_enabled hen
  cases i with
  | recv d err => exact not_owned_recv h hreg hsound
  | poll alloc answers => exact not_owned_poll h hreg hsound
  | fin err | sent answers | err | request | reuse i pbuf => exact absurd trivial hsound

theorem idle_accepted (flag : U8) (revdata : List U8) : Idle (accepted flag revdata) := by
  have hp : (accepted flag revdata).es.p = none := rfl
  refine ⟨⟨fun i => ?_, fun i hi => absurd hi (not_holds hp i), fun i => trivial⟩,
    fun e he => absurd he List.not_mem_nil, fun _ => hp⟩
  rw [if_neg (not_holds hp i)]
  rfl

/-- In a run of the callbacks of an accepted connection every reference is released exactly once
and no freed pbuf is used, exactly if every step is sound. -/
theorem owned_iff_sound {flag : U8} {revdata : List U8} {run : List Input} {w : World}
    (hrun : exec step (accepted flag revdata) run = some w) :
    Along step Owned (accepted flag revdata) run ↔ Guarded step Sound (accepted flag revdata) run :=
  along_iff_guarded (fun _ h => h.owned) (fun _ _ _ => step_idle) (fun _ _ _ => step_breaks)
    (idle_accepted flag revdata) hrun

def oneByte : Delivery := ⟨.unshared [0x31], [], by decide⟩

/-- Data, a message with so much room in the send buffer, and an acknowledgement. -/
def messageRun (sndbuf : ℕ) : List Input :=
  [.recv oneByte .ok, .request, .poll true [(sndbuf, .ok)], .sent [(5840, .ok)], .fin .ok]

theorem owned_iff_sound_sample : ∃ w, exec step (accepted 0 (List.replicate 100 0))
    (messageRun 5840) = some w ∧
      Along step Owned (accepted 0 (List.replicate 100 0)) (messageRun 5840) :=
  ⟨_, rfl, (owned_iff_sound rfl).mpr (by decide)⟩

/-- The send buffer is one byte too small for the message, and the acknowledgement of other data
makes the server send it. -/
theorem message_released_twice : ∃ w, exec step (accepted 0 (List.replicate 100 0))
    (messageRun 22) = some w ∧ ¬ Owned w := by
  refine ⟨_, rfl, fun h => ?_⟩
  have hsafe := h.safe 1
  revert hsafe
  decide

end EnvirMonitor.Server
