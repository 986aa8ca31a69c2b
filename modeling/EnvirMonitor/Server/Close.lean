import EnvirMonitor.Machine.Owners
import EnvirMonitor.Server.Connections

/-! A connection that is open keeps its record and its poll callback, unless `tcp_close` refuses:
the server then gives both up and lwIP keeps the block. -/

namespace EnvirMonitor.Server.Connections
open Machine Lwip
open Client (TcpState Err tcpWnd hasFlag setFlag clearFlag)

/-! ## The conditions -/

/-- The record is allocated and registered, and a later poll finds it. -/
def Retries (s : System) (p : Pcb) : Prop :=
  (∃ e, p.callbackArg = some e ∧ (s.es e).isSome = true) ∧ p.poll = true

/-- lwIP has closed or freed the block, or the record is still its argument. -/
def Settled (s : System) (id e : ℕ) : Prop :=
  ∀ p, s.pcbs id = some p → p.IsOpen → p.callbackArg = some e ∧ Retries s p

def Recoverable (s : System) : Prop := ∀ id p, s.pcbs id = some p → p.IsOpen → Retries s p

structure Pcb.Orphan (p : Pcb) : Prop where
  arg : p.callbackArg = none
  recv : p.recv ≠ .tcpRecvServer
  sent : p.sent = false
  errf : p.errf = false
  poll : p.poll = false

def NoOrphan (s : System) : Prop := ∀ id p, s.pcbs id = some p → p.IsOpen → ¬ p.Orphan

def System.closing (s : System) (id : ℕ) : Option Pcb :=
  (s.pcbs id).filter fun p => p.poll && !hasFlag s.tcpServerFlag senddataFlag &&
    (p.callbackArg.bind s.es).any fun d => d.state = .closing

/-- A new connection finds a record, and no close lacks the memory for its FIN. -/
def Supplied (s : System) : Input → Prop
  | .accept _ es => es.isSome = true
  | .poll id _ _ fin => ∀ p ∈ s.closing id, ¬ p.Refuses fin
  | _ => True

instance (s : System) : (i : Input) → Decidable (Supplied s i)
  | .accept .. => inferInstanceAs (Decidable (_ = _))
  | .poll id _ _ fin => inferInstanceAs (Decidable (∀ p ∈ s.closing id, ¬ p.Refuses fin))
  | .data .. | .fin .. | .finAcked _ | .sent .. | .remove _ | .request | .reuse .. => isTrue trivial

/-! ## One block -/

/-- `q` is what a step of lwIP has made of `p`. -/
structure Pcb.Narrows (p q : Pcb) : Prop where
  arg : q.callbackArg = p.callbackArg
  poll : q.poll = p.poll
  isOpen : q.IsOpen → p.IsOpen

namespace Pcb
variable (p : Pcb)

theorem Narrows.rfl {p : Pcb} : p.Narrows p := ⟨.refl _, .refl _, id⟩

theorem Narrows.trans {p q r : Pcb} (h : p.Narrows q) (h' : q.Narrows r) : p.Narrows r :=
  ⟨h'.arg.trans h.arg, h'.poll.trans h.poll, fun hr => h.isOpen (h'.isOpen hr)⟩

theorem narrows_tcpRecved (len : ℕ) : p.Narrows (p.tcpRecved len) := ⟨rfl, rfl, id⟩

theorem narrows_settle (log : List Event) : p.Narrows (p.settle log) := by
  induction log with
  | nil => exact .rfl
  | cons e log ih =>
    cases e with
    | tcpRecved len => exact ih.trans (narrows_tcpRecved _ len)
    | obtained | pbufRef | pbufFree | dealloc | tcpWrite | delivered => exact ih

theorem narrows_closed {p q : Pcb} (harg : q.callbackArg = p.callbackArg) (hpoll : q.poll = p.poll)
    (hclosed : ¬ q.IsOpen) : p.Narrows q :=
  ⟨harg, hpoll, fun h => absurd h hclosed⟩

theorem narrows_finReceived (acked : Bool) : p.Narrows (p.finReceived acked).finCounted := by
  unfold finReceived
  split
  next h => exact ⟨rfl, rfl, fun _ => .inr (.inl h)⟩
  next h =>
    cases acked
    · exact narrows_closed rfl rfl (by simp [IsOpen, finCounted])
    · exact narrows_closed rfl rfl (by simp [IsOpen, finCounted, purge])
  next h => exact narrows_closed rfl rfl (by simp [IsOpen, finCounted, purge])
  next => exact ⟨rfl, rfl, id⟩

theorem tcpClose_refused {p : Pcb} {fin : Err} (h : p.Refuses fin) :
    (p.tcpClose fin).1 = some { p with rxClosed := true } := by
  obtain ⟨hopen, hread, hfin⟩ := h
  unfold Unread at hread
  rcases hopen with hs | hs | hs <;>
    simp only [tcpClose, tcpCloseShutdown, hs, ne_eq, reduceCtorEq, not_false_eq_true, if_true,
      true_and, or_false, or_true, false_and, if_false, hfin] at hread ⊢
  all_goals rw [if_neg hread]

theorem tcpCloseShutdown_closed {p q : Pcb} {fin : Err} (h : ¬ p.Refuses fin)
    (hq : (p.tcpCloseShutdown true fin).1 = some q) : p.Narrows q ∧ ¬ q.IsOpen := by
  have hclosed {r : Pcb} (hq : some r = some q) (harg : r.callbackArg = p.callbackArg)
      (hpoll : r.poll = p.poll) (hr : ¬ r.IsOpen) : p.Narrows q ∧ ¬ q.IsOpen := by
    obtain rfl := Option.some.inj hq
    exact ⟨narrows_closed harg hpoll hr, hr⟩
  unfold tcpCloseShutdown at hq
  split at hq
  next hunread =>
    split at hq
    next => exact hclosed hq rfl rfl (by simp [IsOpen])
    next => cases hq
  next hread =>
    -- with everything read, an open block that stays open is one that lacks the FIN
    have hfin (hopen : p.IsOpen) : fin = .ok := by
      by_contra hfin
      exact h ⟨hopen, fun hu => hread ⟨rfl, hu⟩, hfin⟩
    split at hq
    next => cases hq
    next => cases hq
    next => cases hq
    next hs =>
      rw [if_pos (hfin (.inl hs))] at hq
      exact hclosed hq rfl rfl (by simp [IsOpen])
    next hs =>
      rw [if_pos (hfin (.inr (.inl hs)))] at hq
      exact hclosed hq rfl rfl (by simp [IsOpen])
    next hs =>
      rw [if_pos (hfin (.inr (.inr hs)))] at hq
      exact hclosed hq rfl rfl (by simp [IsOpen])
    next =>
      obtain rfl := Option.some.inj hq
      refine ⟨.rfl, ?_⟩
      rintro (hs | hs | hs) <;> contradiction

theorem tcpClose_closed {p q : Pcb} {fin : Err} (h : ¬ p.Refuses fin)
    (hq : (p.tcpClose fin).1 = some q) : p.Narrows q ∧ ¬ q.IsOpen := by
  unfold tcpClose at hq
  split at hq
  next =>
    obtain ⟨hq, hclosed⟩ := tcpCloseShutdown_closed (p := { p with rxClosed := true }) h hq
    exact ⟨⟨hq.arg, hq.poll, hq.isOpen⟩, hclosed⟩
  next => exact tcpCloseShutdown_closed h hq

end Pcb

/-! ## The invariant -/

def System.owner (s : System) (id : ℕ) : Option ℕ := (s.pcbs id).bind Pcb.callbackArg

def System.allocated (s : System) (e : ℕ) : Prop := (s.es e).isSome = true

structure Inv (s : System) : Prop where
  owners : Owners s.owner s.allocated
  retries : ∀ id p, s.pcbs id = some p → p.IsOpen → p.callbackArg.isSome = true ∧ p.poll = true

theorem Inv.recoverable {s : System} (h : Inv s) : Recoverable s := by
  intro id p hp hopen
  obtain ⟨harg, hpoll⟩ := h.retries id p hp hopen
  obtain ⟨e, he⟩ := Option.isSome_iff_exists.mp harg
  have howner : s.owner id = some e := by rw [System.owner, hp]; exact he
  exact ⟨⟨e, he, h.owners.allocated id e howner⟩, hpoll⟩

theorem Recoverable.noOrphan {s : System} (h : Recoverable s) : NoOrphan s := by
  intro id p hp hopen horphan
  have hpoll := (h id p hp hopen).2
  rw [horphan.poll] at hpoll
  cases hpoll

theorem inv_start (flag : U8) (revdata : List U8) : Inv (start flag revdata) :=
  ⟨Owners.none _, fun _ _ hp => absurd hp (by simp [start])⟩

section
variable {s s' : System} {id : ℕ} {o : Option Pcb}

theorem owner_update (hpcbs : s'.pcbs = Function.update s.pcbs id o) :
    s'.owner = Function.update s.owner id (o.bind Pcb.callbackArg) := by
  funext j
  unfold System.owner
  rw [hpcbs]
  exact Function.apply_update (fun _ q => Option.bind q Pcb.callbackArg) s.pcbs id o j

theorem retries_update (h : Inv s) (hpcbs : s'.pcbs = Function.update s.pcbs id o)
    (ho : ∀ q, o = some q → q.IsOpen → q.callbackArg.isSome = true ∧ q.poll = true) :
    ∀ j p, s'.pcbs j = some p → p.IsOpen → p.callbackArg.isSome = true ∧ p.poll = true := by
  intro j p hp
  rw [hpcbs] at hp
  rcases eq_or_ne j id with rfl | hne
  · rw [Function.update_self] at hp
    exact ho p hp
  · rw [Function.update_of_ne hne] at hp
    exact h.retries j p hp

/-- lwIP works on a block, or frees it without the server. -/
theorem Inv.narrow (h : Inv s) (hpcbs : s'.pcbs = Function.update s.pcbs id o)
    (ho : ∀ q, o = some q → ∃ p, s.pcbs id = some p ∧ p.Narrows q)
    (hes : ∀ e, s.allocated e → s'.allocated e) : Inv s' := by
  constructor
  · refine h.owners.shrink (fun j e hj => ?_) fun _ e _ => hes e
    rw [owner_update hpcbs] at hj
    rcases eq_or_ne j id with rfl | hne
    · rw [Function.update_self] at hj
      obtain ⟨q, hq, harg⟩ := Option.bind_eq_some_iff.mp hj
      obtain ⟨p, hp, hpq⟩ := ho q hq
      rw [System.owner, hp]
      exact hpq.arg.symm.trans harg
    · exact Function.update_of_ne hne _ s.owner ▸ hj
  · refine retries_update h hpcbs fun q hq hopen => ?_
    obtain ⟨p, hp, hpq⟩ := ho q hq
    rw [hpq.arg, hpq.poll]
    exact h.retries id p hp (hpq.isOpen hopen)

/-- The server gives up a block that is closed, and releases its record. -/
theorem Inv.release (h : Inv s) (hpcbs : s'.pcbs = Function.update s.pcbs id o)
    (ho : ∀ q, o = some q → q.callbackArg = none ∧ ¬ q.IsOpen)
    (hes : ∀ e, s.allocated e → s.owner id ≠ some e → s'.allocated e) : Inv s' := by
  constructor
  · have hnone : o.bind Pcb.callbackArg = none := by
      cases ho' : o with
      | none => rfl
      | some q => exact (ho q ho').1
    rw [owner_update hpcbs, hnone]
    exact h.owners.release id hes
  · exact retries_update h hpcbs fun q hq hopen => absurd hopen (ho q hq).2

theorem Inv.hand (h : Inv s) {q : Pcb} (hpcbs : s'.pcbs = Function.update s.pcbs id (some q))
    {e : ℕ} (harg : q.callbackArg = some e) (hpoll : q.poll = true) (hfree : s.es e = none)
    {d : ServerData} (hes : s'.es = Function.update s.es e (some d)) : Inv s' := by
  constructor
  · rw [owner_update hpcbs]
    show Owners (Function.update s.owner id q.callbackArg) _
    rw [harg]
    refine h.owners.hand id (by simp [System.allocated, hfree]) ?_ fun c hc => ?_
    · simp [System.allocated, hes]
    · have hne : c ≠ e := by
        rintro rfl
        rw [System.allocated, hfree] at hc
        cases hc
      rwa [System.allocated, hes, Function.update_of_ne hne]
  · refine retries_update h hpcbs fun q' hq' _ => ?_
    obtain rfl := Option.some.inj hq'
    rw [harg]
    exact ⟨rfl, hpoll⟩

end

/-! ## The steps -/

section
variable {s : System} {id : ℕ}

theorem inv_memory (h : Inv s) {s' : System} (hpcbs : s'.pcbs = s.pcbs) (hes : s'.es = s.es) :
    Inv s' := by
  have howner : s'.owner = s.owner := by
    unfold System.owner
    rw [hpcbs]
  have halloc : s'.allocated = s.allocated := by
    unfold System.allocated
    rw [hes]
  refine ⟨?_, fun j p hp => ?_⟩
  · rw [howner, halloc]
    exact h.owners
  · rw [hpcbs] at hp
    exact h.retries j p hp

theorem inv_setPcb (h : Inv s) {p q : Pcb} (hp : s.pcbs id = some p) (hq : p.Narrows q) :
    Inv (s.setPcb id (some q)) := by
  apply h.narrow rfl
  · intro q' hq'
    obtain rfl := Option.some.inj hq'
    exact ⟨p, hp, hq⟩
  · exact fun _ he => he

theorem inv_configure (h : Inv s) (id : ℕ) {f : Pcb → Pcb} (hf : ∀ p : Pcb, p.Narrows (f p)) :
    Inv (s.configure id f) := by
  apply h.narrow rfl
  · intro q hq
    obtain ⟨p, hp, rfl⟩ := Option.map_eq_some_iff.mp hq
    exact ⟨p, hp, hf p⟩
  · exact fun _ he => he

theorem inv_resume (h : Inv s) (w : World) {e : ℕ} (he : s.allocated e) :
    Inv (s.resume id e w) := by
  apply h.narrow rfl
  · intro q hq
    obtain ⟨p, hp, rfl⟩ := Option.map_eq_some_iff.mp hq
    exact ⟨p, hp, p.narrows_settle w.log⟩
  · intro c hc
    show (Function.update s.es e (some w.es) c).isSome = true
    rcases eq_or_ne c e with rfl | hne
    · rw [Function.update_self]
      rfl
    · rwa [Function.update_of_ne hne]

theorem inv_onRecord (h : Inv s) (arg : Option ℕ) (f : World → World) :
    Inv (s.onRecord id arg f) := by
  unfold System.onRecord
  cases arg with
  | none => exact inv_memory h rfl rfl
  | some e =>
    cases hd : s.es e with
    | none =>
      simp only [hd]
      exact inv_memory h rfl rfl
    | some d =>
      simp only [hd]
      exact inv_resume h _ (Option.isSome_iff_exists.mpr ⟨d, hd⟩)

theorem allocated_memFree {p : Pcb} (hp : s.pcbs id = some p) {e c : ℕ}
    (harg : p.callbackArg = some e) (hc : s.allocated c) (howner : s.owner id ≠ some c) :
    (s.memFree e).allocated c := by
  have hne : c ≠ e := by
    rintro rfl
    apply howner
    rw [System.owner, hp]
    exact harg
  show (Function.update s.es e none c).isSome = true
  rwa [Function.update_of_ne hne]

theorem inv_free (h : Inv s) : Inv (s.setPcb id none) := by
  apply h.narrow rfl
  · exact fun q hq => absurd hq (by simp)
  · exact fun _ he => he

theorem inv_tcpAbandon (h : Inv s) (id : ℕ) : Inv (tcpAbandon s id) := by
  unfold tcpAbandon
  cases hp : s.pcbs id with
  | none => exact h
  | some p =>
    show Inv (if p.state = .timeWait then s.setPcb id none else eventErr (s.setPcb id none) p)
    split_ifs
    · exact inv_free h
    · unfold eventErr tcpErrServer
      split_ifs
      · cases harg : p.callbackArg with
        | none => exact inv_free h
        | some e =>
          apply h.release rfl
          · exact fun q hq => absurd hq (by simp)
          · exact fun c hc howner => allocated_memFree hp harg hc howner
      · exact inv_free h

theorem inv_tcpClose (h : Inv s) (id : ℕ) (fin : Err) : Inv (tcpClose s id fin).1 := by
  apply h.narrow rfl
  · intro q hq
    obtain ⟨p, hp, hpq⟩ := Option.bind_eq_some_iff.mp hq
    refine ⟨p, hp, ?_⟩
    by_cases hrefuses : p.Refuses fin
    · obtain rfl := Option.some.inj ((Pcb.tcpClose_refused hrefuses).symm.trans hpq)
      exact ⟨rfl, rfl, fun hopen => hopen⟩
    · exact (Pcb.tcpClose_closed hrefuses hpq).1
  · exact fun _ he => he

end

/-! ## Accepting and closing -/

namespace Pcb

def equipped (p : Pcb) (e : ℕ) : Pcb :=
  { p with callbackArg := some e, recv := .tcpRecvServer, sent := true, errf := true, poll := true }

def stripped (p : Pcb) : Pcb :=
  { p with callbackArg := none, recv := .null, sent := false, errf := false, poll := false }

theorem orphan_stripped (p : Pcb) : p.stripped.Orphan := ⟨rfl, by simp [stripped], rfl, rfl, rfl⟩

end Pcb

section
variable (s : System) (id : ℕ)

theorem pcbs_tcpAcceptServer (e : ℕ) : (tcpAcceptServer s id (some e)).pcbs =
    Function.update s.pcbs id ((s.pcbs id).map (·.equipped e)) := by
  simp only [tcpAcceptServer, tcpArg, tcpRecv, tcpSent, tcpErr, tcpPoll, System.configure,
    System.setPcb, Function.update_self, Function.update_idem, Option.map_map]
  rfl

theorem pcbs_tcpServerConnectClose (es : Option ℕ) (fin : Err) :
    (tcpServerConnectClose s id es fin).pcbs = Function.update s.pcbs id
      (((s.pcbs id).bind fun p => (p.tcpClose fin).1).map Pcb.stripped) := by
  cases es <;>
  · simp only [tcpServerConnectClose, tcpClose, tcpArg, tcpRecv, tcpSent, tcpErr, tcpPoll,
      System.configure, System.setPcb, Function.update_self, Function.update_idem, Option.map_map]
    rfl

end

section
variable {s : System} {id : ℕ}

theorem inv_accept (h : Inv s) {e : ℕ} (he : s.es e = none) :
    Inv (tcpAcceptServer (s.setPcb id (some .handshaken)) id (some e)) := by
  have hpcbs := pcbs_tcpAcceptServer (s.setPcb id (some .handshaken)) id e
  simp only [System.setPcb, Function.update_self, Function.update_idem] at hpcbs
  exact h.hand hpcbs rfl rfl he rfl

theorem inv_tcpServerConnectClose (h : Inv s) {p : Pcb} (hp : s.pcbs id = some p) {e : ℕ}
    (harg : p.callbackArg = some e) {fin : Err} (hfin : ¬ p.Refuses fin) :
    Inv (tcpServerConnectClose s id (some e) fin) := by
  apply h.release (pcbs_tcpServerConnectClose s id (some e) fin)
  · intro q hq
    rw [hp] at hq
    obtain ⟨r, hr, rfl⟩ := Option.map_eq_some_iff.mp hq
    exact ⟨rfl, (Pcb.tcpClose_closed hfin hr).2⟩
  · exact fun c hc howner => allocated_memFree hp harg hc howner

theorem pcbs_refused {p : Pcb} (hp : s.pcbs id = some p) {fin : Err} (hfin : p.Refuses fin)
    (es : Option ℕ) : (tcpServerConnectClose s id es fin).pcbs id =
      some (Pcb.stripped { p with rxClosed := true }) := by
  rw [pcbs_tcpServerConnectClose, Function.update_self, hp, Option.bind_some,
    Pcb.tcpClose_refused hfin]
  rfl

/-- After the close the connection is settled, exactly if `tcp_close` was not refused. -/
theorem settled_iff {p : Pcb} (hp : s.pcbs id = some p) (e : ℕ) (fin : Err) :
    Settled (tcpServerConnectClose s id (some e) fin) id e ↔ ¬ p.Refuses fin := by
  constructor
  · intro hsettled hfin
    have harg := (hsettled _ (pcbs_refused hp hfin (some e)) hfin.1).1
    cases harg
  · intro hfin q hq hopen
    rw [pcbs_tcpServerConnectClose, Function.update_self, hp] at hq
    obtain ⟨r, hr, rfl⟩ := Option.map_eq_some_iff.mp hq
    exact absurd hopen (Pcb.tcpClose_closed hfin hr).2

/-! ## Runs -/

theorem mem_closing {p : Pcb} : p ∈ s.closing id ↔ s.pcbs id = some p ∧ p.poll = true ∧
    hasFlag s.tcpServerFlag senddataFlag = false ∧
      ∃ e d, p.callbackArg = some e ∧ s.es e = some d ∧ d.state = .closing := by
  unfold System.closing
  rw [Option.mem_def, Option.filter_eq_some_iff]
  apply and_congr_right
  intro _
  rw [Bool.and_eq_true, Bool.and_eq_true, Bool.not_eq_true', Option.any_eq_true, and_assoc]
  refine and_congr_right fun _ => and_congr_right fun _ => ?_
  constructor
  · rintro ⟨d, hd, hstate⟩
    obtain ⟨e, he, hd⟩ := Option.bind_eq_some_iff.mp hd
    exact ⟨e, d, he, hd, of_decide_eq_true hstate⟩
  · rintro ⟨e, d, he, hd, hstate⟩
    exact ⟨d, Option.bind_eq_some_iff.mpr ⟨e, he, hd⟩, decide_eq_true hstate⟩

theorem eventPoll_closing {p : Pcb} (hp : p ∈ s.closing id) (alloc : Bool)
    (answers : List (ℕ × Err)) (fin : Err) : ∃ e, p.callbackArg = some e ∧
      eventPoll s id alloc answers fin p = tcpServerConnectClose s id (some e) fin := by
  obtain ⟨-, hpoll, hflag, e, d, harg, hd, hstate⟩ := mem_closing.mp hp
  refine ⟨e, harg, ?_⟩
  simp only [eventPoll, tcpPollServer, hpoll, hflag, harg, hd, hstate, if_true]
  rfl

theorem inv_tcpPollServer (h : Inv s) {arg : Option ℕ} {alloc : Bool} {answers : List (ℕ × Err)}
    {fin : Err} (hclose : ∀ e d, arg = some e → s.es e = some d →
      hasFlag s.tcpServerFlag senddataFlag = false → d.state = .closing →
        Inv (tcpServerConnectClose s id (some e) fin)) :
    Inv (tcpPollServer s id arg alloc answers fin) := by
  unfold tcpPollServer
  cases arg with
  | none => exact inv_tcpAbandon h id
  | some e =>
    cases hd : s.es e with
    | none =>
      simp only [hd]
      exact inv_memory h rfl rfl
    | some d =>
      simp only [hd]
      split_ifs with hflag hstate
      · exact inv_resume h _ (Option.isSome_iff_exists.mpr ⟨d, hd⟩)
      · exact hclose e d rfl hd (Bool.eq_false_of_not_eq_true hflag) hstate
      · exact h

theorem inv_eventPoll (h : Inv s) {p : Pcb} (hp : s.pcbs id = some p) (alloc : Bool)
    (answers : List (ℕ × Err)) {fin : Err} (hfin : ∀ p ∈ s.closing id, ¬ p.Refuses fin) :
    Inv (eventPoll s id alloc answers fin p) := by
  unfold eventPoll
  by_cases hpoll : p.poll = true
  · rw [if_pos hpoll]
    apply inv_tcpPollServer h
    intro e d harg hd hflag hstate
    have hclosing := mem_closing.mpr ⟨hp, hpoll, hflag, e, d, harg, hd, hstate⟩
    exact inv_tcpServerConnectClose h hp harg (hfin p hclosing)
  · rwa [if_neg hpoll]

theorem inv_inputData (h : Inv s) {p : Pcb} (hp : s.pcbs id = some p) (d : Delivery) :
    Inv (inputData s id d p) := by
  have hset : Inv (s.setPcb id (some { p with rcvWnd := p.rcvWnd - segmentsLen d.segments })) :=
    inv_setPcb h hp ⟨rfl, rfl, fun hopen => hopen⟩
  unfold inputData
  dsimp only
  split_ifs
  · exact inv_tcpAbandon hset id
  · split
    next => exact inv_onRecord hset _ _
    next => exact inv_configure hset id fun p => p.narrows_tcpRecved _

theorem inv_inputFin (h : Inv s) {p : Pcb} (hp : s.pcbs id = some p) (acked : Bool) (fin : Err) :
    Inv (inputFin s id acked fin p) := by
  have hset : Inv (s.setPcb id (some (p.finReceived acked).finCounted)) :=
    inv_setPcb h hp (p.narrows_finReceived acked)
  unfold inputFin
  cases p.recv with
  | tcpRecvServer => exact inv_onRecord hset _ _
  | tcpRecvNull => exact inv_tcpClose hset id fin
  | null => exact hset

theorem inv_inputFinAcked (h : Inv s) {p : Pcb} (hp : s.pcbs id = some p) :
    Inv (inputFinAcked s id p) := by
  unfold inputFinAcked
  split
  next => exact inv_setPcb h hp (Pcb.narrows_closed rfl rfl (by simp [Pcb.IsOpen]))
  next => exact inv_setPcb h hp (Pcb.narrows_closed rfl rfl (by simp [Pcb.IsOpen]))
  next =>
    split_ifs
    · exact inv_free h
    · exact inv_tcpAbandon h id
  next => exact h

theorem inv_eventSent (h : Inv s) (answers : List (ℕ × Err)) (p : Pcb) :
    Inv (eventSent s id answers p) := by
  unfold eventSent
  split_ifs
  · exact inv_onRecord h _ _
  · exact h

end

section
variable {s s' : System} {i : Input}

theorem inv_elim (h : Inv s) {id : ℕ} {f : Pcb → System}
    (hf : ∀ p, s.pcbs id = some p → Inv (f p)) : Inv ((s.pcbs id).elim s f) := by
  cases hp : s.pcbs id with
  | none => exact h
  | some p => exact hf p hp

theorem step_inv (h : Inv s) (hsupplied : Supplied s i) (hs : step s i = some s') : Inv s' := by
  obtain ⟨hen, rfl⟩ := step_eq_some hs
  cases i with
  | accept id es =>
    obtain ⟨e, rfl⟩ := Option.isSome_iff_exists.mp hsupplied
    obtain ⟨-, hfree⟩ := Bool.and_eq_true_iff.mp hen
    exact inv_accept h (Option.isNone_iff_eq_none.mp hfree)
  | data id d => exact inv_elim h fun p hp => inv_inputData h hp d
  | fin id acked fin => exact inv_elim h fun p hp => inv_inputFin h hp acked fin
  | finAcked id => exact inv_elim h fun p hp => inv_inputFinAcked h hp
  | sent id answers => exact inv_elim h fun p _ => inv_eventSent h answers p
  | poll id alloc answers fin =>
    exact inv_elim h fun p hp => inv_eventPoll h hp alloc answers hsupplied
  | remove id => exact inv_tcpAbandon h id
  | request | reuse i pbuf => exact inv_memory h rfl rfl

/-- Without a record for a new connection the code hangs, and the block has no callbacks; without
memory for the FIN the server takes them away. -/
theorem step_orphans (hsupplied : ¬ Supplied s i) (hs : step s i = some s') : ¬ NoOrphan s' := by
  obtain ⟨hen, rfl⟩ := step_eq_some hs
  cases i with
  | accept id es =>
    obtain rfl := Option.not_isSome_iff_eq_none.mp hsupplied
    intro hno
    refine hno id .handshaken (Function.update_self _ _ _) (.inr (.inl rfl)) ?_
    exact ⟨rfl, by simp [Pcb.handshaken], rfl, rfl, rfl⟩
  | poll id alloc answers fin =>
    obtain ⟨p, hclosing, hfin⟩ : ∃ p ∈ s.closing id, p.Refuses fin := by
      by_contra hno
      exact hsupplied fun p hp hfin => hno ⟨p, hp, hfin⟩
    have hp := (mem_closing.mp hclosing).1
    obtain ⟨e, -, heq⟩ := eventPoll_closing hclosing alloc answers fin
    have hreact : react s (.poll id alloc answers fin) = tcpServerConnectClose s id (some e) fin := by
      show (s.pcbs id).elim s (eventPoll s id alloc answers fin) = _
      rw [hp]
      exact heq
    rw [hreact]
    intro hno
    exact hno id _ (pcbs_refused hp hfin (some e)) hfin.1 (Pcb.orphan_stripped _)
  | data | fin | finAcked | sent | remove | request | reuse => exact absurd trivial hsupplied

end

/-- A run leaves no open block behind, and none without its record, exactly if no close of it is
refused and every connection finds a record; a single call settles its connection exactly if
`tcp_close` is not refused. -/
theorem close_settles_iff {flag : U8} {revdata : List U8} {run : List Input} {s : System}
    (hrun : exec step (start flag revdata) run = some s) :
    (Along step Recoverable (start flag revdata) run ↔
      Guarded step Supplied (start flag revdata) run) ∧
    (Along step NoOrphan (start flag revdata) run ↔
      Guarded step Supplied (start flag revdata) run) ∧
    ∀ (t : System) (id : ℕ) (p : Pcb) (e : ℕ) (fin : Err), t.pcbs id = some p →
      (Settled (tcpServerConnectClose t id (some e) fin) id e ↔ ¬ p.Refuses fin) := by
  refine ⟨?_, ?_, fun t id p e fin hp => settled_iff hp e fin⟩
  · apply along_iff_guarded (fun _ h => h.recoverable) (fun _ _ _ => step_inv) _
      (inv_start flag revdata) hrun
    exact fun _ _ _ _ hsupplied hs hrec => step_orphans hsupplied hs hrec.noOrphan
  · apply along_iff_guarded (fun _ h => h.recoverable.noOrphan) (fun _ _ _ => step_inv) _
      (inv_start flag revdata) hrun
    exact fun _ _ _ _ => step_orphans

/-- A connection, the peer's FIN, and the poll that closes. -/
def closeRun (fin : Err) : List Input := [.accept 0 (some 0), .fin 0 false .ok, .poll 0 true [] fin]

theorem close_settles_iff_sample :
    ∃ s, exec step (start 0 (List.replicate 100 0)) (closeRun .ok) = some s ∧
      Along step Recoverable (start 0 (List.replicate 100 0)) (closeRun .ok) ∧
      Along step NoOrphan (start 0 (List.replicate 100 0)) (closeRun .ok) ∧
      Settled (tcpServerConnectClose ((start 0 (List.replicate 100 0)).setPcb 0
        (some (Pcb.handshaken.equipped 0))) 0 (some 0) .ok) 0 0 := by
  obtain ⟨hrec, hno, hcall⟩ := @close_settles_iff 0 (List.replicate 100 0) (closeRun .ok) _ rfl
  exact ⟨_, rfl, hrec.mpr (by decide), hno.mpr (by decide), (hcall _ 0 _ 0 .ok rfl).mpr (by decide)⟩

/-- lwIP keeps the block, and neither a callback nor a record is left to close it. -/
theorem refused_close_orphans : ∃ s, exec step (start 0 (List.replicate 100 0)) (closeRun .mem) =
    some s ∧
    s.pcbs 0 = some ⟨.closeWait, none, .null, false, false, false, tcpWnd, false, true⟩ ∧
      s.es 0 = none ∧ ¬ Recoverable s ∧ ¬ NoOrphan s := by
  refine ⟨_, rfl, rfl, rfl, fun hrec => ?_, fun hno => ?_⟩
  · exact absurd (hrec 0 _ rfl (.inr (.inr rfl))).2 Bool.false_ne_true
  · exact hno 0 _ rfl (.inr (.inr rfl)) (Pcb.orphan_stripped _)

end EnvirMonitor.Server.Connections
