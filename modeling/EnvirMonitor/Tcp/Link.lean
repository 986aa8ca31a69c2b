import EnvirMonitor.Tcp.Step
import Mathlib.Logic.Function.Basic

/-! Two ends and the network between them. A segment may be lost, may overtake others and may
arrive more than once, but not after 2^30 further bytes were written to the connection. -/

namespace EnvirMonitor.Tcp
open Machine
open Client (TcpState tcpMss tcpWnd)

inductive Side
  | client | server
  deriving DecidableEq

def Side.other : Side → Side
  | .client => .server
  | .server => .client

/-- A segment on its way, with the number of bytes written to the connection when it was sent. -/
structure Flight where
  w : Segment
  stamp : ℕ
  deriving DecidableEq

structure Link where
  ends : Side → Endpoint
  flights : Side → List Flight

inductive Action
  | call (c : AppCall)
  | slowtmr (late : Bool) (past : ℕ) (alloc : Bool)
  | fasttmr (scr : Endpoint.Script) (alloc : Bool)
  | arrive (w : Segment) (scr : Endpoint.Script) (alloc : Bool)

def Endpoint.act (t : Endpoint) : Action → Endpoint
  | .call c => t.call c
  | .slowtmr late past alloc => t.tcpSlowtmr late past alloc
  | .fasttmr scr alloc => t.tcpFasttmr scr alloc
  | .arrive w scr alloc => t.tcpInput w scr alloc

def TcpEvent.segment : TcpEvent → Option Segment
  | .sent w => some w
  | _ => none

namespace Link

def written (l : Link) : ℕ := (l.ends .client).written.length + (l.ends .server).written.length

/-- A segment arrives that the other end has sent, not too long ago. -/
def Possible (l : Link) (side : Side) : Action → Prop
  | .arrive w _ _ => ∃ f ∈ l.flights side.other, f.w = w ∧ l.written < f.stamp + 2 ^ 30
  | _ => True

def newFlights (t : Endpoint) (start stamp : ℕ) : List Flight :=
  ((t.log.drop start).filterMap TcpEvent.segment).map fun w => ⟨w, stamp⟩

def after (l : Link) (side : Side) (a : Action) : Link :=
  let t := (l.ends side).act a
  { ends := Function.update l.ends side t
    flights := Function.update l.flights side
      (l.flights side ++ newFlights t (l.ends side).log.length l.written) }

/-- No segment waits in `unsent` to be sent again while a later one stands in `unacked`. Where one
does, it may be the last of `unsent`, and `tcp_write` appends new bytes to it (`lateRun`). -/
def Settled (l : Link) : Prop := ∀ side, (l.ends side).pcb.sendVars.Settled

/-- The states of a run from `l₀` that stay settled. -/
inductive Reached (l₀ : Link) : Link → Prop
  | start : Reached l₀ l₀
  | step {l : Link} (side : Side) (a : Action) (h : Reached l₀ l) (hp : l.Possible side a)
      (hs : (l.after side a).Settled) : Reached l₀ (l.after side a)

def run (l : Link) (steps : List (Side × Action)) : Link :=
  steps.foldl (fun l step => l.after step.1 step.2) l

def Allowed : Link → List (Side × Action) → Prop
  | _, [] => True
  | l, (side, a) :: rest => l.Possible side a ∧ (l.after side a).Allowed rest

instance (l : Link) (side : Side) : (a : Action) → Decidable (l.Possible side a)
  | .arrive w _ _ => inferInstanceAs
    (Decidable (∃ f ∈ l.flights side.other, f.w = w ∧ l.written < f.stamp + 2 ^ 30))
  | .call _ | .slowtmr .. | .fasttmr .. => isTrue trivial

instance decidableAllowed :
    (l : Link) → (steps : List (Side × Action)) → Decidable (l.Allowed steps)
  | _, [] => isTrue trivial
  | l, (side, a) :: rest =>
    have := decidableAllowed (l.after side a) rest
    inferInstanceAs (Decidable (l.Possible side a ∧ (l.after side a).Allowed rest))

end Link

structure Established (base base' : U32) (pcb : Pcb) : Prop where
  state : pcb.state = .established
  tfFin : pcb.tfFin = false
  mss : pcb.mss ≤ tcpMss
  lastack : pcb.lastack = base
  sndNxt : pcb.sndNxt = base
  sndLbb : pcb.sndLbb = base
  sndBuf : pcb.sndBuf = tcpSndBuf
  unsentOversize : pcb.unsentOversize = 0
  unsent : pcb.unsent = []
  unacked : pcb.unacked = []
  rcvNxt : pcb.rcvNxt = base'
  rcvWnd : pcb.rcvWnd = tcpWnd
  refusedData : pcb.refusedData = none

structure Link.Start (base : Side → U32) (l : Link) : Prop where
  ends : ∀ side, Established (base side) (base side.other) (l.ends side).pcb
  log : ∀ side, (l.ends side).log = []
  flights : ∀ side, l.flights side = []

variable {base : Side → U32} {l l₀ : Link}

/-- Between steps: both ends, what they agree on, and what is on its way. -/
structure LinkInv (base : Side → U32) (una r : Side → ℕ) (l : Link) : Prop where
  ends : ∀ side, EndInv (base side) (base side.other) (l.ends side).stream
    (l.ends side.other).stream (l.ends side).log.length (una side) (r side) [] (l.ends side)
  agree : ∀ side, una side ≤ r side.other
  flights : ∀ side, ∀ f ∈ l.flights side, ∃ n n', f.stamp ≤ n + n' ∧
    n ≤ (l.ends side).written.length ∧ n' ≤ (l.ends side.other).written.length ∧
    Honest (base side) (base side.other) (l.ends side).stream n n' (r side) f.w

theorem Side.other_other (side : Side) : side.other.other = side := by
  cases side <;> rfl

theorem Side.other_ne (side : Side) : side.other ≠ side := by
  cases side <;> decide

theorem Link.written_eq (l : Link) (side : Side) :
    l.written = (l.ends side).written.length + (l.ends side.other).written.length := by
  cases side
  · rfl
  · exact Nat.add_comm _ _

/-! ## The start -/

theorem Established.sendInv {b b' : U32} {pcb : Pcb} (h : Established b b' pcb) :
    SendInv b ⟨[], false⟩ 0 0 pcb.sendVars := by
  have hchunks : pcb.sendVars.chunks = [] := by
    show (pcb.unacked ++ pcb.unsent).map TcpSeg.chunk = []
    rw [h.unacked, h.unsent]
    rfl
  refine
    { lastack := h.lastack.trans (place_zero b).symm
      sndNxt := h.sndNxt.trans (place_zero b).symm
      una_le := le_rfl
      nxt_le := Nat.zero_le _
      bounded := Nat.zero_le _
      fin := h.tfFin
      mss := h.mss
      writable := fun _ => rfl
      buffered := fun _ => ⟨h.sndLbb.trans (place_zero b).symm, h.sndBuf⟩
      queued := fun c hc => ?_
      covered := fun _ q _ hq => absurd hq (Nat.not_lt_zero q)
      room := fun last hl => ?_
      noRoom := fun _ => h.unsentOversize }
  · rw [hchunks] at hc
    exact absurd hc List.not_mem_nil
  · rw [show pcb.sendVars.unsent = [] from h.unsent] at hl
    exact absurd hl (Option.not_mem_none last)

theorem Link.Start.inv (h : Link.Start base l) : LinkInv base (fun _ => 0) (fun _ => 0) l := by
  have hwritten (side : Side) : (l.ends side).written = [] := by
    rw [Endpoint.written, h.log side]
    rfl
  have htaken (side : Side) : (l.ends side).taken = [] := by
    rw [Endpoint.taken, h.log side]
    rfl
  have hstream (side : Side) : (l.ends side).stream = ⟨[], false⟩ := by
    rw [Endpoint.stream, hwritten, (h.ends side).tfFin]
  refine ⟨fun side => ⟨?_, ?_⟩, fun _ => le_rfl, fun side f hf => ?_⟩
  · have he := h.ends side
    refine
      { grows := Stream.Grows.refl _
        send := ⟨0, hstream side ▸ he.sendInv⟩
        recv := ?_
        eof := fun hmem => ?_
        own := ?_
        other := ?_
        sent := fun w hw => ?_ }
    · rw [htaken, hstream]
      exact
        { rcvNxt := he.rcvNxt.trans (place_zero _).symm
          le := Nat.zero_le _
          window := he.rcvWnd.le
          isPrefix := List.prefix_refl _
          inOrder := Or.inl (by rw [RecvVars.refused_of_none he.refusedData]; rfl)
          oneHeld := Or.inl he.refusedData
          ended := fun _ => Nat.zero_le _
          refusedFin := fun data hd => absurd (he.refusedData.symm.trans hd)
            (Option.some_ne_none _).symm }
    · rw [h.log] at hmem
      exact absurd hmem List.not_mem_nil
    · rw [hstream]
      exact Nat.zero_le _
    · rw [hstream]
      exact Nat.zero_le _
    · rw [List.drop_length] at hw
      exact absurd hw List.not_mem_nil
  · show ((l.ends side).pcb.unacked ++ (l.ends side).pcb.unsent).Pairwise Precedes
    rw [(h.ends side).unacked, (h.ends side).unsent]
    exact List.Pairwise.nil
  · rw [h.flights side] at hf
    exact absurd hf List.not_mem_nil

/-! ## A step -/

/-- What was received of a stream was received of every later value of it. -/
theorem RecvInv.growStream {b : U32} {s s' : Stream} {r : ℕ} {received pending : List U8}
    {v : RecvVars} (h : RecvInv b s r received pending v) (hg : s.Grows s') :
    RecvInv b s' r received pending v := by
  have hle := h.le
  have hlen : s.len = s.data.length + s.fin.toNat := rfl
  have hend (hr : r = s.data.length + 1) : s'.data = s.data := by
    cases hf : s.fin with
    | true => exact (hg.2 hf).2
    | false =>
      rw [hlen, hf, Bool.toNat_false] at hle
      omega
  have htake : s'.data.take r = s.data.take r := by
    rcases Nat.lt_or_ge s.data.length r with hlt | hge
    · have hfin : s.fin.toNat ≤ 1 := Bool.toNat_le s.fin
      rw [hend (by omega)]
    · obtain ⟨rest, heq⟩ := hg.1
      rw [← heq, List.take_append_of_le_length hge]
  refine { h with
    le := hle.trans hg.len_le
    isPrefix := h.isPrefix.trans hg.1
    inOrder := ?_
    ended := fun hr => (h.ended hr).trans hg.1.length_le
    refusedFin := fun data hd => ?_ }
  · rw [htake]
    exact h.inOrder
  · have hr := h.refusedFin data hd
    rw [hend hr]
    exact hr

theorem EndInv.act {b b' : U32} {s s' : Stream} {start una r rp : ℕ} {t : Endpoint}
    (h : EndInv b b' s s' start una r [] t) (a : Action)
    (hw : ∀ w scr alloc, a = .arrive w scr alloc → Arrives b b' s s' rp w) (hle : una ≤ s.len) :
    Advances b b' s s' start una r rp (t.act a) := by
  cases a with
  | call c => exact (h.call c).1.advances
  | slowtmr late past alloc => exact (h.tcpSlowtmr late past alloc).advances
  | fasttmr scr alloc => exact (h.tcpFasttmr scr alloc).advances
  | arrive w scr alloc => exact h.tcpInput (hw w scr alloc rfl) hle scr alloc

/-- A segment that is not too old, as the other end meant it. -/
theorem LinkInv.arrives {una r : Side → ℕ} (h : LinkInv base una r l) {side : Side} {a : Action}
    (hp : l.Possible side a) (w : Segment) (scr : Endpoint.Script) (alloc : Bool)
    (ha : a = .arrive w scr alloc) :
    Arrives (base side) (base side.other) (l.ends side).stream (l.ends side.other).stream
      (r side.other) w := by
  subst ha
  obtain ⟨f, hf, rfl, hage⟩ := hp
  obtain ⟨n, n', hstamp, hn, hn', hhonest⟩ := h.flights side.other f hf
  rw [Side.other_other] at hn' hhonest
  rw [l.written_eq side] at hage
  have hbuf : tcpSndBuf = 5840 := rfl
  have hmss : tcpMss = 1460 := rfl
  have hlen : (l.ends side).stream.data.length = (l.ends side).written.length := rfl
  have hlen' : (l.ends side.other).stream.data.length = (l.ends side.other).written.length := rfl
  have hpeer := (h.ends side.other).recv.le
  rw [Side.other_other] at hpeer
  refine ⟨hhonest.syn, hpeer, fun hw => ?_, fun hw hpos => ?_⟩
  · obtain ⟨a, ha, hle, hna⟩ := hhonest.ack hw
    exact ⟨a, ha, hle, by omega⟩
  · obtain ⟨p, hp, hnp⟩ := hhonest.data hw hpos
    exact ⟨p, hp, by omega⟩

theorem mem_newFlights {t : Endpoint} {start stamp : ℕ} {f : Flight}
    (h : f ∈ Link.newFlights t start stamp) :
    TcpEvent.sent f.w ∈ t.log.drop start ∧ f.stamp = stamp := by
  obtain ⟨w, hw, rfl⟩ := List.mem_map.mp h
  obtain ⟨ev, hev, heq⟩ := List.mem_filterMap.mp hw
  refine ⟨?_, rfl⟩
  cases ev with
  | sent w' =>
    obtain rfl : w' = w := Option.some.inj heq
    exact hev
  | _ => exact absurd heq (by simp [TcpEvent.segment])

theorem Side.eq_or (side side' : Side) : side' = side ∨ side' = side.other := by
  cases side <;> cases side' <;> decide

theorem LinkInv.step {una r : Side → ℕ} (h : LinkInv base una r l) (side : Side) (a : Action)
    (hp : l.Possible side a) (hs : (l.after side a).Settled) :
    ∃ una' r', LinkInv base una' r' (l.after side a) := by
  have hend := h.ends side
  have hpeer := h.ends side.other
  rw [Side.other_other] at hpeer
  have hagree := h.agree side
  have hagree' := h.agree side.other
  rw [Side.other_other] at hagree'
  obtain ⟨nxt, hsend⟩ := hend.send
  obtain ⟨una', r', hle, hack, hle', hsettled⟩ := hend.act a (fun w scr alloc ha =>
    h.arrives hp w scr alloc ha) (hsend.una_le.trans hsend.nxt_le)
  have hself : (l.after side a).ends side = (l.ends side).act a := Function.update_self ..
  have hother : (l.after side a).ends side.other = l.ends side.other :=
    Function.update_of_ne (Side.other_ne side) ..
  have hnew := hsettled (hself ▸ hs side)
  have hgrow := hnew.grows
  obtain ⟨nxt', hsend'⟩ := hnew.send
  have hbound := hsend'.bounded
  have hbound' := hnew.other
  refine ⟨Function.update una side una', Function.update r side r', fun side' => ?_, fun side' => ?_,
    fun side' f hf => ?_⟩
  · rcases Side.eq_or side side' with rfl | rfl
    · rw [hself, hother, Function.update_self, Function.update_self]
      exact ⟨⟨Stream.Grows.refl _, hnew.send, hnew.recv, hnew.eof, hbound, hnew.other, fun w hw => by
        rw [List.drop_length] at hw
        exact absurd hw List.not_mem_nil⟩, hnew.ordered⟩
    · rw [Side.other_other, hself, hother, Function.update_of_ne (Side.other_ne side),
        Function.update_of_ne (Side.other_ne side)]
      refine ⟨⟨hpeer.grows, hpeer.send, hpeer.recv.growStream hgrow, fun hmem => ?_, hpeer.own, ?_,
        fun w hw => ?_⟩, hpeer.ordered⟩
      · obtain ⟨heq, hfin⟩ := hpeer.eof hmem
        exact ⟨heq.trans (hgrow.2 hfin).2.symm, (hgrow.2 hfin).1⟩
      · omega
      · rw [List.drop_length] at hw
        exact absurd hw List.not_mem_nil
  · rcases Side.eq_or side side' with rfl | rfl
    · rw [Function.update_self, Function.update_of_ne (Side.other_ne _)]
      omega
    · rw [Side.other_other, Function.update_self, Function.update_of_ne (Side.other_ne side)]
      exact hagree'.trans hle'
  · rcases Side.eq_or side side' with rfl | rfl
    · rw [hself, hother, Function.update_self]
      have hf' : f ∈ l.flights side' ++ Link.newFlights ((l.ends side').act a)
          (l.ends side').log.length l.written := by
        have : (l.after side' a).flights side' = _ := Function.update_self ..
        rwa [this] at hf
      rcases List.mem_append.mp hf' with hold | hfresh
      · obtain ⟨n, n', hstamp, hn, hn', hhonest⟩ := h.flights side' f hold
        exact ⟨n, n', hstamp, hn.trans hgrow.1.length_le, hn', hhonest.grow hgrow hle'⟩
      · obtain ⟨hsent, hstamp⟩ := mem_newFlights hfresh
        exact ⟨_, _, (hstamp.trans (l.written_eq side')).le, hgrow.1.length_le, le_rfl,
          hnew.sent f.w hsent⟩
    · rw [Side.other_other, hself, hother, Function.update_of_ne (Side.other_ne side)]
      have hf' : f ∈ l.flights side.other := by
        have : (l.after side a).flights side.other = _ := Function.update_of_ne (Side.other_ne side) ..
        rwa [this] at hf
      obtain ⟨n, n', hstamp, hn, hn', hhonest⟩ := h.flights side.other f hf'
      rw [Side.other_other] at hn' hhonest
      exact ⟨n, n', hstamp, hn, hn'.trans hgrow.1.length_le, hhonest⟩

theorem Link.Reached.inv (h₀ : Link.Start base l₀) (h : Link.Reached l₀ l) :
    ∃ una r, LinkInv base una r l := by
  induction h with
  | start => exact ⟨_, _, h₀.inv⟩
  | step side a _ hp hs ih =>
    obtain ⟨una, r, hinv⟩ := ih
    exact hinv.step side a hp hs

end EnvirMonitor.Tcp
