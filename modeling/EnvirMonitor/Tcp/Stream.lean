import EnvirMonitor.Tcp.Input

/-! The stream of one direction of a connection, what a segment carries of it, and the two ends of
the direction: a sender that keeps what is not acknowledged, and a receiver in step with it. -/

namespace EnvirMonitor.Tcp
open Machine
open Client (TcpState tcpMss tcpWnd)

/-- The bytes given to `tcp_write` so far, and whether a FIN is queued behind them. -/
structure Stream where
  data : List U8
  fin : Bool

namespace Stream

def len (s : Stream) : ℕ := s.data.length + s.fin.toNat

/-- A later value of the stream: nothing comes behind a FIN. -/
def Grows (s s' : Stream) : Prop :=
  s.data <+: s'.data ∧ (s.fin = true → s'.fin = true ∧ s'.data = s.data)

theorem Grows.refl (s : Stream) : s.Grows s := ⟨List.prefix_refl _, fun h => ⟨h, rfl⟩⟩

theorem Grows.trans {s s' s'' : Stream} (h : s.Grows s') (h' : s'.Grows s'') : s.Grows s'' := by
  refine ⟨h.1.trans h'.1, fun hfin => ?_⟩
  obtain ⟨hfin', heq⟩ := h.2 hfin
  obtain ⟨hfin'', heq'⟩ := h'.2 hfin'
  exact ⟨hfin'', heq'.trans heq⟩

theorem Grows.len_le {s s' : Stream} (h : s.Grows s') : s.len ≤ s'.len := by
  have hlen := h.1.length_le
  unfold len
  cases hfin : s.fin with
  | false => rw [Bool.toNat_false]; omega
  | true =>
    obtain ⟨hfin', heq⟩ := h.2 hfin
    rw [hfin', heq]

end Stream

structure Chunk where
  seqno : U32
  data : List U8
  fin : Bool

def Chunk.tcplen (c : Chunk) : ℕ := c.data.length + c.fin.toNat

def TcpSeg.chunk (seg : TcpSeg) : Chunk := ⟨seg.seqno, seg.data, seg.fin⟩
def Segment.chunk (w : Segment) : Chunk := ⟨w.seqno, w.data, w.fin⟩

theorem TcpSeg.tcplen_chunk (seg : TcpSeg) : seg.chunk.tcplen = seg.tcplen := rfl

structure ChunkAt (base : U32) (s : Stream) (c : Chunk) (p : ℕ) : Prop where
  seqno : c.seqno = place base p
  data : StandsAt s.data p c.data
  fin : c.fin = true → s.fin = true ∧ p + c.data.length = s.data.length

namespace ChunkAt

variable {base : U32} {s s' : Stream} {c : Chunk} {p : ℕ}

theorem end_le (h : ChunkAt base s c p) : p + c.tcplen ≤ s.len := by
  have := h.data.length_le
  unfold Chunk.tcplen Stream.len
  cases hfin : c.fin with
  | false => rw [Bool.toNat_false]; omega
  | true =>
    obtain ⟨hs, hend⟩ := h.fin hfin
    rw [hs]
    omega

theorem grow (h : ChunkAt base s c p) (hs : s.Grows s') : ChunkAt base s' c p := by
  refine ⟨h.seqno, h.data.grow hs.1, fun hfin => ?_⟩
  obtain ⟨hfin', hend⟩ := h.fin hfin
  obtain ⟨hfin'', heq⟩ := hs.2 hfin'
  exact ⟨hfin'', by rw [heq, hend]⟩

theorem seqno_end (h : ChunkAt base s c p) :
    c.seqno + BitVec.ofNat 32 c.tcplen = place base (p + c.tcplen) := by
  rw [h.seqno, place_add]

theorem first (h : ChunkAt base s c p) : ChunkAt base s ⟨c.seqno, c.data.take 1, false⟩ p :=
  ⟨h.seqno, h.data.take 1, fun hfin => absurd hfin Bool.false_ne_true⟩

end ChunkAt

/-! ## Comparisons of near positions -/

section
variable {base : U32} {p q : ℕ}

theorem tcpSeqLt_iff (h : Near 32 p q) : tcpSeqLt (place base p) (place base q) ↔ p < q := by
  rw [tcpSeqLt, toInt_place_sub base (by decide) h]
  omega

theorem tcpSeqLeq_iff (h : Near 32 p q) : tcpSeqLeq (place base p) (place base q) ↔ p ≤ q := by
  rw [tcpSeqLeq, toInt_place_sub base (by decide) h]
  omega

theorem tcpSeqGeq_iff (h : Near 32 p q) : tcpSeqGeq (place base p) (place base q) ↔ q ≤ p := by
  rw [tcpSeqGeq, toInt_place_sub base (by decide) h]
  omega

theorem tcpSeqBetween_iff {r : ℕ} (h : Near 32 p q) (h' : Near 32 p r) :
    tcpSeqBetween (place base p) (place base q) (place base r) ↔ q ≤ p ∧ p ≤ r := by
  rw [tcpSeqBetween, tcpSeqGeq_iff h, tcpSeqLeq_iff h']

end

/-! ## The sender -/

structure SendVars where
  state : TcpState
  tfFin : Bool
  mss : ℕ
  lastack : U32
  sndNxt : U32
  sndLbb : U32
  sndWndMax : ℕ
  sndBuf : ℕ
  unsentOversize : ℕ
  unsent : List TcpSeg
  unacked : List TcpSeg

def Pcb.sendVars (pcb : Pcb) : SendVars :=
  ⟨pcb.state, pcb.tfFin, pcb.mss, pcb.lastack, pcb.sndNxt, pcb.sndLbb, pcb.sndWndMax, pcb.sndBuf,
    pcb.unsentOversize, pcb.unsent, pcb.unacked⟩

/-- The queues are kept in every state but the last two. -/
def Keeps (state : TcpState) : Prop := state ≠ .timeWait ∧ state ≠ .closed

/-- `tcp_write` works. -/
def Writable (state : TcpState) : Prop := state = .established ∨ state = .closeWait

instance (state : TcpState) : Decidable (Keeps state) := inferInstanceAs (Decidable (_ ∧ _))

instance (state : TcpState) : Decidable (Writable state) := inferInstanceAs (Decidable (_ ∨ _))

namespace SendVars

def mssLocal (v : SendVars) : ℕ := min v.mss (v.sndWndMax / 2)

def chunks (v : SendVars) : List Chunk := (v.unacked ++ v.unsent).map TcpSeg.chunk

/-- The first segment of `unsent` is behind the last one of `unacked`. -/
def Settled (v : SendVars) : Prop :=
  ∀ a ∈ v.unacked.getLast?, ∀ b ∈ v.unsent.head?, tcpSeqLt a.seqno b.seqno

instance (v : SendVars) : Decidable v.Settled :=
  inferInstanceAs (Decidable (∀ a ∈ v.unacked.getLast?, ∀ b ∈ v.unsent.head?,
    tcpSeqLt a.seqno b.seqno))

end SendVars

def Precedes (a b : TcpSeg) : Prop :=
  tcpSeqLeq (a.seqno + BitVec.ofNat 32 a.tcplen) b.seqno

def Ordered (v : SendVars) : Prop := (v.unacked ++ v.unsent).Pairwise Precedes

structure Sorted (v : SendVars) : Prop where
  unacked : v.unacked.Pairwise Precedes
  unsent : v.unsent.Pairwise Precedes
  apart : ∀ a ∈ v.unacked, ∀ b ∈ v.unsent, Precedes a b ∨ Precedes b a

/-- A queued segment at position `p`, with something behind the acknowledged position `una`. -/
structure QueuedAt (base : U32) (s : Stream) (una limit : ℕ) (c : Chunk) (p : ℕ) : Prop
    extends ChunkAt base s c p where
  live : una < p + c.tcplen
  nonempty : 0 < c.tcplen
  short : c.data.length ≤ limit

/-- The sender has `una` positions acknowledged, has sent up to `nxt`, and holds all between `una`
and the end of the stream. -/
structure SendInv (base : U32) (s : Stream) (una nxt : ℕ) (v : SendVars) : Prop where
  lastack : v.lastack = place base una
  sndNxt : v.sndNxt = place base nxt
  una_le : una ≤ nxt
  nxt_le : nxt ≤ s.len
  bounded : s.data.length ≤ una + tcpSndBuf
  fin : v.tfFin = s.fin
  mss : v.mss ≤ tcpMss
  writable : Writable v.state → s.fin = false
  buffered : s.fin = false →
    v.sndLbb = place base s.data.length ∧ v.sndBuf + s.data.length = tcpSndBuf + una
  queued : ∀ c ∈ v.chunks, ∃ p, QueuedAt base s una v.mssLocal c p
  covered : Keeps v.state → ∀ q, una ≤ q → q < s.len →
    ∃ c ∈ v.chunks, ∃ p, QueuedAt base s una v.mssLocal c p ∧ p ≤ q ∧ q < p + c.tcplen
  room : ∀ last ∈ v.unsent.getLast?, last.data.length + v.unsentOversize ≤ v.mssLocal
  noRoom : v.unsent = [] → v.unsentOversize = 0

/-! ## The receiver -/

structure RecvVars where
  state : TcpState
  rcvNxt : U32
  rcvWnd : ℕ
  refusedData : Option (List U8 × Bool)

def Pcb.recvVars (pcb : Pcb) : RecvVars := ⟨pcb.state, pcb.rcvNxt, pcb.rcvWnd, pcb.refusedData⟩

def Receives (state : TcpState) : Prop :=
  state = .established ∨ state = .finWait1 ∨ state = .finWait2

instance (state : TcpState) : Decidable (Receives state) := inferInstanceAs (Decidable (_ ∨ _))

def RecvVars.refused (v : RecvVars) : List U8 := v.refusedData.elim [] Prod.fst

/-- The receiver has taken `r` positions of the stream; `received` is what the application took,
and `pending` is on its way to it. -/
structure RecvInv (base : U32) (s : Stream) (r : ℕ) (received pending : List U8) (v : RecvVars) :
    Prop where
  rcvNxt : v.rcvNxt = place base r
  le : r ≤ s.len
  window : v.rcvWnd ≤ tcpWnd
  isPrefix : received <+: s.data
  inOrder : received ++ v.refused ++ pending = s.data.take r ∨
    ¬Keeps v.state ∧ v.refusedData = none ∧ pending = []
  oneHeld : v.refusedData = none ∨ pending = []
  ended : Receives v.state → r ≤ s.data.length
  refusedFin : ∀ data, v.refusedData = some (data, true) → r = s.data.length + 1

end EnvirMonitor.Tcp
