import EnvirMonitor.Tcp.Stream
import Mathlib.Data.List.ModifyLast

/-! The queues of a sender: where their segments stand in the stream, in which order, and what the
phases of `tcp_write` make for them. -/

namespace EnvirMonitor.Tcp
open Machine
open Client (TcpState tcpMss tcpWnd)

variable {base : U32} {s : Stream} {una nxt : ℕ} {v : SendVars}

/-! ## Positions of the queue -/

namespace QueuedAt

variable {limit limit' p : ℕ} {c : Chunk} {s' : Stream}

theorem grow (h : QueuedAt base s una limit c p) (hs : s.Grows s') (hl : limit ≤ limit') :
    QueuedAt base s' una limit' c p :=
  { h with toChunkAt := h.toChunkAt.grow hs, short := h.short.trans hl }

/-- What is queued begins at most one segment before the acknowledged position. -/
theorem una_lt (h : QueuedAt base s una limit c p) : una < p + limit + 1 := by
  have hlive := h.live
  have hshort := h.short
  have hfin : c.fin.toNat ≤ 1 := Bool.toNat_le c.fin
  unfold Chunk.tcplen at hlive
  omega

end QueuedAt

theorem SendInv.len_le (h : SendInv base s una nxt v) : s.len ≤ una + tcpSndBuf + 1 := by
  have hb := h.bounded
  have hfin : s.fin.toNat ≤ 1 := Bool.toNat_le s.fin
  unfold Stream.len
  omega

theorem SendInv.mssLocal_le (h : SendInv base s una nxt v) : v.mssLocal ≤ tcpMss :=
  (Nat.min_le_left _ _).trans h.mss

/-- Places between an older segment and the end of the stream are near each other. -/
theorem SendInv.near (h : SendInv base s una nxt v) {p q : ℕ} (hp : una ≤ p + tcpMss + 1)
    (hp' : p ≤ s.len) (hq : una ≤ q + tcpMss + 1) (hq' : q ≤ s.len) : Near 32 p q := by
  have hlen := h.len_le
  have hbuf : tcpSndBuf = 5840 := rfl
  have hmss : tcpMss = 1460 := rfl
  constructor <;> omega

theorem SendInv.queued_near (h : SendInv base s una nxt v) {c : Chunk} {p : ℕ}
    (hc : QueuedAt base s una v.mssLocal c p) : una ≤ p + tcpMss + 1 ∧ p ≤ s.len := by
  have := hc.una_lt
  have := h.mssLocal_le
  have := hc.toChunkAt.end_le
  omega

/-! ## The order of the queues -/

theorem SendInv.precedes_iff (h : SendInv base s una nxt v) {a b : TcpSeg} {p q : ℕ}
    (ha : QueuedAt base s una v.mssLocal a.chunk p) (hb : QueuedAt base s una v.mssLocal b.chunk q) :
    Precedes a b ↔ p + a.tcplen ≤ q := by
  have hend : a.seqno + BitVec.ofNat 32 a.tcplen = place base (p + a.tcplen) := ha.seqno_end
  have hseq : b.seqno = place base q := hb.seqno
  have hlive := ha.live
  have hle := ha.toChunkAt.end_le
  have hnear := h.queued_near hb
  rw [TcpSeg.tcplen_chunk] at hlive hle
  rw [Precedes, hend, hseq]
  exact tcpSeqLeq_iff (h.near (by omega) hle hnear.1 hnear.2)

theorem SendInv.seqLt_iff (h : SendInv base s una nxt v) {a b : TcpSeg} {p q : ℕ}
    (ha : QueuedAt base s una v.mssLocal a.chunk p) (hb : QueuedAt base s una v.mssLocal b.chunk q) :
    tcpSeqLt a.seqno b.seqno ↔ p < q := by
  have h₁ := h.queued_near ha
  have h₂ := h.queued_near hb
  rw [show a.seqno = place base p from ha.seqno, show b.seqno = place base q from hb.seqno]
  exact tcpSeqLt_iff (h.near h₁.1 h₁.2 h₂.1 h₂.2)

theorem SendInv.queued_seg (h : SendInv base s una nxt v) {seg : TcpSeg}
    (hmem : seg ∈ v.unacked ++ v.unsent) :
    ∃ p, QueuedAt base s una v.mssLocal seg.chunk p :=
  h.queued seg.chunk (List.mem_map_of_mem hmem)

theorem SendInv.position_unique (h : SendInv base s una nxt v) {c : Chunk} {p q : ℕ}
    (hp : QueuedAt base s una v.mssLocal c p) (hq : QueuedAt base s una v.mssLocal c q) : p = q := by
  have h₁ := h.queued_near hp
  have h₂ := h.queued_near hq
  exact (place_inj base (by decide) (h.near h₁.1 h₁.2 h₂.1 h₂.2)).mp (by rw [← hp.seqno, ← hq.seqno])

/-- Where every queued chunk keeps what it covers, only what is new to the stream is left to
cover. -/
theorem SendInv.covered_of_kept (h : SendInv base s una nxt v) (hk : Keeps v.state) {s' : Stream}
    {m : ℕ} {chunks : List Chunk}
    (hkeep : ∀ c ∈ v.chunks, ∀ p, QueuedAt base s una v.mssLocal c p →
      ∃ c' ∈ chunks, QueuedAt base s' una m c' p ∧ c.tcplen ≤ c'.tcplen)
    (hnew : ∀ q, s.len ≤ q → q < s'.len →
      ∃ c ∈ chunks, ∃ p, QueuedAt base s' una m c p ∧ p ≤ q ∧ q < p + c.tcplen) {q : ℕ}
    (hq : una ≤ q) (hq' : q < s'.len) :
    ∃ c ∈ chunks, ∃ p, QueuedAt base s' una m c p ∧ p ≤ q ∧ q < p + c.tcplen := by
  rcases Nat.lt_or_ge q s.len with hlt | hge
  · obtain ⟨c, hc, p, hp, hpq, hpq'⟩ := h.covered hk q hq hlt
    obtain ⟨c', hc', hp', hle⟩ := hkeep c hc p hp
    exact ⟨c', hc', p, hp', hpq, by omega⟩
  · exact hnew q hge hq'

/-- In ordered queues the last unsent segment is the last of the stream. -/
theorem SendInv.tail_end (h : SendInv base s una nxt v) (ho : Ordered v) (hk : Keeps v.state)
    {last : TcpSeg} (hl : last ∈ v.unsent.getLast?) :
    ∃ p, QueuedAt base s una v.mssLocal last.chunk p ∧ p + last.tcplen = s.len := by
  have hlast : last ∈ v.unsent := List.mem_of_getLast? hl
  obtain ⟨p, hp⟩ := h.queued_seg (List.mem_append_right _ hlast)
  have hend := hp.toChunkAt.end_le
  have hlive := hp.live
  rw [TcpSeg.tcplen_chunk] at hend hlive
  refine ⟨p, hp, Nat.le_antisymm hend (Nat.le_of_not_lt fun hlt => ?_)⟩
  obtain ⟨c, hc, q, hq, hle, hgt⟩ := h.covered hk (s.len - 1) (by omega) (by omega)
  obtain ⟨seg, hseg, rfl⟩ := List.mem_map.mp hc
  rw [TcpSeg.tcplen_chunk] at hgt
  obtain ⟨init, hinit⟩ : ∃ init, v.unacked ++ v.unsent = init ++ [last] := by
    refine ⟨v.unacked ++ v.unsent.dropLast, ?_⟩
    rw [List.append_assoc, List.dropLast_append_getLast? last hl]
  rw [hinit] at hseg
  rcases List.mem_append.mp hseg with hseg | hseg
  · have hpre : Precedes seg last := by
      rw [Ordered, hinit] at ho
      exact (List.pairwise_append.mp ho).2.2 seg hseg last List.mem_cons_self
    have := (h.precedes_iff hq hp).mp hpre
    omega
  · rw [List.mem_singleton] at hseg
    subst hseg
    have := h.position_unique hp hq
    omega

theorem Ordered.sorted (h : Ordered v) : Sorted v := by
  obtain ⟨hacked, hsent, happ⟩ := List.pairwise_append.mp h
  exact ⟨hacked, hsent, fun a ha b hb => Or.inl (happ a ha b hb)⟩

theorem le_last {queue : List TcpSeg} (h : queue.Pairwise Precedes) {last a : TcpSeg}
    (hl : last ∈ queue.getLast?) (ha : a ∈ queue) : a = last ∨ Precedes a last := by
  rw [← List.dropLast_append_getLast? last hl] at h ha
  rcases List.mem_append.mp ha with ha | ha
  · exact Or.inr ((List.pairwise_append.mp h).2.2 a ha last List.mem_cons_self)
  · exact Or.inl (List.mem_singleton.mp ha)

theorem head_le {queue : List TcpSeg} (h : queue.Pairwise Precedes) {head b : TcpSeg}
    (hh : head ∈ queue.head?) (hb : b ∈ queue) : b = head ∨ Precedes head b := by
  cases queue with
  | nil => exact absurd hh (Option.not_mem_none head)
  | cons x rest =>
    obtain rfl := Option.some.inj hh
    rcases List.mem_cons.mp hb with rfl | hb
    · exact Or.inl rfl
    · exact Or.inr ((List.pairwise_cons.mp h).1 b hb)

/-- Sorted queues are in order where the first unsent segment is behind the last one sent. -/
theorem SendInv.ordered_of_settled (h : SendInv base s una nxt v) (hs : Sorted v)
    (hset : v.Settled) : Ordered v := by
  refine List.pairwise_append.mpr ⟨hs.unacked, hs.unsent, fun a ha b hb => ?_⟩
  obtain ⟨last, hl⟩ : ∃ last, last ∈ v.unacked.getLast? :=
    ⟨_, List.getLast?_eq_getLast_of_ne_nil (List.ne_nil_of_mem ha)⟩
  obtain ⟨head, hh⟩ : ∃ head, head ∈ v.unsent.head? :=
    ⟨_, List.head?_eq_some_head (List.ne_nil_of_mem hb)⟩
  have hl' : last ∈ v.unacked := List.mem_of_getLast? hl
  have hh' : head ∈ v.unsent := List.mem_of_head? hh
  obtain ⟨pl, hpl⟩ := h.queued_seg (List.mem_append_left _ hl')
  obtain ⟨ph, hph⟩ := h.queued_seg (List.mem_append_right _ hh')
  obtain ⟨pa, hpa⟩ := h.queued_seg (List.mem_append_left _ ha)
  obtain ⟨pb, hpb⟩ := h.queued_seg (List.mem_append_right _ hb)
  have hlt : pl < ph := (h.seqLt_iff hpl hph).mp (hset last hl head hh)
  have hmid : pl + last.tcplen ≤ ph := by
    rcases hs.apart last hl' head hh' with hpre | hpre
    · exact (h.precedes_iff hpl hph).mp hpre
    · have := (h.precedes_iff hph hpl).mp hpre
      omega
  have hfront : pa + a.tcplen ≤ pl + last.tcplen := by
    rcases le_last hs.unacked hl ha with rfl | hpre
    · rw [h.position_unique hpa hpl]
    · have := (h.precedes_iff hpa hpl).mp hpre
      omega
  have hback : ph ≤ pb := by
    rcases head_le hs.unsent hh hb with rfl | hpre
    · rw [h.position_unique hpb hph]
    · have := (h.precedes_iff hph hpb).mp hpre
      omega
  exact (h.precedes_iff hpa hpb).mpr (by omega)

/-! ## New segments -/

def Cuts (m : ℕ) : U32 → List U8 → List TcpSeg → Prop
  | _, left, [] => left = []
  | seq, left, seg :: rest =>
    seg.seqno = seq ∧ seg.fin = false ∧ seg.data ≠ [] ∧ seg.data.length ≤ m ∧
      ∃ left', left = seg.data ++ left' ∧
        Cuts m (seq + BitVec.ofNat 32 seg.data.length) left' rest

theorem length_tcpPbufPrealloc (pcb : Pcb) {length maxLength : ℕ} (more firstSeg : Bool)
    (h : length ≤ maxLength) : length + pcb.tcpPbufPrealloc length maxLength more firstSeg ≤
      maxLength := by
  unfold Pcb.tcpPbufPrealloc
  split_ifs <;> omega

theorem newSegments_spec {pcb : Pcb} {more : Bool} {m : ℕ} {alloc : ℕ → Bool} {slots k : ℕ}
    {seq : U32} {left : List U8} {oversize os : ℕ} {queue : List TcpSeg}
    (h : pcb.newSegments more m alloc slots k seq left oversize = some (queue, os)) :
    Cuts m seq left queue ∧ (queue = [] → os = oversize) ∧
      ∀ last ∈ queue.getLast?, last.data.length + os ≤ m := by
  induction slots generalizing k seq left oversize queue os with
  | zero =>
    unfold Pcb.newSegments at h
    split_ifs at h with hleft
    · obtain ⟨rfl, rfl⟩ := Prod.mk.inj (Option.some.inj h)
      exact ⟨hleft, fun _ => rfl, by simp⟩
  | succ slots ih =>
    unfold Pcb.newSegments at h
    split_ifs at h with hleft
    · obtain ⟨rfl, rfl⟩ := Prod.mk.inj (Option.some.inj h)
      exact ⟨hleft, fun _ => rfl, by simp⟩
    obtain ⟨⟨rest, os'⟩, hrest, heq⟩ := Option.map_eq_some_iff.mp h
    obtain ⟨rfl, rfl⟩ := Prod.mk.inj heq
    obtain ⟨hcuts, hos, hlast⟩ := ih hrest
    have hlen : (left.take (min left.length m)).length = min left.length m := by
      rw [List.length_take]
      omega
    have hne : left.take (min left.length m) ≠ [] := by
      intro hnil
      rw [List.take_eq_nil_iff] at hnil
      rcases hnil with hzero | hnil
      · have hm : m = 0 := by
          have : left.length ≠ 0 := fun h0 => hleft (List.length_eq_zero_iff.mp h0)
          omega
        subst hm
        rw [Nat.min_zero, List.drop_zero] at hcuts
        cases rest with
        | nil => exact hleft hcuts
        | cons seg rest =>
          obtain ⟨-, -, hdata, hshort, -⟩ := hcuts
          exact hdata (List.length_eq_zero_iff.mp (Nat.le_zero.mp hshort))
      · exact hleft hnil
    refine ⟨⟨rfl, rfl, hne, by rw [hlen]; exact Nat.min_le_right _ _, _,
      (List.take_append_drop _ _).symm, by rw [hlen]; exact hcuts⟩,
      fun h => absurd h (List.cons_ne_nil _ _), fun last hl => ?_⟩
    cases rest with
    | nil =>
      obtain rfl : last = _ := (Option.some.inj hl).symm
      rw [hos rfl]
      show (left.take (min left.length m)).length + _ ≤ m
      rw [hlen]
      exact length_tcpPbufPrealloc pcb more _ (Nat.min_le_right _ _)
    | cons seg rest =>
      rw [List.getLast?_cons_cons] at hl
      exact hlast last hl

/-- Where `left` stands at `p`, every new segment is queued there, and they cover it. -/
theorem Cuts.queuedAt {m : ℕ} {queue : List TcpSeg} {left : List U8} {p : ℕ}
    (h : Cuts m (place base p) left queue) (hs : StandsAt s.data p left) (hp : una ≤ p) :
    (∀ seg ∈ queue, ∃ q, QueuedAt base s una m seg.chunk q) ∧
      ∀ x, p ≤ x → x < p + left.length →
        ∃ seg ∈ queue, ∃ q, QueuedAt base s una m seg.chunk q ∧ q ≤ x ∧
          x < q + seg.chunk.tcplen := by
  induction queue generalizing left p with
  | nil =>
    rw [Cuts] at h
    subst h
    refine ⟨fun seg hseg => absurd hseg List.not_mem_nil, fun x hx hx' => ?_⟩
    rw [List.length_nil] at hx'
    omega
  | cons seg rest ih =>
    obtain ⟨hseq, hfin, hne, hshort, left', rfl, hrest⟩ := h
    have hpos : 0 < seg.data.length := List.length_pos_of_ne_nil hne
    have hlen : seg.chunk.tcplen = seg.data.length := by
      rw [TcpSeg.tcplen_chunk, TcpSeg.tcplen, hfin]
      rfl
    have hseg : QueuedAt base s una m seg.chunk p := by
      refine ⟨⟨hseq, ?_, fun h => absurd (hfin ▸ h) Bool.false_ne_true⟩, by omega, by omega,
        hshort⟩
      have := hs.take seg.data.length
      rwa [List.take_left'  rfl] at this
    have hs' := hs.drop (n := seg.data.length) (by rw [List.length_append]; omega)
    rw [List.drop_left' rfl] at hs'
    rw [place_add] at hrest
    obtain ⟨hall, hcover⟩ := ih hrest hs' (by omega)
    refine ⟨List.forall_mem_cons.mpr ⟨⟨p, hseg⟩, hall⟩, fun x hx hx' => ?_⟩
    rcases Nat.lt_or_ge x (p + seg.data.length) with hlt | hge
    · exact ⟨seg, List.mem_cons_self, p, hseg, hx, by omega⟩
    · rw [List.length_append] at hx'
      obtain ⟨seg', hmem, q, hq⟩ := hcover x hge (by omega)
      exact ⟨seg', List.mem_cons_of_mem _ hmem, q, hq⟩

theorem Cuts.pairwise {m : ℕ} {queue : List TcpSeg} {left : List U8} {p : ℕ}
    (h : Cuts m (place base p) left queue) (hshort : left.length < 2 ^ 30) :
    queue.Pairwise Precedes ∧
      ∀ seg ∈ queue, ∃ q, seg.seqno = place base q ∧ p ≤ q ∧ q ≤ p + left.length := by
  induction queue generalizing left p with
  | nil => exact ⟨List.Pairwise.nil, fun seg hseg => absurd hseg List.not_mem_nil⟩
  | cons seg rest ih =>
    obtain ⟨hseq, hfin, -, -, left', rfl, hrest⟩ := h
    rw [List.length_append] at hshort ⊢
    rw [place_add] at hrest
    obtain ⟨hpair, hall⟩ := ih hrest (by omega)
    refine ⟨List.pairwise_cons.mpr ⟨fun seg' hmem => ?_, hpair⟩,
      List.forall_mem_cons.mpr ⟨⟨p, hseq, le_rfl, by omega⟩, fun seg' hmem => ?_⟩⟩
    · obtain ⟨q, hq, hle, hle'⟩ := hall seg' hmem
      have hlen : seg.tcplen = seg.data.length := by
        rw [TcpSeg.tcplen, hfin]
        rfl
      have hnear : Near 32 (p + seg.data.length) q := by constructor <;> omega
      rw [Precedes, hseq, hlen, place_add, hq]
      exact (tcpSeqLeq_iff hnear).mpr hle
    · obtain ⟨q, hq, hle, hle'⟩ := hall seg' hmem
      exact ⟨q, hq, by omega, by omega⟩

/-! ## The last segment of `unsent` -/

theorem u16_of_lt {n : ℕ} (h : n < 2 ^ 16) : u16 n = n := Nat.mod_eq_of_lt h

/-- Phases 1 and 2 take a first part of the data, as much as the segment has room for. -/
theorem extendLast_spec {pcb : Pcb} {more : Bool} {m : ℕ} {alloc : ℕ → Bool} {data : List U8}
    {last : TcpSeg} {x : Pcb.Extension} (hm : m < 2 ^ 16)
    (hroom : last.data.length + pcb.unsentOversize ≤ m)
    (h : pcb.extendLast more m alloc data last = some x) :
    data = x.ext ++ x.left ∧ last.data.length + x.ext.length + x.oversize ≤ m := by
  have hused : min pcb.unsentOversize data.length ≤ pcb.unsentOversize := Nat.min_le_left _ _
  have hspace : u16 (m + 2 ^ 16 - last.data.length - min pcb.unsentOversize data.length) =
      m - last.data.length - min pcb.unsentOversize data.length := by
    rw [show m + 2 ^ 16 - last.data.length - min pcb.unsentOversize data.length =
      m - last.data.length - min pcb.unsentOversize data.length + 2 ^ 16 by omega, u16,
      Nat.add_mod_right, Nat.mod_eq_of_lt (by omega)]
  unfold Pcb.extendLast at h
  dsimp only at h
  rw [hspace] at h
  split_ifs at h with hext halloc
  · obtain rfl := Option.some.inj h
    have hseg := Nat.min_le_left (m - last.data.length - min pcb.unsentOversize data.length)
      (data.drop (min pcb.unsentOversize data.length)).length
    have hover := length_tcpPbufPrealloc pcb more true hseg
    refine ⟨by rw [List.drop_drop, List.take_append_drop], ?_⟩
    have htake := List.length_take_le (min pcb.unsentOversize data.length + min
      (m - last.data.length - min pcb.unsentOversize data.length)
      (data.drop (min pcb.unsentOversize data.length)).length) data
    dsimp only
    omega
  · obtain rfl := Option.some.inj h
    refine ⟨(List.take_append_drop _ _).symm, ?_⟩
    have htake := List.length_take_le (min pcb.unsentOversize data.length) data
    dsimp only
    omega

theorem chunk_setPsh (queue : List TcpSeg) :
    (Pcb.setPsh queue).map TcpSeg.chunk = queue.map TcpSeg.chunk := by
  induction queue with
  | nil => rfl
  | cons seg rest ih =>
    cases rest with
    | nil => rfl
    | cons seg' rest =>
      have hset : Pcb.setPsh (seg :: seg' :: rest) = seg :: Pcb.setPsh (seg' :: rest) := rfl
      rw [hset, List.map_cons, ih]
      rfl

theorem getLast?_chunk {queue queue' : List TcpSeg}
    (h : queue.map TcpSeg.chunk = queue'.map TcpSeg.chunk) {last : TcpSeg}
    (hl : last ∈ queue.getLast?) : ∃ last' ∈ queue'.getLast?, last'.chunk = last.chunk := by
  have := congrArg List.getLast? h
  rw [List.getLast?_map, List.getLast?_map, Option.mem_def.mp hl, Option.map_some] at this
  obtain ⟨last', hl', heq⟩ := Option.map_eq_some_iff.mp this.symm
  exact ⟨last', hl', heq⟩

end EnvirMonitor.Tcp
