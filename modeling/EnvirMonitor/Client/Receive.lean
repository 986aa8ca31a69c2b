import EnvirMonitor.Client.Command
import EnvirMonitor.Lwip.Chain

/-! `tcp_recv_client` on the pbuf heap. Every segment is copied to the start of the buffer, so the
buffer holds the received bytes only where the copies that come later change nothing. -/

namespace EnvirMonitor.Client.Receive
open Machine Lwip

inductive Event
  | memcpy (offset len : ℕ)
  | tcpRecved (len : ℕ)
  | pbufFree (p : ℕ)
  deriving DecidableEq

def Event.credit : Event → Option ℕ
  | tcpRecved len => some len
  | _ => none

def Event.freed : Event → Option ℕ
  | pbufFree p => some p
  | _ => none

structure Record where
  state : ClientState
  p : Option ℕ

/-- The log is newest first. -/
structure World where
  heap : Heap
  es : Record
  tcpClientFlag : U8
  tcpClientRevdata : List U8
  log : List Event

namespace World

def emit (w : World) (e : Event) : World := { w with log := e :: w.log }

def memcpy (w : World) (src : List U8) : World :=
  { w with tcpClientRevdata := Client.memcpy w.tcpClientRevdata src }.emit (.memcpy 0 src.length)

def memset (w : World) : World := { w with tcpClientRevdata := cleared }

def free (w : World) (p : ℕ) : World :=
  { w with heap := (Lwip.pbufFree w.heap p).1 }.emit (.pbufFree p)

end World

/-- The loop over the chain. It has no result while it is still going. -/
def copyLoop : ℕ → Option ℕ → ℕ → World → Option World
  | _, none, _, w => some w
  | 0, some _, _, _ => none
  | fuel + 1, some temp, dataLen, w =>
    let payload := (w.heap.pbufs temp).payload
    let room := tcpClientMaxrxBuffsize - dataLen
    let w := w.memcpy (if payload.length > room then payload.take room else payload)
    let dataLen := dataLen + payload.length
    if dataLen > tcpClientMaxrxBuffsize then some w
    else copyLoop fuel (w.heap.pbufs temp).next dataLen w

def tcpRecvClient (fuel : ℕ) (w : World) (p : Option ℕ) (err : Err) : Option (World × Err) :=
  match p with
  | none => some ({ w with es := ⟨.closing, none⟩ }, .ok)
  | some p =>
    if err ≠ .ok then some (w.free p, err)
    else if w.es.state = .connected then
      (copyLoop fuel (some p) 0 w.memset).map fun w =>
        let w := { w with tcpClientFlag := setFlag w.tcpClientFlag revcdataFlag }
        ((w.emit (.tcpRecved (w.heap.pbufs p).totLen)).free p, .ok)
    else
      let w := w.emit (.tcpRecved (w.heap.pbufs p).totLen)
      some ({ w with es := { w.es with p := none } }.free p, .ok)

/-! ## The loop -/

structure Copied (w : World) (dataLen : ℕ) (pieces : Chain) (w' : World) : Prop where
  heap : w'.heap = w.heap
  flag : w'.tcpClientFlag = w.tcpClientFlag
  buffer : w'.tcpClientRevdata = copyRevdata pieces dataLen w.tcpClientRevdata
  log : ∃ stores, w'.log = stores ++ w.log ∧
    ∀ e ∈ stores, ∃ len ≤ tcpClientMaxrxBuffsize, e = .memcpy 0 len

theorem Copied.done (w : World) (dataLen : ℕ) : Copied w dataLen [] w :=
  ⟨rfl, rfl, rfl, [], rfl, by simp⟩

section
variable {w w' : World} {dataLen : ℕ} {payload src : List U8} {rest : Chain}

theorem length_taken_le
    (hsrc : src = if payload.length > tcpClientMaxrxBuffsize - dataLen then
      payload.take (tcpClientMaxrxBuffsize - dataLen) else payload) :
    src.length ≤ tcpClientMaxrxBuffsize := by
  rw [hsrc]
  split_ifs with hlong
  · rw [List.length_take]
    omega
  · omega

theorem Copied.last
    (hsrc : src = if payload.length > tcpClientMaxrxBuffsize - dataLen then
      payload.take (tcpClientMaxrxBuffsize - dataLen) else payload)
    (hfull : dataLen + payload.length > tcpClientMaxrxBuffsize) :
    Copied w dataLen (payload :: rest) (w.memcpy src) := by
  have hlen := length_taken_le hsrc
  refine ⟨rfl, rfl, ?_, [.memcpy 0 src.length], rfl, by simpa using hlen⟩
  rw [copyRevdata, if_pos hfull, hsrc]
  rfl

theorem Copied.turn
    (hsrc : src = if payload.length > tcpClientMaxrxBuffsize - dataLen then
      payload.take (tcpClientMaxrxBuffsize - dataLen) else payload)
    (hfull : ¬ dataLen + payload.length > tcpClientMaxrxBuffsize)
    (h : Copied (w.memcpy src) (dataLen + payload.length) rest w') :
    Copied w dataLen (payload :: rest) w' := by
  obtain ⟨hheap, hflag, hbuffer, stores, hlog, hstores⟩ := h
  refine ⟨hheap, hflag, ?_, stores ++ [.memcpy 0 src.length], ?_, ?_⟩
  · rw [hbuffer, copyRevdata, if_neg hfull, hsrc]
    rfl
  · rw [hlog, List.append_assoc]
    rfl
  · intro e he
    rcases List.mem_append.mp he with he | he
    · exact hstores e he
    · exact ⟨src.length, length_taken_le hsrc, List.mem_singleton.mp he⟩

end

theorem copyLoop_copied {fuel dataLen : ℕ} {w w' : World} {p : Option ℕ} {qs : List ℕ}
    (hl : Linked w.heap p qs) (h : copyLoop fuel p dataLen w = some w') :
    Copied w dataLen (payloads w.heap qs) w' := by
  induction fuel generalizing p qs dataLen w with
  | zero =>
    cases qs with
    | nil =>
      obtain rfl := hl
      obtain rfl := Option.some.inj h
      exact .done w dataLen
    | cons q qs =>
      obtain ⟨rfl, -, -⟩ := hl
      cases h
  | succ fuel ih =>
    cases qs with
    | nil =>
      obtain rfl := hl
      obtain rfl := Option.some.inj h
      exact .done w dataLen
    | cons q qs =>
      obtain ⟨rfl, -, hrest⟩ := hl
      rw [payloads_cons]
      rw [copyLoop] at h
      generalize hsrc : (if (w.heap.pbufs q).payload.length > tcpClientMaxrxBuffsize - dataLen then
        (w.heap.pbufs q).payload.take (tcpClientMaxrxBuffsize - dataLen)
        else (w.heap.pbufs q).payload) = src at h
      split_ifs at h with hfull
      · obtain rfl := Option.some.inj h
        exact .last hsrc.symm hfull
      · exact .turn hsrc.symm hfull (ih hrest h)

theorem copyLoop_ends {fuel dataLen : ℕ} {w : World} {p : Option ℕ} {qs : List ℕ}
    (hl : Linked w.heap p qs) (hfuel : qs.length ≤ fuel) :
    (copyLoop fuel p dataLen w).isSome := by
  induction qs generalizing fuel p dataLen w with
  | nil =>
    obtain rfl := hl
    cases fuel <;> rfl
  | cons q qs ih =>
    obtain ⟨rfl, -, hrest⟩ := hl
    obtain ⟨fuel, rfl⟩ := Nat.exists_eq_add_one_of_ne_zero (Nat.ne_zero_of_lt hfuel)
    rw [copyLoop]
    by_cases hfull : dataLen + (w.heap.pbufs q).payload.length > tcpClientMaxrxBuffsize
    · rw [if_pos hfull]
      rfl
    · rw [if_neg hfull]
      exact ih hrest (Nat.le_of_succ_le_succ hfuel)

/-! ## Pieces laid over each other -/

/-- Behind the first bytes of the chain come only zero bytes, at indices where the stream has zero
bytes too. -/
def Overlays (q : Chain) : Prop :=
  ∀ before piece after, q = before ++ piece :: after → before.flatten ≠ [] →
    ∀ k < piece.length, byteAt piece k = 0 ∧ byteAt q.flatten k = 0

theorem byteAt_piece (before after : Chain) {piece : List U8} {k : ℕ} (hk : k < piece.length) :
    byteAt (before ++ piece :: after).flatten (before.flatten.length + k) = byteAt piece k := by
  rw [byteAt, byteAt, List.flatten_append, List.flatten_cons,
    List.getElem?_append_right (Nat.le_add_right ..), Nat.add_sub_cancel_left,
    List.getElem?_append_left hk]

theorem exists_piece {q : Chain} {i : ℕ} (hi : i < q.flatten.length) : ∃ before piece after k,
    q = before ++ piece :: after ∧ k < piece.length ∧ i = before.flatten.length + k := by
  induction q generalizing i with
  | nil => exact absurd hi (Nat.not_lt_zero _)
  | cons piece q ih =>
    by_cases hk : i < piece.length
    · exact ⟨[], piece, q, i, rfl, hk, (Nat.zero_add i).symm⟩
    · rw [List.flatten_cons, List.length_append] at hi
      obtain ⟨before, piece', after, k, hq, hk', hrest⟩ := ih (i := i - piece.length) (by omega)
      refine ⟨piece :: before, piece', after, k, by rw [hq, List.cons_append], hk', ?_⟩
      rw [List.flatten_cons, List.length_append]
      omega

/-- A piece behind the first bytes comes after the piece that carries the first byte. -/
theorem after_first {before before' after after' : Chain} {first piece : List U8}
    (h : before ++ first :: after = before' ++ piece :: after') (hbefore : before.flatten = [])
    (hbefore' : before'.flatten ≠ []) : first ∈ before' ∧ piece ∈ after := by
  rcases List.append_eq_append_iff.mp h with ⟨mid, hmid, hrest⟩ | ⟨mid, hmid, -⟩
  · cases mid with
    | nil => exact absurd hbefore (by rwa [hmid, List.append_nil] at hbefore')
    | cons x mid =>
      obtain ⟨rfl, rfl⟩ := List.cons_eq_cons.mp hrest
      exact ⟨hmid ▸ by simp, by simp⟩
  · rw [hmid, List.flatten_append] at hbefore
    exact absurd (List.append_eq_nil_iff.mp hbefore).1 hbefore'

section
variable {q : Chain}

/-- A byte that is not zero was copied from the first piece that is not empty: else it is found again
further on in the stream. -/
theorem first_of_ne_zero (h : ∀ i, (lastAt i q).getD 0 = byteAt q.flatten i) {i : ℕ}
    (hi : byteAt q.flatten i ≠ 0) : ∃ before piece after, q = before ++ piece :: after ∧
      before.flatten = [] ∧ i < piece.length := by
  induction hn : q.flatten.length - i using Nat.strong_induction_on generalizing i with
  | _ n ih =>
    have hlt : i < q.flatten.length := by
      by_contra hge
      rw [byteAt, List.getElem?_eq_none (Nat.le_of_not_lt hge)] at hi
      exact hi rfl
    have hlast := h i
    cases hb : lastAt i q with
    | none =>
      rw [hb] at hlast
      exact absurd hlast.symm hi
    | some b =>
      rw [hb] at hlast
      obtain ⟨before, piece, after, hq, hpiece, -⟩ := lastAt_eq_some hb
      have hk : i < piece.length := (List.getElem?_eq_some_iff.mp hpiece).1
      by_cases hbefore : before.flatten = []
      · exact ⟨before, piece, after, hq, hbefore, hk⟩
      · have hpos := List.length_pos_of_ne_nil hbefore
        have hagain : byteAt q.flatten (before.flatten.length + i) ≠ 0 := by
          rw [hq, byteAt_piece before after hk, byteAt, hpiece]
          exact hlast ▸ hi
        obtain ⟨before', piece', after', hq', hbefore', hk'⟩ :=
          ih (q.flatten.length - (before.flatten.length + i)) (by omega) hagain rfl
        exact ⟨before', piece', after', hq', hbefore', by omega⟩

theorem zero_behind_first (h : ∀ i, (lastAt i q).getD 0 = byteAt q.flatten i)
    {before after : Chain} {piece : List U8} (hq : q = before ++ piece :: after)
    (hbefore : before.flatten ≠ []) {k : ℕ} (hk : k < piece.length) : byteAt piece k = 0 := by
  by_contra hne
  have hbyte : byteAt q.flatten (before.flatten.length + k) ≠ 0 := by
    rwa [hq, byteAt_piece before after hk]
  obtain ⟨before', first, after', hq', hbefore', hlong⟩ := first_of_ne_zero h hbyte
  have hmem := (after_first (hq'.symm.trans hq) hbefore' hbefore).1
  have hle := (List.sublist_flatten_of_mem hmem).length_le
  omega

theorem overlays_of_lastAt (h : ∀ i, (lastAt i q).getD 0 = byteAt q.flatten i) : Overlays q := by
  intro before piece after hq hbefore k hk
  refine ⟨zero_behind_first h hq hbefore hk, ?_⟩
  by_contra hne
  have hlast := h k
  cases hb : lastAt k q with
  | none => exact hne (by rw [← hlast, hb]; rfl)
  | some b =>
    obtain ⟨before', piece', after', hq', hpiece', hshort⟩ := lastAt_eq_some hb
    have hk' : k < piece'.length := (List.getElem?_eq_some_iff.mp hpiece').1
    by_cases hbefore' : before'.flatten = []
    · have hmem := (after_first (hq'.symm.trans hq) hbefore' hbefore).2
      exact absurd hk (Nat.not_lt.mpr (lastAt_eq_none.mp hshort piece hmem))
    · have hzero := zero_behind_first h hq' hbefore' hk'
      rw [byteAt, hpiece'] at hzero
      rw [hb] at hlast
      exact hne (hlast.symm.trans hzero)

theorem lastAt_of_overlays (h : Overlays q) (i : ℕ) : (lastAt i q).getD 0 = byteAt q.flatten i := by
  cases hb : lastAt i q with
  | some b =>
    obtain ⟨before, piece, after, hq, hpiece, -⟩ := lastAt_eq_some hb
    have hk : i < piece.length := (List.getElem?_eq_some_iff.mp hpiece).1
    have hbyte : byteAt piece i = b := by rw [byteAt, hpiece]; rfl
    by_cases hbefore : before.flatten = []
    · have hstream := byteAt_piece before after hk
      rw [hbefore, List.length_nil, Nat.zero_add, ← hq, hbyte] at hstream
      exact hstream.symm
    · obtain ⟨hzero, hstream⟩ := h before piece after hq hbefore i hk
      rw [hstream, ← hzero, hbyte]
      rfl
  | none =>
    have hshort := lastAt_eq_none.mp hb
    by_cases hlt : i < q.flatten.length
    · obtain ⟨before, piece, after, k, hq, hk, hi⟩ := exists_piece hlt
      have hle := hshort piece (hq ▸ by simp)
      have hbefore : before.flatten ≠ [] := by
        intro hnil
        rw [hnil, List.length_nil] at hi
        omega
      have hstream := byteAt_piece before after hk
      rw [← hq, ← hi, (h before piece after hq hbefore k hk).1] at hstream
      exact hstream.symm
    · rw [byteAt, List.getElem?_eq_none (Nat.le_of_not_lt hlt)]

/-- Copying every piece to the start gives the stream exactly where the later copies change
nothing. -/
theorem lastAt_eq_flatten_iff :
    (∀ i, (lastAt i q).getD 0 = byteAt q.flatten i) ↔ Overlays q :=
  ⟨overlays_of_lastAt, lastAt_of_overlays⟩

end

theorem lastAt_cut_zero (p : Chain) (i : ℕ) : lastAt i (cut 0 p) = none :=
  lastAt_eq_none.mpr fun piece hp => by simp [cut_zero p piece hp]

/-- The loop copies the chain cut at the size of the buffer. -/
theorem getElem?_copyRevdata_cut (p : Chain) {dataLen : ℕ} (hlen : dataLen ≤ tcpClientMaxrxBuffsize)
    (buf : List U8) (i : ℕ) : (copyRevdata p dataLen buf)[i]? =
      (lastAt i (cut (tcpClientMaxrxBuffsize - dataLen) p)).or buf[i]? := by
  induction p generalizing dataLen buf with
  | nil => rfl
  | cons piece p ih =>
    rw [copyRevdata, clip_eq_take, cut, lastAt]
    split_ifs with hfull
    · have hzero : tcpClientMaxrxBuffsize - dataLen - piece.length = 0 := by omega
      rw [getElem?_memcpy, hzero, lastAt_cut_zero, Option.none_or]
    · rw [ih (by omega), getElem?_memcpy, Option.or_assoc, Nat.sub_sub]

theorem length_copyRevdata (p : Chain) {dataLen : ℕ} (hlen : dataLen ≤ tcpClientMaxrxBuffsize)
    {buf : List U8} (hbuf : buf.length = tcpClientMaxrxBuffsize) :
    (copyRevdata p dataLen buf).length = tcpClientMaxrxBuffsize := by
  induction p generalizing dataLen buf with
  | nil => exact hbuf
  | cons piece p ih =>
    have hcopy : (memcpy buf (piece.take (tcpClientMaxrxBuffsize - dataLen))).length =
        tcpClientMaxrxBuffsize := by
      rw [memcpy, List.length_append, List.length_drop, List.length_take]
      omega
    rw [copyRevdata, clip_eq_take]
    split_ifs with hfull
    · exact hcopy
    · exact ih (by omega) hcopy

/-! ## The callback -/

/-- Of the bytes that the buffer has room for, those behind the first segment are zero bytes that
are copied onto zero bytes. -/
def Harmless (pieces : Chain) : Prop := Overlays (cut tcpClientMaxrxBuffsize pieces)

theorem copyRevdata_eq_padTo_iff (pieces : Chain) :
    copyRevdata pieces 0 cleared = padTo tcpClientMaxrxBuffsize pieces.flatten ↔ Harmless pieces := by
  have hlen : (copyRevdata pieces 0 cleared).length = tcpClientMaxrxBuffsize :=
    length_copyRevdata pieces (Nat.zero_le _) List.length_replicate
  have hstream {i : ℕ} (hi : i < tcpClientMaxrxBuffsize) :
      byteAt (cut tcpClientMaxrxBuffsize pieces).flatten i = byteAt pieces.flatten i := by
    rw [flatten_cut, byteAt, byteAt, List.getElem?_take_of_lt hi]
  have hbuf {i : ℕ} (hi : i < tcpClientMaxrxBuffsize) : (copyRevdata pieces 0 cleared)[i]? =
      some ((lastAt i (cut tcpClientMaxrxBuffsize pieces)).getD 0) := by
    have hzero : cleared[i]? = some 0 := by rw [cleared, List.getElem?_replicate, if_pos hi]
    rw [getElem?_copyRevdata_cut pieces (Nat.zero_le _), hzero, Nat.sub_zero]
    cases lastAt i (cut tcpClientMaxrxBuffsize pieces) <;> rfl
  rw [eq_padTo_iff hlen, Harmless, ← lastAt_eq_flatten_iff]
  constructor
  · intro h i
    by_cases hi : i < tcpClientMaxrxBuffsize
    · rw [hstream hi]
      exact Option.some.inj ((hbuf hi).symm.trans (h i hi))
    -- no byte is beyond the buffer
    · have hshort : (cut tcpClientMaxrxBuffsize pieces).flatten.length ≤ i := by
        rw [flatten_cut, List.length_take]
        omega
      have hnone : lastAt i (cut tcpClientMaxrxBuffsize pieces) = none :=
        lastAt_eq_none.mpr fun piece hp => (List.sublist_flatten_of_mem hp).length_le.trans hshort
      rw [hnone, byteAt, List.getElem?_eq_none hshort]
  · intro h i hi
    rw [hbuf hi, h i, hstream hi]

structure KeepsPrefix (w w' : World) (p : ℕ) (stream : List U8) : Prop where
  buffer : w'.tcpClientRevdata = padTo tcpClientMaxrxBuffsize stream
  inside : ∀ offset len, .memcpy offset len ∈ w'.log → offset + len ≤ tcpClientMaxrxBuffsize
  flag : hasFlag w'.tcpClientFlag revcdataFlag = true
  credited : w'.log.filterMap Event.credit = [(w.heap.pbufs p).totLen]
  freed : w'.log.filterMap Event.freed = [p]

def ReceivesPrefix (w : World) (p : ℕ) (stream : List U8) : Prop :=
  ∃ fuel w', tcpRecvClient fuel { w with log := [] } (some p) .ok = some (w', .ok) ∧
    KeepsPrefix w w' p stream

/-- Everything but the contents of the buffer is right in any case. -/
theorem tcpRecvClient_connected {w : World} {p : ℕ} {qs : List ℕ} (hl : Linked w.heap (some p) qs)
    (hstate : w.es.state = .connected) {fuel : ℕ} {w' : World} {ret : Err}
    (h : tcpRecvClient fuel { w with log := [] } (some p) .ok = some (w', ret)) :
    ret = .ok ∧ w'.tcpClientRevdata = copyRevdata (payloads w.heap qs) 0 cleared ∧
      (∀ offset len, .memcpy offset len ∈ w'.log → offset + len ≤ tcpClientMaxrxBuffsize) ∧
      hasFlag w'.tcpClientFlag revcdataFlag = true ∧
      w'.log.filterMap Event.credit = [(w.heap.pbufs p).totLen] ∧
      w'.log.filterMap Event.freed = [p] := by
  rw [tcpRecvClient, if_neg (fun hne => hne rfl), if_pos hstate] at h
  obtain ⟨w₁, hloop, hw'⟩ := Option.map_eq_some_iff.mp h
  obtain ⟨hheap, -, hbuffer, stores, hlog, hstores⟩ :=
    copyLoop_copied (w := { w with log := [] }.memset) hl hloop
  rw [Prod.mk.injEq] at hw'
  obtain ⟨rfl, rfl⟩ := hw'
  have hlog : w₁.log = stores := hlog.trans (List.append_nil _)
  have hnone {f : Event → Option ℕ} (hf : ∀ len, f (.memcpy 0 len) = none) :
      stores.filterMap f = [] := by
    rw [List.filterMap_eq_nil_iff]
    intro e he
    obtain ⟨len, -, rfl⟩ := hstores e he
    exact hf len
  refine ⟨rfl, hbuffer, fun offset len hmem => ?_, ?_, ?_, ?_⟩
  · have hmem : .memcpy offset len ∈ Event.pbufFree p :: .tcpRecved (w₁.heap.pbufs p).totLen ::
        w₁.log := hmem
    rw [hlog] at hmem
    simp only [List.mem_cons, reduceCtorEq, false_or] at hmem
    obtain ⟨len', hle, he⟩ := hstores _ hmem
    cases he
    rw [Nat.zero_add]
    exact hle
  · exact (hasFlag_setFlag _ (by decide)).trans (by simp)
  · change (w₁.heap.pbufs p).totLen :: w₁.log.filterMap Event.credit = _
    rw [hlog, hheap, hnone fun _ => rfl]
    rfl
  · change p :: w₁.log.filterMap Event.freed = _
    rw [hlog, hnone fun _ => rfl]

theorem tcpRecvClient_returns {w : World} {p : ℕ} {qs : List ℕ} (hl : Linked w.heap (some p) qs)
    (hstate : w.es.state = .connected) {fuel : ℕ} (hfuel : qs.length ≤ fuel) :
    ∃ w', tcpRecvClient fuel { w with log := [] } (some p) .ok = some (w', .ok) := by
  have hends : (copyLoop fuel (some p) 0 { w with log := [] }.memset).isSome :=
    copyLoop_ends hl hfuel
  obtain ⟨w₁, hloop⟩ := Option.isSome_iff_exists.mp hends
  rw [tcpRecvClient, if_neg (fun hne => hne rfl), if_pos hstate, hloop]
  exact ⟨_, rfl⟩

theorem receives_prefix_iff {w : World} {p : ℕ} {qs : List ℕ} (hl : Linked w.heap (some p) qs)
    (hstate : w.es.state = .connected) :
    ReceivesPrefix w p (payloads w.heap qs).flatten ↔ Harmless (payloads w.heap qs) := by
  rw [← copyRevdata_eq_padTo_iff]
  constructor
  · rintro ⟨fuel, w', hrun, hkeeps⟩
    exact (tcpRecvClient_connected hl hstate hrun).2.1.symm.trans hkeeps.buffer
  · intro h
    obtain ⟨w', hrun⟩ := tcpRecvClient_returns hl hstate le_rfl
    obtain ⟨-, hbuffer, hinside, hflag, hcredited, hfreed⟩ := tcpRecvClient_connected hl hstate hrun
    exact ⟨_, w', hrun, hbuffer.trans h, hinside, hflag, hcredited, hfreed⟩

def handed (segs : List Segment) : World where
  heap := handOver ⟨fun _ => ⟨none, [], 0, 0⟩, fun _ => false, 0⟩ segs
  es := ⟨.connected, none⟩
  tcpClientFlag := 0
  tcpClientRevdata := cleared
  log := []

theorem receives_prefix_iff_sample :
    ReceivesPrefix (handed [Segment.unshared [], Segment.unshared command]) 0 command := by
  have hl : Linked (handed [Segment.unshared [], Segment.unshared command]).heap (some 0) [0, 1] :=
    linked_handOver ..
  exact (receives_prefix_iff hl rfl).mpr ((copyRevdata_eq_padTo_iff _).mp (by decide))

/-- `"sta"` and `"rt"` -/
def splitCommand : World :=
  handed [Segment.unshared [0x73, 0x74, 0x61], Segment.unshared [0x72, 0x74]]

theorem split_command_overwritten : Linked splitCommand.heap (some 0) [0, 1] ∧
    (payloads splitCommand.heap [0, 1]).flatten = command ∧ splitCommand.es.state = .connected ∧
      ¬ ReceivesPrefix splitCommand 0 command := by
  have hl : Linked splitCommand.heap (some 0) [0, 1] := linked_handOver ..
  have hpayloads : payloads splitCommand.heap [0, 1] = [[0x73, 0x74, 0x61], [0x72, 0x74]] :=
    payloads_handOver ..
  refine ⟨hl, by rw [hpayloads]; rfl, rfl, ?_⟩
  rintro ⟨fuel, w', hrun, hkeeps⟩
  have hbuffer := (tcpRecvClient_connected hl rfl hrun).2.1
  rw [hkeeps.buffer] at hbuffer
  exact absurd hbuffer (by decide)

end EnvirMonitor.Client.Receive
