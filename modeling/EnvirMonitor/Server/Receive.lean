import EnvirMonitor.Server.Ownership
import EnvirMonitor.Lwip.Chain

/-! What `tcp_recv_server` leaves in its buffer. From its second turn on the copy loop stays at the
second segment of the chain. -/

namespace EnvirMonitor.Server
open Machine Lwip

/-! ## Stores -/

def copyStores (h : Heap) (p : ℕ) : ℕ → Option ℕ → ℕ → List (ℕ × List U8)
  | _, none, _ => []
  | 0, some _, _ => []
  | fuel + 1, some temp, dataLen =>
    let payload := (h.pbufs temp).payload
    let room := tcpServerRxBufsize - dataLen
    let store := (dataLen, if payload.length > room then payload.take room else payload)
    let dataLen := dataLen + payload.length
    if dataLen > tcpServerRxBufsize then [store]
    else store :: copyStores h p fuel (h.pbufs p).next dataLen

theorem copyRevdata_stores (h : Heap) (p fuel : ℕ) (temp : Option ℕ) (dataLen : ℕ) (buf : List U8) :
    (copyRevdata h p fuel temp dataLen buf).1 =
      (copyStores h p fuel temp dataLen).foldl (fun buf s => memcpyAt buf s.1 s.2) buf := by
  induction fuel generalizing temp dataLen buf with
  | zero => cases temp <;> rfl
  | succ fuel ih =>
    cases temp with
    | none => rfl
    | some temp =>
      rw [copyRevdata, copyStores]
      by_cases hfull : dataLen + (h.pbufs temp).payload.length > tcpServerRxBufsize
      · rw [if_pos hfull, if_pos hfull]
        rfl
      · rw [if_neg hfull, if_neg hfull, ih]
        rfl

theorem copyStores_inside (h : Heap) (p fuel : ℕ) (temp : Option ℕ) {dataLen : ℕ}
    (hlen : dataLen ≤ tcpServerRxBufsize) :
    ∀ s ∈ copyStores h p fuel temp dataLen, s.1 + s.2.length ≤ tcpServerRxBufsize := by
  induction fuel generalizing temp dataLen with
  | zero => cases temp <;> exact fun s hs => absurd hs List.not_mem_nil
  | succ fuel ih =>
    cases temp with
    | none => exact fun s hs => absurd hs List.not_mem_nil
    | some temp =>
      have hstore : dataLen + ((h.pbufs temp).payload.take (tcpServerRxBufsize - dataLen)).length ≤
          tcpServerRxBufsize := by
        rw [List.length_take]
        omega
      rw [copyStores]
      simp only [clip_eq_take]
      split_ifs with hfull
      · exact List.forall_mem_singleton.mpr hstore
      · exact List.forall_mem_cons.mpr ⟨hstore, ih _ (by omega)⟩

/-! ## Contents -/

theorem copyRevdata_first (h : Heap) (p fuel : ℕ) :
    copyRevdata h p (fuel + 1) (some p) 0 (List.replicate tcpServerRxBufsize 0) =
      if tcpServerRxBufsize < (h.pbufs p).len then
        (padTo tcpServerRxBufsize (h.pbufs p).payload, true)
      else copyRevdata h p fuel (h.pbufs p).next (h.pbufs p).len
        (padTo tcpServerRxBufsize (h.pbufs p).payload) := by
  have hstart : memcpyAt (List.replicate tcpServerRxBufsize 0) 0
      ((h.pbufs p).payload.take tcpServerRxBufsize) =
        padTo tcpServerRxBufsize (h.pbufs p).payload := by
    rw [memcpyAt, padTo, List.take_zero, List.nil_append, Nat.zero_add, List.drop_replicate,
      List.take_append, List.take_replicate, List.length_take]
    congr 2
    omega
  rw [copyRevdata]
  simp only [clip_eq_take, Nat.sub_zero, Nat.zero_add, hstart]
  rfl

/-- The turns on the second pbuf repeat it up to the end of the buffer. -/
theorem copyRevdata_repeats {h : Heap} {p q : ℕ} (hnext : (h.pbufs p).next = some q)
    (hq : 0 < (h.pbufs q).len) {fuel dataLen : ℕ} (hfuel : tcpServerRxBufsize < dataLen + fuel)
    (hlen : dataLen ≤ tcpServerRxBufsize) {buf : List U8} (hbuf : buf.length = tcpServerRxBufsize) :
    (copyRevdata h p fuel (some q) dataLen buf).1.length = tcpServerRxBufsize ∧
      ∀ i < tcpServerRxBufsize, (copyRevdata h p fuel (some q) dataLen buf).1[i]? =
        if i < dataLen then buf[i]?
        else (h.pbufs q).payload[(i - dataLen) % (h.pbufs q).len]? := by
  induction fuel generalizing dataLen buf with
  | zero => omega
  | succ fuel ih =>
    have hpayload : (h.pbufs q).payload.length = (h.pbufs q).len := rfl
    set src := (h.pbufs q).payload.take (tcpServerRxBufsize - dataLen) with hsrc
    have hsrclen : src.length = min (tcpServerRxBufsize - dataLen) (h.pbufs q).len :=
      List.length_take
    have hfits : dataLen + src.length ≤ buf.length := by omega
    have hcopied (i : ℕ) (hi : i < tcpServerRxBufsize) (hi' : i < dataLen + (h.pbufs q).len) :
        (memcpyAt buf dataLen src)[i]? = if i < dataLen then buf[i]?
          else (h.pbufs q).payload[(i - dataLen) % (h.pbufs q).len]? := by
      rw [getElem?_memcpyAt hfits]
      split_ifs with hin hlt hlt
      · omega
      · rw [hsrc, List.getElem?_take_of_lt (by omega), Nat.mod_eq_of_lt (by omega)]
      · rfl
      · omega
    rw [copyRevdata]
    simp only [clip_eq_take]
    rw [← hsrc]
    by_cases hfull : dataLen + (h.pbufs q).payload.length > tcpServerRxBufsize
    · rw [if_pos hfull]
      exact ⟨(length_memcpyAt hfits).trans hbuf, fun i hi => hcopied i hi (by omega)⟩
    · have hturns : tcpServerRxBufsize < dataLen + (h.pbufs q).len + fuel := by omega
      obtain ⟨hlength, hbytes⟩ := ih hturns (by omega) ((length_memcpyAt hfits).trans hbuf)
      rw [if_neg hfull, hnext, hpayload]
      refine ⟨hlength, fun i hi => ?_⟩
      rw [hbytes i hi]
      by_cases hlt : i < dataLen + (h.pbufs q).len
      · rw [if_pos hlt]
        exact hcopied i hi hlt
      · rw [if_neg hlt, if_neg (by omega), ← Nat.sub_sub, ← Nat.mod_eq_sub_mod (by omega)]

/-- A stream that goes on with a piece of length `n` repeats it exactly when it has period `n`. -/
theorem repeats_iff {c f : ℕ → U8} {a n m : ℕ} (hn : 0 < n) (hf : ∀ k < n, c (a + k) = f k) :
    (∀ i < m, a ≤ i → f ((i - a) % n) = c i) ↔ ∀ i < m, a + n ≤ i → c i = c (i - n) := by
  constructor
  · intro h i hi hle
    rw [← h i hi (by omega), ← h (i - n) (by omega) (by omega),
      Nat.mod_eq_sub_mod (by omega : n ≤ i - a)]
    congr 2
    omega
  · intro h i
    induction i using Nat.strong_induction_on with
    | _ i ih =>
      intro hi hle
      by_cases hlt : i - a < n
      · rw [Nat.mod_eq_of_lt hlt, ← hf _ hlt]
        congr 1
        omega
      · have hprev := ih (i - n) (by omega) (by omega) (by omega)
        rw [h i hi (by omega), ← hprev, Nat.mod_eq_sub_mod (by omega : n ≤ i - a)]
        congr 2
        omega

/-! ## The callback -/

def Delivery.bytes (d : Delivery) : List U8 := (d.segments.map Segment.payload).flatten

def copied (w : World) (d : Delivery) (fuel : ℕ) : List U8 × Bool :=
  copyRevdata (handOver w.heap d.segments) w.heap.fresh fuel (some w.heap.fresh) 0
    (List.replicate tcpServerRxBufsize 0)

theorem free_revdata (w : World) (p : ℕ) : (w.free p).tcpServerRevdata = w.tcpServerRevdata := by
  unfold World.free
  generalize Lwip.pbufFree w.heap p = r
  rfl

theorem react_recv_accepted {w : World} (hstate : w.es.state = .accepted) (d : Delivery) :
    (react w (.recv d .ok)).tcpServerRevdata = (copied w d copyTurns).1 ∧
      (react w (.recv d .ok)).phase = if (copied w d copyTurns).2 then w.phase else .stuck := by
  have hstate' : (deliver w d .ok).es.state = .accepted := by simpa [deliver, World.emit] using hstate
  have hheap : (deliver w d .ok).heap = handOver w.heap d.segments := by simp [deliver, World.emit]
  have hphase : (deliver w d .ok).phase = w.phase := by simp [deliver, World.emit]
  rw [react, tcpRecvServer, if_neg (fun h => h rfl), if_pos hstate', hheap, ← copied]
  dsimp only
  generalize copied w d copyTurns = r
  split_ifs
  · exact ⟨free_revdata .., (free_phase ..).trans hphase⟩
  · exact ⟨rfl, rfl⟩

structure StoresPrefix (w : World) (d : Delivery) : Prop where
  returns : (react w (.recv d .ok)).phase = .registered
  buffer : (react w (.recv d .ok)).tcpServerRevdata = padTo tcpServerRxBufsize d.bytes
  inside : ∀ fuel, ∀ s ∈ copyStores (handOver w.heap d.segments) w.heap.fresh fuel (some w.heap.fresh) 0,
    s.1 + s.2.length ≤ tcpServerRxBufsize

/-- One segment has all the bytes that there is room for, or the bytes behind the second segment
repeat those before them at the distance of its length. -/
def SecondRepeats (d : Delivery) : Prop :=
  tcpServerRxBufsize < d.head.payload.length ∨ ∀ s ∈ d.rest.head?, 0 < s.payload.length ∧
    ∀ i < tcpServerRxBufsize, d.head.payload.length + s.payload.length ≤ i →
      byteAt d.bytes i = byteAt d.bytes (i - s.payload.length)

instance (d : Delivery) : Decidable (SecondRepeats d) := inferInstanceAs (Decidable (_ ∨ _))

theorem SecondRepeats.copyEnds {d : Delivery} (h : SecondRepeats d) : d.copyEnds :=
  h.imp_right fun h s hs => (h s hs).1

theorem copied_ends {w : World} {d : Delivery} (h : d.copyEnds) : (copied w d copyTurns).2 = true :=
  copyRevdata_ends ((copyEnds_iff w.heap d).mpr h) _

theorem copied_never {w : World} {d : Delivery} (h : ¬ d.copyEnds) (fuel : ℕ) :
    (copied w d fuel).2 = false :=
  copyRevdata_never (mt (copyEnds_iff w.heap d).mp h) fuel _

theorem byteAt_append (xs ys : List U8) (i : ℕ) :
    byteAt (xs ++ ys) i = if i < xs.length then byteAt xs i else byteAt ys (i - xs.length) := by
  rw [byteAt, List.getElem?_append]
  split_ifs <;> rfl

theorem getElem?_byteAt {bs : List U8} {i : ℕ} (hi : i < bs.length) : bs[i]? = some (byteAt bs i) := by
  rw [byteAt, List.getElem?_eq_getElem hi]
  rfl

theorem copied_first (w : World) (d : Delivery) (fuel : ℕ) :
    copied w d (fuel + 1) =
      if tcpServerRxBufsize < d.head.payload.length then
        (padTo tcpServerRxBufsize d.head.payload, true)
      else copyRevdata (handOver w.heap d.segments) w.heap.fresh fuel
        (if d.rest.isEmpty then none else some (w.heap.fresh + 1)) d.head.payload.length
        (padTo tcpServerRxBufsize d.head.payload) := by
  rw [copied, copyRevdata_first, Delivery.segments, handOver_head]
  rfl

theorem copied_second (w : World) {d : Delivery} {second : Segment} {rest : List Segment}
    (hrest : d.rest = second :: rest) (hlong : ¬ tcpServerRxBufsize < d.head.payload.length)
    (hpos : 0 < second.payload.length) : (copied w d copyTurns).1.length = tcpServerRxBufsize ∧
      ∀ i < tcpServerRxBufsize, (copied w d copyTurns).1[i]? = some (if i < d.head.payload.length then
        byteAt d.head.payload i else byteAt second.payload
          ((i - d.head.payload.length) % second.payload.length)) := by
  have hpbuf : (handOver w.heap d.segments).pbufs (w.heap.fresh + 1) =
      ⟨if rest.isEmpty then none else some (w.heap.fresh + 1 + 1), second.payload,
        segmentsLen (second :: rest), second.others + 1⟩ := by
    rw [Delivery.segments, hrest]
    exact handOver_head (w.heap.new _) second rest
  have hnext : ((handOver w.heap d.segments).pbufs w.heap.fresh).next = some (w.heap.fresh + 1) := by
    rw [Delivery.segments, handOver_head, hrest]
    rfl
  have hq : 0 < ((handOver w.heap d.segments).pbufs (w.heap.fresh + 1)).len := by
    rw [hpbuf]
    exact hpos
  have hturns : tcpServerRxBufsize < d.head.payload.length + (tcpServerRxBufsize + 1) := by omega
  obtain ⟨hlength, hbytes⟩ := copyRevdata_repeats hnext hq hturns (Nat.le_of_not_lt hlong)
    (length_padTo tcpServerRxBufsize d.head.payload)
  rw [copyTurns, copied_first, if_neg hlong, hrest]
  refine ⟨hlength, fun i hi => (hbytes i hi).trans ?_⟩
  by_cases hlt : i < d.head.payload.length
  · rw [if_pos hlt, if_pos hlt]
    exact getElem?_padTo hi _
  · rw [if_neg hlt, if_neg hlt, hpbuf]
    exact getElem?_byteAt (Nat.mod_lt _ hpos)

theorem copied_eq_padTo_iff (w : World) {d : Delivery} (hends : d.copyEnds) :
    (copied w d copyTurns).1 = padTo tcpServerRxBufsize d.bytes ↔ SecondRepeats d := by
  have hbytes : d.bytes = d.head.payload ++ (d.rest.map Segment.payload).flatten := rfl
  have hhead {i : ℕ} (hi : i < d.head.payload.length) : byteAt d.head.payload i = byteAt d.bytes i := by
    rw [hbytes, byteAt_append, if_pos hi]
  by_cases hlong : tcpServerRxBufsize < d.head.payload.length
  · refine iff_of_true ?_ (Or.inl hlong)
    rw [copyTurns, copied_first, if_pos hlong]
    refine (eq_padTo_iff (length_padTo ..)).mpr fun i hi => ?_
    rw [getElem?_padTo hi, hhead (by omega)]
  · cases hrest : d.rest with
    | nil =>
      refine iff_of_true ?_ (Or.inr fun s hs => by simp [hrest] at hs)
      rw [copyTurns, copied_first, if_neg hlong, hbytes, hrest, List.map_nil, List.flatten_nil,
        List.append_nil]
      rfl
    | cons second rest =>
      have hpos : 0 < second.payload.length :=
        hends.elim (fun h => absurd h hlong) fun h => h second (by rw [hrest]; rfl)
      have hsecond (k : ℕ) (hk : k < second.payload.length) :
          byteAt d.bytes (d.head.payload.length + k) = byteAt second.payload k := by
        rw [hbytes, hrest, byteAt_append, if_neg (by omega), Nat.add_sub_cancel_left, List.map_cons,
          List.flatten_cons, byteAt_append, if_pos hk]
      obtain ⟨hlength, hcopied⟩ := copied_second w hrest hlong hpos
      have hcondition : SecondRepeats d ↔ ∀ i < tcpServerRxBufsize,
          d.head.payload.length + second.payload.length ≤ i →
            byteAt d.bytes i = byteAt d.bytes (i - second.payload.length) := by
        rw [SecondRepeats, hrest, or_iff_right hlong]
        exact ⟨fun h => (h second rfl).2, fun h s hs => Option.some.inj hs ▸ ⟨hpos, h⟩⟩
      rw [hcondition, ← repeats_iff hpos hsecond, eq_padTo_iff hlength]
      refine forall₂_congr fun i hi => ?_
      rw [hcopied i hi, Option.some.injEq]
      split_ifs with hlt
      · exact iff_of_true (hhead hlt) fun hle => absurd hlt (Nat.not_lt.mpr hle)
      · exact ⟨fun h _ => h, fun h => h (Nat.le_of_not_lt hlt)⟩

theorem stores_prefix_iff {w : World} (hphase : w.phase = .registered)
    (hstate : w.es.state = .accepted) (d : Delivery) : StoresPrefix w d ↔ SecondRepeats d := by
  obtain ⟨hbuffer, hreturns⟩ := react_recv_accepted hstate d
  constructor
  · intro h
    have hends : d.copyEnds := by
      by_contra hends
      have hstuck := h.returns
      rw [hreturns, copied_never hends, if_neg Bool.false_ne_true] at hstuck
      cases hstuck
    exact (copied_eq_padTo_iff w hends).mp (hbuffer.symm.trans h.buffer)
  · intro h
    refine ⟨?_, ?_, fun fuel => copyStores_inside _ _ fuel _ (Nat.zero_le _)⟩
    · rw [hreturns, copied_ends h.copyEnds, if_pos rfl]
      exact hphase
    · exact hbuffer.trans ((copied_eq_padTo_iff w h.copyEnds).mpr h)

theorem stores_prefix_iff_sample :
    StoresPrefix (accepted 0 []) ⟨Segment.unshared [0x61], [], by decide⟩ :=
  (stores_prefix_iff rfl rfl _).mpr (by decide)

def threeSegments : Delivery where
  head := Segment.unshared [0x61]
  rest := [Segment.unshared [0x62], Segment.unshared [0x63]]
  lt := by decide

def emptySegment : Delivery where
  head := Segment.unshared [0x61]
  rest := [Segment.unshared []]
  lt := by decide

/-- Behind `'a'` the buffer is filled with `'b'`, and an empty second segment stops the server. -/
theorem third_segment_lost : ¬ StoresPrefix (accepted 0 []) threeSegments ∧
    ¬ StoresPrefix (accepted 0 []) emptySegment ∧
      (react (accepted 0 []) (.recv emptySegment .ok)).phase = .stuck := by
  have hstuck := (react_recv_accepted (w := accepted 0 []) rfl emptySegment).2
  rw [copied_never (by decide), if_neg Bool.false_ne_true] at hstuck
  refine ⟨fun h => ?_, fun h => ?_, hstuck⟩
  · have hbuffer := (react_recv_accepted rfl threeSegments).1.symm.trans h.buffer
    exact absurd hbuffer (by decide +kernel)
  · exact absurd (hstuck.symm.trans h.returns) (by decide)

end EnvirMonitor.Server
