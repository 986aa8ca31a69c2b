import EnvirMonitor.Lwip.Pbuf

/-! The list of the buffers of a chain, and the stream of bytes that they carry. -/

namespace EnvirMonitor.Lwip
open Machine

/-! ## Buffers linked by `next` -/

def Heap.Allocated (h : Heap) (p : ℕ) : Prop := p < h.fresh ∧ h.live p = true

instance (h : Heap) (p : ℕ) : Decidable (h.Allocated p) := inferInstanceAs (Decidable (_ ∧ _))

/-- `qs` are the buffers of the chain from `p` to its end, all of them allocated. -/
def Linked (h : Heap) : Option ℕ → List ℕ → Prop
  | p, [] => p = none
  | p, q :: qs => p = some q ∧ h.Allocated q ∧ Linked h (h.pbufs q).next qs

instance decidableLinked (h : Heap) : ∀ p qs, Decidable (Linked h p qs)
  | p, [] => inferInstanceAs (Decidable (p = none))
  | p, q :: qs =>
    have := decidableLinked h (h.pbufs q).next qs
    inferInstanceAs (Decidable (p = some q ∧ h.Allocated q ∧ Linked h (h.pbufs q).next qs))

def payloads (h : Heap) (qs : List ℕ) : List (List U8) := qs.map fun q => (h.pbufs q).payload

@[simp] theorem payloads_nil (h : Heap) : payloads h [] = [] := rfl

@[simp] theorem payloads_cons (h : Heap) (q : ℕ) (qs : List ℕ) :
    payloads h (q :: qs) = (h.pbufs q).payload :: payloads h qs := rfl

namespace Linked
variable {h h' : Heap} {p : Option ℕ} {q : ℕ} {qs qs' : List ℕ}

theorem unique (hl : Linked h p qs) (hl' : Linked h p qs') : qs = qs' := by
  induction qs generalizing p qs' with
  | nil =>
    cases qs' with
    | nil => rfl
    | cons q qs' => exact absurd (hl.symm.trans hl'.1) (Option.some_ne_none q).symm
  | cons q qs ih =>
    cases qs' with
    | nil => exact absurd (hl'.symm.trans hl.1) (Option.some_ne_none q).symm
    | cons q' qs' =>
      obtain rfl := Option.some.inj (hl.1.symm.trans hl'.1)
      rw [ih hl.2.2 hl'.2.2]

theorem of_mem (hl : Linked h p qs) (hq : q ∈ qs) :
    ∃ before after, qs = before ++ q :: after ∧ Linked h (some q) (q :: after) := by
  induction qs generalizing p with
  | nil => exact absurd hq List.not_mem_nil
  | cons x qs ih =>
    rcases List.mem_cons.mp hq with rfl | hq
    · exact ⟨[], qs, rfl, rfl, hl.2⟩
    · obtain ⟨before, after, hqs, hafter⟩ := ih hl.2.2 hq
      exact ⟨x :: before, after, by rw [hqs, List.cons_append], hafter⟩

theorem not_mem_rest (hl : Linked h p (q :: qs)) : q ∉ qs := by
  intro hq
  obtain ⟨before, after, hqs, hafter⟩ := hl.2.2.of_mem hq
  have hlen := congrArg List.length (unique (hl.1 ▸ hl) hafter)
  rw [hqs, List.length_cons, List.length_append, List.length_cons] at hlen
  omega

theorem nodup (hl : Linked h p qs) : qs.Nodup := by
  induction qs generalizing p with
  | nil => exact List.nodup_nil
  | cons q qs ih => exact List.nodup_cons.mpr ⟨hl.not_mem_rest, ih hl.2.2⟩

theorem congr (hl : Linked h p qs) (hnext : ∀ q ∈ qs, (h'.pbufs q).next = (h.pbufs q).next)
    (halloc : ∀ q ∈ qs, h'.Allocated q) : Linked h' p qs := by
  induction qs generalizing p with
  | nil => exact hl
  | cons q qs ih =>
    obtain ⟨hq, hqs⟩ := List.forall_mem_cons.mp hnext
    obtain ⟨hqa, hqsa⟩ := List.forall_mem_cons.mp halloc
    exact ⟨hl.1, hqa, ih (hq ▸ hl.2.2) hqs hqsa⟩

theorem allocated (hl : Linked h p qs) : ∀ q ∈ qs, h.Allocated q := by
  induction qs generalizing p with
  | nil => simp
  | cons q qs ih => exact List.forall_mem_cons.mpr ⟨hl.2.1, ih hl.2.2⟩

theorem head? (hl : Linked h p qs) : p = qs.head? := by
  cases qs with
  | nil => exact hl
  | cons q qs => exact hl.1

end Linked

theorem linked_handOver (h : Heap) (segs : List Segment) :
    Linked (handOver h segs) (if segs.isEmpty then none else some h.fresh)
      (List.range' h.fresh segs.length) := by
  induction segs generalizing h with
  | nil => rfl
  | cons seg rest ih =>
    have hlive : (handOver h (seg :: rest)).live h.fresh = true := by
      rw [handOver, (handOver_lt (Nat.lt_succ_self _)).2]
      exact Function.update_self ..
    have hfresh := handOver_fresh h (seg :: rest)
    rw [List.length_cons, List.range'_succ]
    rw [List.length_cons] at hfresh
    refine ⟨rfl, ⟨by omega, hlive⟩, ?_⟩
    rw [handOver_head]
    exact ih _

theorem payloads_handOver (h : Heap) (segs : List Segment) :
    payloads (handOver h segs) (List.range' h.fresh segs.length) =
      segs.map Segment.payload := by
  induction segs generalizing h with
  | nil => rfl
  | cons seg rest ih =>
    rw [List.length_cons, List.range'_succ, payloads, List.map_cons, handOver_head, List.map_cons]
    exact congrArg (seg.payload :: ·) (ih (h.new _))

/-! ## A fixed buffer for the start of a stream -/

def byteAt (bs : List U8) (i : ℕ) : U8 := bs[i]?.getD 0

def padTo (n : ℕ) (bs : List U8) : List U8 := (bs ++ List.replicate n 0).take n

theorem length_padTo (n : ℕ) (bs : List U8) : (padTo n bs).length = n := by
  rw [padTo, List.length_take, List.length_append, List.length_replicate]
  omega

theorem getElem?_padTo {n i : ℕ} (hi : i < n) (bs : List U8) :
    (padTo n bs)[i]? = some (byteAt bs i) := by
  rw [padTo, List.getElem?_take_of_lt hi, List.getElem?_append, byteAt]
  split_ifs with hlt
  · rw [List.getElem?_eq_getElem hlt]
    rfl
  · rw [List.getElem?_eq_none (Nat.le_of_not_lt hlt), List.getElem?_replicate, if_pos (by omega)]
    rfl

theorem eq_padTo_iff {n : ℕ} {buf bs : List U8} (hlen : buf.length = n) :
    buf = padTo n bs ↔ ∀ i < n, buf[i]? = some (byteAt bs i) := by
  constructor
  · rintro rfl i hi
    exact getElem?_padTo hi bs
  · intro h
    apply List.ext_getElem?
    intro i
    by_cases hi : i < n
    · rw [h i hi, getElem?_padTo hi]
    · rw [List.getElem?_eq_none (by omega), List.getElem?_eq_none (by rw [length_padTo]; omega)]

theorem length_memcpyAt {buf src : List U8} {offset : ℕ} (h : offset + src.length ≤ buf.length) :
    (memcpyAt buf offset src).length = buf.length := by
  rw [memcpyAt, List.length_append, List.length_append, List.length_take, List.length_drop]
  omega

theorem getElem?_memcpyAt {buf src : List U8} {offset : ℕ} (h : offset + src.length ≤ buf.length)
    (i : ℕ) : (memcpyAt buf offset src)[i]? =
      if offset ≤ i ∧ i < offset + src.length then src[i - offset]? else buf[i]? := by
  have htake : (buf.take offset).length = offset := by
    rw [List.length_take]
    omega
  rw [memcpyAt, List.append_assoc, List.getElem?_append, htake]
  split_ifs with hlt hin hin
  · omega
  · exact List.getElem?_take_of_lt hlt
  · exact List.getElem?_append_left (by omega)
  · rw [List.getElem?_append_right (by omega), List.getElem?_drop]
    congr 1
    omega

theorem clip_eq_take (piece : List U8) (room : ℕ) :
    (if piece.length > room then piece.take room else piece) = piece.take room := by
  split_ifs with hlong
  · rfl
  · exact (List.take_of_length_le (Nat.le_of_not_lt hlong)).symm

def cut : ℕ → List (List U8) → List (List U8)
  | _, [] => []
  | n, piece :: rest => piece.take n :: cut (n - piece.length) rest

theorem flatten_cut (n : ℕ) (pieces : List (List U8)) :
    (cut n pieces).flatten = pieces.flatten.take n := by
  induction pieces generalizing n with
  | nil => exact List.take_nil.symm
  | cons piece rest ih => rw [cut, List.flatten_cons, ih, List.flatten_cons, List.take_append]

theorem cut_zero (pieces : List (List U8)) : ∀ piece ∈ cut 0 pieces, piece = [] := by
  induction pieces with
  | nil => simp [cut]
  | cons piece rest ih =>
    rw [cut, Nat.zero_sub]
    exact List.forall_mem_cons.mpr ⟨List.take_zero, ih⟩

end EnvirMonitor.Lwip
