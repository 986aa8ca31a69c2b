import EnvirMonitor.Machine.Words

/-! The reference-counted packet buffers of lwIP, on a heap where every allocation gets a new
number. The contents of a freed buffer stay readable until its memory is used again. -/

namespace EnvirMonitor.Lwip
open Machine

structure Pbuf where
  next : Option ℕ
  payload : List U8
  totLen : ℕ
  ref : ℕ

def Pbuf.len (p : Pbuf) : ℕ := p.payload.length

structure Heap where
  pbufs : ℕ → Pbuf
  live : ℕ → Bool
  fresh : ℕ

def memcpyAt (buf : List U8) (offset : ℕ) (src : List U8) : List U8 :=
  buf.take offset ++ src ++ buf.drop (offset + src.length)

namespace Heap

def setRef (h : Heap) (p ref : ℕ) : Heap :=
  { h with pbufs := Function.update h.pbufs p { h.pbufs p with ref := ref } }

def dealloc (h : Heap) (p : ℕ) : Heap := { h with live := Function.update h.live p false }

def new (h : Heap) (p : Pbuf) : Heap where
  pbufs := Function.update h.pbufs h.fresh p
  live := Function.update h.live h.fresh true
  fresh := h.fresh + 1

end Heap

def pbufRef (h : Heap) (p : ℕ) : Heap := h.setRef p (((h.pbufs p).ref + 1) % 2 ^ 16)

/-- `--` on a `u16_t`. -/
def decU16 : ℕ → ℕ
  | 0 => 2 ^ 16 - 1
  | n + 1 => n

def pbufFreeLoop : ℕ → Heap → Option ℕ → Heap × List ℕ
  | _, h, none => (h, [])
  | 0, h, some _ => (h, [])
  | fuel + 1, h, some p =>
    let ref := decU16 (h.pbufs p).ref
    let h := h.setRef p ref
    if ref = 0 then
      let r := pbufFreeLoop fuel (h.dealloc p) (h.pbufs p).next
      (r.1, p :: r.2)
    else (h, [])

def pbufFree (h : Heap) (p : ℕ) : Heap × List ℕ := pbufFreeLoop (h.fresh + 1) h (some p)

/-- `pbuf_alloc(PBUF_TRANSPORT, length, PBUF_POOL)` for a length that fits one buffer. -/
def pbufAlloc (h : Heap) (length : ℕ) : Heap := h.new ⟨none, List.replicate length 0, length, 1⟩

/-- `pbuf_take` into a buffer that holds all of the data. -/
def pbufTake (h : Heap) (p : ℕ) (data : List U8) : Heap :=
  let pbuf := { h.pbufs p with payload := memcpyAt (h.pbufs p).payload 0 data }
  { h with pbufs := Function.update h.pbufs p pbuf }

/-- A buffer of a chain that a callback is handed, with the references to it besides the chain's. -/
structure Segment where
  payload : List U8
  others : ℕ
  lt : others + 1 < 2 ^ 16

def Segment.unshared (payload : List U8) : Segment := ⟨payload, 0, by decide⟩

def segmentsLen (segs : List Segment) : ℕ := (segs.map fun s => s.payload.length).sum

def handOver : Heap → List Segment → Heap
  | h, [] => h
  | h, seg :: rest =>
    let next := if rest.isEmpty then none else some (h.fresh + 1)
    handOver (h.new ⟨next, seg.payload, segmentsLen (seg :: rest), seg.others + 1⟩) rest

/-! ## A step of the loop of `pbuf_free` -/

section
variable (h : Heap) (p ref i : ℕ)

@[simp] theorem Heap.setRef_next : ((h.setRef p ref).pbufs i).next = (h.pbufs i).next := by
  rcases eq_or_ne i p with rfl | hi
  · simp [Heap.setRef]
  · simp [Heap.setRef, hi]

@[simp] theorem Heap.setRef_payload : ((h.setRef p ref).pbufs i).payload = (h.pbufs i).payload := by
  rcases eq_or_ne i p with rfl | hi
  · simp [Heap.setRef]
  · simp [Heap.setRef, hi]

theorem Heap.setRef_self : ((h.setRef p ref).pbufs p).ref = ref := by simp [Heap.setRef]

theorem Heap.setRef_ne {i p : ℕ} (hi : i ≠ p) : (h.setRef p ref).pbufs i = h.pbufs i :=
  Function.update_of_ne hi ..

end

/-- Nothing but reference counts changes in memory, and nothing comes alive. -/
structure Frees (h h' : Heap) (freed : List ℕ) : Prop where
  next : ∀ i, (h'.pbufs i).next = (h.pbufs i).next
  payload : ∀ i, (h'.pbufs i).payload = (h.pbufs i).payload
  fresh : h'.fresh = h.fresh
  live : ∀ i, h'.live i = (h.live i && decide (i ∉ freed))

theorem frees_loop (fuel : ℕ) (h : Heap) (p : Option ℕ) :
    Frees h (pbufFreeLoop fuel h p).1 (pbufFreeLoop fuel h p).2 := by
  induction fuel generalizing h p with
  | zero => cases p <;> exact ⟨fun _ => rfl, fun _ => rfl, rfl, fun _ => by simp [pbufFreeLoop]⟩
  | succ fuel ih =>
    cases p with
    | none => exact ⟨fun _ => rfl, fun _ => rfl, rfl, fun _ => by simp [pbufFreeLoop]⟩
    | some p =>
      simp only [pbufFreeLoop]
      generalize hset : h.setRef p (decU16 (h.pbufs p).ref) = h₁
      have hnext (i : ℕ) : (h₁.pbufs i).next = (h.pbufs i).next := by rw [← hset, Heap.setRef_next]
      have hpayload (i : ℕ) : (h₁.pbufs i).payload = (h.pbufs i).payload := by
        rw [← hset, Heap.setRef_payload]
      have hlive : h₁.live = h.live := hset ▸ rfl
      have hfresh : h₁.fresh = h.fresh := hset ▸ rfl
      split_ifs
      · obtain ⟨n, pl, f, l⟩ := ih (h₁.dealloc p) (h₁.pbufs p).next
        refine ⟨fun i => (n i).trans (hnext i), fun i => (pl i).trans (hpayload i), f.trans hfresh,
          fun i => ?_⟩
        rw [l, Heap.dealloc, hlive]
        rcases eq_or_ne i p with rfl | hi
        · simp
        · simp [hi]
      · exact ⟨hnext, hpayload, hfresh, fun i => by simp [hlive]⟩

theorem frees_pbufFree (h : Heap) (p : ℕ) : Frees h (pbufFree h p).1 (pbufFree h p).2 :=
  frees_loop ..

/-- A set of buffers that is closed under `next` contains what is deallocated from it. -/
theorem freed_subset {S : Set ℕ} (fuel : ℕ) {h : Heap} {p : Option ℕ} (hp : ∀ i ∈ p, i ∈ S)
    (hclosed : ∀ i ∈ S, ∀ q ∈ (h.pbufs i).next, q ∈ S) : ∀ i ∈ (pbufFreeLoop fuel h p).2, i ∈ S := by
  induction fuel generalizing h p with
  | zero => cases p <;> exact fun i hi => absurd hi List.not_mem_nil
  | succ fuel ih =>
    cases p with
    | none => exact fun i hi => absurd hi List.not_mem_nil
    | some p =>
      simp only [pbufFreeLoop]
      have hpS : p ∈ S := hp p rfl
      split_ifs
      · intro i hi
        rcases List.mem_cons.mp hi with rfl | hi
        · exact hpS
        · refine ih (fun q hq => hclosed p hpS q ?_) (fun j hj q hq => hclosed j hj q ?_) i hi
          · rwa [Heap.setRef_next] at hq
          · simpa [Heap.dealloc] using hq
      · exact fun i hi => absurd hi List.not_mem_nil

/-! ### The loop ends -/

def Bounded (h : Heap) : Prop := ∀ i < h.fresh, ∀ q ∈ (h.pbufs i).next, q < h.fresh

def singles (h : Heap) : Finset ℕ := (Finset.range h.fresh).filter fun i => (h.pbufs i).ref = 1

theorem decU16_eq_zero {n : ℕ} : decU16 n = 0 ↔ n = 1 := by
  cases n with
  | zero => decide
  | succ n => rw [decU16, Nat.add_eq_right]

/-- Every turn but the last takes a reference count from one to zero. -/
theorem loop_fuel {h : Heap} {p : Option ℕ} (hh : Bounded h) (hp : ∀ i ∈ p, i < h.fresh)
    {fuel fuel' : ℕ} (hfuel : (singles h).card < fuel) (hfuel' : (singles h).card < fuel') :
    pbufFreeLoop fuel h p = pbufFreeLoop fuel' h p := by
  induction fuel generalizing h p fuel' with
  | zero => exact absurd hfuel (Nat.not_lt_zero _)
  | succ fuel ih =>
    obtain ⟨fuel', rfl⟩ : ∃ k, fuel' = k + 1 := Nat.exists_eq_succ_of_ne_zero (by omega)
    cases p with
    | none => rfl
    | some p =>
      have hpb : p < h.fresh := hp p rfl
      simp only [pbufFreeLoop]
      split_ifs with hzero
      · have hone : (h.pbufs p).ref = 1 := decU16_eq_zero.mp hzero
        rw [hzero]
        have herase : singles ((h.setRef p 0).dealloc p) ⊆ (singles h).erase p := by
          intro i hi
          obtain ⟨hib, hi⟩ := Finset.mem_filter.mp hi
          have hip : i ≠ p := by
            rintro rfl
            exact absurd ((h.setRef_self i 0).symm.trans hi) (by decide)
          refine Finset.mem_erase.mpr ⟨hip, Finset.mem_filter.mpr ⟨hib, ?_⟩⟩
          rwa [← h.setRef_ne 0 hip]
        have hless : (singles ((h.setRef p 0).dealloc p)).card < (singles h).card := by
          have hmem : p ∈ singles h := Finset.mem_filter.mpr ⟨Finset.mem_range.mpr hpb, hone⟩
          exact (Finset.card_le_card herase).trans_lt (Finset.card_erase_lt_of_mem hmem)
        have hbound : Bounded ((h.setRef p 0).dealloc p) := by
          refine fun i hi q hq => hh i hi q ?_
          simpa [Heap.dealloc] using hq
        have hnext : ∀ q ∈ ((h.setRef p 0).pbufs p).next, q < h.fresh :=
          fun q hq => hh p hpb q (by rwa [Heap.setRef_next] at hq)
        have hrest : pbufFreeLoop fuel ((h.setRef p 0).dealloc p) ((h.setRef p 0).pbufs p).next =
            pbufFreeLoop fuel' ((h.setRef p 0).dealloc p) ((h.setRef p 0).pbufs p).next :=
          ih hbound hnext (by omega) (by omega)
        rw [hrest]
      · rfl

theorem pbufFree_fuel {h : Heap} {p : ℕ} (hh : Bounded h) (hp : p < h.fresh) {fuel : ℕ}
    (hfuel : h.fresh < fuel) : pbufFreeLoop fuel h (some p) = pbufFree h p := by
  have hcard : (singles h).card ≤ h.fresh :=
    (Finset.card_filter_le _ _).trans (Finset.card_range _).le
  exact loop_fuel hh (fun i hi => Option.some.inj hi ▸ hp) (by omega) (by omega)

/-! ## A chain that is handed over -/

@[simp] theorem Heap.new_fresh (h : Heap) (p : Pbuf) : (h.new p).fresh = h.fresh + 1 := rfl

theorem Heap.new_lt (h : Heap) (p : Pbuf) {i : ℕ} (hi : i < h.fresh) :
    (h.new p).pbufs i = h.pbufs i ∧ (h.new p).live i = h.live i :=
  ⟨Function.update_of_ne hi.ne .., Function.update_of_ne hi.ne ..⟩

theorem handOver_lt {h : Heap} {segs : List Segment} {i : ℕ} (hi : i < h.fresh) :
    (handOver h segs).pbufs i = h.pbufs i ∧ (handOver h segs).live i = h.live i := by
  induction segs generalizing h with
  | nil => exact ⟨rfl, rfl⟩
  | cons seg rest ih =>
    have hrest (p : Pbuf) := ih (h := h.new p) (Nat.lt_succ_of_lt hi)
    exact ⟨(hrest _).1.trans (h.new_lt _ hi).1, (hrest _).2.trans (h.new_lt _ hi).2⟩

theorem handOver_fresh (h : Heap) (segs : List Segment) :
    (handOver h segs).fresh = h.fresh + segs.length := by
  induction segs generalizing h with
  | nil => rfl
  | cons seg rest ih =>
    rw [handOver, ih, Heap.new_fresh, List.length_cons]
    omega

theorem handOver_head (h : Heap) (seg : Segment) (rest : List Segment) :
    (handOver h (seg :: rest)).pbufs h.fresh =
      ⟨if rest.isEmpty then none else some (h.fresh + 1), seg.payload, segmentsLen (seg :: rest),
        seg.others + 1⟩ := by
  rw [handOver, (handOver_lt (Nat.lt_succ_self _)).1]
  exact Function.update_self ..

theorem handOver_closed (h : Heap) (segs : List Segment) :
    ∀ i ∈ Set.Ico h.fresh (h.fresh + segs.length), ∀ q ∈ ((handOver h segs).pbufs i).next,
      q ∈ Set.Ico h.fresh (h.fresh + segs.length) := by
  induction segs generalizing h with
  | nil =>
    rintro i ⟨hle, hlt⟩
    exact absurd (hlt.trans_le' hle) (lt_irrefl _)
  | cons seg rest ih =>
    rintro i ⟨hle, hlt⟩ q hq
    rw [List.length_cons] at hlt ⊢
    rcases hle.eq_or_lt with rfl | hle
    · rw [handOver_head] at hq
      cases rest with
      | nil => cases hq
      | cons seg' rest =>
        obtain rfl := Option.some.inj hq
        exact ⟨Nat.le_succ _, by rw [List.length_cons]; omega⟩
    · obtain ⟨hql, hqr⟩ := ih (h.new _) i ⟨hle, by rw [Heap.new_fresh]; omega⟩ q hq
      rw [Heap.new_fresh] at hql hqr
      exact ⟨by omega, by omega⟩

end EnvirMonitor.Lwip
