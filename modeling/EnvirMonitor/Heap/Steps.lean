import EnvirMonitor.Heap.Layout

/-! What `mem_malloc`, `mem_free` and `mem_trim` do to the tiling of the heap. -/

namespace EnvirMonitor.Heap
open Machine
open Allocator (alignUp le_alignUp)

/-- The heap is tiled, no two holes touch and `lfree` is the lowest of them. -/
structure Tiles (h : MemHeap) (bs : List Block) : Prop where
  tail : Tail h.ram 0 0 bs
  lfree : h.lfree = firstHole 0 bs
  coalesced : Coalesced bs

/-! ## Allocation -/

section Allocation
variable {ram : ℕ → U8} {prev p s size : ℕ} {back bs : List Block}

theorem userDataSize_eq {used : Bool} (h : Header ram p (p + s) prev used) (hs : 8 ≤ s)
    (hlt : p + s < 2 ^ 32) : userDataSize ram p = s - 8 := by
  rw [userDataSize, h.next]
  simp only [sizeofStructMem]
  omega

theorem length_lt_of_tail (h : Tail ram prev p bs) : bs.length < memSizeAligned := by
  have hsum : ∀ bs : List Block, Sized bs → 20 * bs.length ≤ total bs := by
    intro bs hsized
    induction bs with
    | nil => exact le_rfl
    | cons b bs ih =>
      obtain ⟨hb, hbs⟩ := List.forall_mem_cons.mp hsized
      have := ih hbs
      rw [total_cons, List.length_cons]
      omega
  have htotal := h.total
  have := hsum bs h.sized
  simp only [memSizeAligned] at *
  omega

/-- The scan ends with the first hole that is large enough, if there is one. -/
theorem findBlock_spec (h : Tail ram prev p bs) (size : ℕ) {fuel : ℕ} (hfuel : bs.length < fuel) :
    (findBlock ram size fuel p = some none ∧ ∀ b ∈ bs, b.used = true ∨ b.size < size + 8) ∨
      ∃ front s back, bs = front ++ ⟨s, false⟩ :: back ∧ size + 8 ≤ s ∧
        findBlock ram size fuel p = some (some (p + total front)) := by
  induction bs generalizing prev p fuel with
  | nil =>
    obtain ⟨fuel, rfl⟩ := Nat.exists_eq_succ_of_ne_zero (Nat.ne_of_gt hfuel)
    have hp : p = memSizeAligned := h.total
    refine Or.inl ⟨?_, List.forall_mem_nil _⟩
    rw [findBlock, if_neg (by omega)]
  | cons b bs ih =>
    obtain ⟨fuel, rfl⟩ := Nat.exists_eq_succ_of_ne_zero (Nat.ne_of_gt (Nat.zero_lt_of_lt hfuel))
    obtain ⟨hheader, hb, htail⟩ := tail_cons.mp h
    have hle := htail.le
    have htotal := h.total
    have hroom := userDataSize_eq hheader (by omega) (by simp only [memSizeAligned] at hle; omega)
    have hfits : (memUsed ram p = 0 ∧ size ≤ userDataSize ram p) ↔
        b.used = false ∧ size + 8 ≤ b.size := by
      rw [hroom, hheader.used]
      refine and_congr ?_ (by omega)
      cases b.used <;> decide
    simp only [findBlock, hheader.next, hfits]
    split_ifs with hbound hfit
    · obtain ⟨s, used⟩ := b
      obtain rfl : used = false := hfit.1
      exact Or.inr ⟨[], s, bs, rfl, hfit.2, rfl⟩
    · have hnot : b.used = true ∨ b.size < size + 8 := by
        by_contra hno
        rw [not_or, Bool.not_eq_true] at hno
        exact hfit ⟨hno.1, by omega⟩
      rcases ih htail (Nat.lt_of_succ_lt_succ hfuel) with ⟨hnone, hall⟩ | ⟨front, s, back, rfl, hs, hfound⟩
      · exact Or.inl ⟨hnone, List.forall_mem_cons.mpr ⟨hnot, hall⟩⟩
      · refine Or.inr ⟨b :: front, s, back, rfl, hs, ?_⟩
        rw [hfound, total_cons, Nat.add_assoc]
    · -- the rest of the heap is no larger than the request
      refine Or.inl ⟨rfl, fun c hc => Or.inr ?_⟩
      have := size_le_total hc
      omega

theorem nextFree_spec (h : Tail ram prev p bs) {fuel : ℕ} (hfuel : bs.length < fuel) :
    nextFree ram fuel p = some (firstHole p bs) := by
  induction bs generalizing prev p fuel with
  | nil =>
    obtain ⟨fuel, rfl⟩ := Nat.exists_eq_succ_of_ne_zero (Nat.ne_of_gt hfuel)
    have hp : p = memSizeAligned := h.total
    rw [nextFree, if_neg (fun hno => hno.2 hp)]
    rfl
  | cons b bs ih =>
    obtain ⟨fuel, rfl⟩ := Nat.exists_eq_succ_of_ne_zero (Nat.ne_of_gt (Nat.zero_lt_of_lt hfuel))
    obtain ⟨hheader, hb, htail⟩ := tail_cons.mp h
    have hle := htail.le
    have hnext := ih htail (Nat.lt_of_succ_lt_succ hfuel)
    have hgo : (memUsed ram p ≠ 0 ∧ p ≠ memSizeAligned) ↔ b.used = true := by
      rw [hheader.used, and_iff_left (by omega)]
      cases b.used <;> decide
    simp only [nextFree, hheader.next, hgo, hnext]
    obtain ⟨s, used⟩ := b
    cases used with
    | true => rw [if_pos rfl, firstHole_used]
    | false => rw [if_neg Bool.false_ne_true, firstHole_hole]

theorem setUsed_local {q : ℕ} {b : U8} {e : ℕ} (hp : p ≤ q) (hq : q ≤ e) :
    Local ram (setUsed ram q b) p e := fun i hi => setUsed_outside (by
  simp only [sizeofStructMem] at hi
  omega) b

theorem Local.trans {ram' ram'' : ℕ → U8} {p p' e e' : ℕ} (h : Local ram ram' p e)
    (h' : Local ram' ram'' p' e') (hp : p ≤ p') (he : e' ≤ e) : Local ram ram'' p e :=
  fun i hi => (h' i (by omega)).trans (h i hi)

theorem Tail.setUsed {b : Block} (h : Tail ram prev p (b :: bs)) (used : Bool) :
    Tail (setUsed ram p (if used then 1 else 0)) prev p (⟨b.size, used⟩ :: bs) := by
  obtain ⟨hheader, hb, htail⟩ := tail_cons.mp h
  exact tail_cons.mpr ⟨hheader.setUsed used, hb,
    htail.congr fun i hi => setUsed_outside (Or.inr (by omega)) _⟩

theorem tail_takeBlock (h : Tail ram prev p (⟨s, false⟩ :: back)) (hsize : 12 ≤ size ∧ 4 ∣ size)
    (hfit : size + 8 ≤ s) : ∃ n, size + 8 ≤ n ∧ n ≤ s ∧
      Tail (takeBlock ram p size) prev p (⟨n, true⟩ :: (hole (s - n) ++ back)) ∧
      Local ram (takeBlock ram p size) p (p + s) := by
  obtain ⟨hheader, hs, htail⟩ := tail_cons.mp h
  simp only at hheader hs htail
  have hle := htail.le
  simp only [memSizeAligned] at hle
  have hroom := userDataSize_eq hheader (by omega) (by omega)
  rw [takeBlock, hroom, hheader.next]
  by_cases hsplit : size + sizeofStructMem + minSizeAligned ≤ s - 8
  · rw [if_pos hsplit]
    simp only [sizeofStructMem, minSizeAligned] at hsplit ⊢
    have hptr2 : (p + 8 + size) % 2 ^ 16 = p + (8 + size) := by omega
    have hrest : p + s = p + (8 + size) + (s - (8 + size)) := by omega
    rw [hptr2]
    rw [hrest] at htail ⊢
    obtain ⟨htwo, hlocal, -⟩ := tail_insertMem hheader htail (by omega) (by omega)
    refine ⟨8 + size, by omega, by omega, ?_, ?_⟩
    · rw [hole_of_pos (by omega)]
      exact htwo.setUsed true
    · exact hlocal.trans (setUsed_local le_rfl le_rfl) le_rfl (by omega)
  · rw [if_neg hsplit]
    refine ⟨s, hfit, le_rfl, ?_, setUsed_local le_rfl (by omega)⟩
    rw [Nat.sub_self]
    exact h.setUsed true

end Allocation

theorem requestSize_sized (size : U16) : 12 ≤ requestSize size ∧ 4 ∣ requestSize size := by
  have halign := (le_alignUp size.toNat).2.2
  have hmod : (BitVec.ofNat 16 (alignUp size.toNat)).toNat = alignUp size.toNat % 2 ^ 16 :=
    BitVec.toNat_ofNat ..
  simp only [requestSize, minSizeAligned, hmod]
  split_ifs
  · decide
  · omega

theorem le_requestSize {size : U16} (h : size.toNat ≤ 65532) : size.toNat ≤ requestSize size := by
  have halign := le_alignUp size.toNat
  have hmod : (BitVec.ofNat 16 (alignUp size.toNat)).toNat = alignUp size.toNat % 2 ^ 16 :=
    BitVec.toNat_ofNat ..
  simp only [requestSize, minSizeAligned, hmod]
  split_ifs
  · omega
  · omega

/-- The largest sizes are aligned to 2 ^ 16, which a `mem_size_t` holds as 0. -/
theorem requestSize_wrapped {size : U16} (h : 65532 < size.toNat) : requestSize size = 12 := by
  have hlt := size.isLt
  have halign := le_alignUp size.toNat
  have hmod : (BitVec.ofNat 16 (alignUp size.toNat)).toNat = alignUp size.toNat % 2 ^ 16 :=
    BitVec.toNat_ofNat ..
  simp only [requestSize, minSizeAligned, hmod]
  rw [if_pos (by omega)]

theorem coalesced_allocate {front back : List Block} {s : ℕ} (n : ℕ)
    (h : Coalesced (front ++ ⟨s, false⟩ :: back)) :
    Coalesced (front ++ ⟨n, true⟩ :: (hole (s - n) ++ back)) := by
  obtain ⟨hfront, hback, -, hnext⟩ := coalesced_hole_iff.mp h
  refine coalesced_used_iff.mpr ⟨hfront, ?_⟩
  rcases Nat.eq_zero_or_pos (s - n) with hzero | hpos
  · rw [hzero]
    exact hback
  · rw [hole_of_pos hpos]
    exact coalesced_hole_cons.mpr ⟨hback, hnext⟩

theorem memMalloc_spec {h : MemHeap} {bs : List Block} (ht : Tiles h bs) (size : U16) :
    (memMalloc h size = some (h, none) ∧
      (size = 0 ∨ ∀ b ∈ bs, b.used = true ∨ b.size < requestSize size + 8)) ∨
    ∃ front s back h' n, bs = front ++ ⟨s, false⟩ :: back ∧ requestSize size + 8 ≤ n ∧ n ≤ s ∧
      memMalloc h size = some (h', some (total front + 8)) ∧
      Tiles h' (front ++ ⟨n, true⟩ :: (hole (s - n) ++ back)) ∧
      Local h.ram h'.ram (total front) (total front + s) := by
  by_cases hzero : size = 0
  · exact Or.inl ⟨if_pos hzero, Or.inl hzero⟩
  have htotal := ht.tail.total
  by_cases hbig : memSizeAligned < requestSize size
  · refine Or.inl ⟨by rw [memMalloc, if_neg hzero, if_pos hbig], Or.inr fun b hb => Or.inr ?_⟩
    have := size_le_total hb
    omega
  have hsize := requestSize_sized size
  obtain ⟨used, rest, rfl, hused, hfirst, hlow⟩ := exists_used_prefix bs
  have hlfree : h.lfree = total used := ht.lfree.trans hlow
  obtain ⟨-, -, htail⟩ := tail_append.mp ht.tail
  rw [Nat.zero_add] at htail
  have hlength := length_lt_of_tail htail
  have hsized := (sized_append.mp ht.tail.sized).2
  rcases findBlock_spec htail (requestSize size) hlength with
    ⟨hnone, hall⟩ | ⟨between, s, back, rfl, hs, hfound⟩
  · refine Or.inl ⟨?_, Or.inr fun b hb => ?_⟩
    · simp only [memMalloc, if_neg hzero, if_neg hbig, hlfree, hnone]
    · rcases List.mem_append.mp hb with hb | hb
      · exact Or.inl (hused b hb)
      · exact hall b hb
  · set front := used ++ between with hfront
    have hmem : total used + total between = total front := (total_append ..).symm
    have hwhole : Tail h.ram 0 0 (front ++ ⟨s, false⟩ :: back) := by
      rw [hfront, List.append_assoc]
      exact ht.tail
    have hcoalesced : Coalesced (front ++ ⟨s, false⟩ :: back) := by
      rw [hfront, List.append_assoc]
      exact ht.coalesced
    obtain ⟨-, hsizedFront, hblock⟩ := tail_append.mp hwhole
    rw [Nat.zero_add] at hblock
    obtain ⟨n, hn, hns, htaken, hlocal⟩ := tail_takeBlock hblock hsize hs
    set ram := takeBlock h.ram (total front) (requestSize size)
    set rest := ⟨n, true⟩ :: (hole (s - n) ++ back) with hrest
    have hnew : Tail ram 0 0 (front ++ rest) :=
      hwhole.replace (fun i hi => hlocal i (Or.inl (by omega))) (by rw [Nat.zero_add]; exact htaken)
    have hnext : (if total front = h.lfree then nextFree ram memSizeAligned (total front)
        else some h.lfree) = some (firstHole 0 (front ++ rest)) := by
      cases between with
      | nil =>
        rw [List.append_nil] at hfront
        rw [if_pos (by rw [hlfree, hfront]), nextFree_spec htaken (length_lt_of_tail htaken), hfront,
          firstHole_append_of_used hused, Nat.zero_add]
      | cons c cs =>
        have hc := (hsizedFront c (by simp [hfront])).1
        have hhole : ¬ ∀ b ∈ front, b.used = true := fun hall => by
          have hcused := hall c (by simp [hfront])
          rw [hfirst c rfl] at hcused
          exact Bool.false_ne_true hcused
        rw [total_cons] at hmem
        rw [if_neg (by omega), ht.lfree, ← List.append_assoc, ← hfront,
          firstHole_append_of_hole hhole, firstHole_append_of_hole hhole]
    refine Or.inr ⟨front, s, back, ⟨ram, firstHole 0 (front ++ rest)⟩, n,
      (List.append_assoc ..).symm, hn, hns, ?_, ⟨hnew, rfl, coalesced_allocate n hcoalesced⟩, hlocal⟩
    rw [hmem] at hfound
    rw [hlfree] at hnext
    simp only [memMalloc, if_neg hzero, if_neg hbig, hlfree, hfound]
    rw [hnext]
    rfl

/-! ## Release -/

section Release
variable {h : MemHeap} {front back : List Block} {s : ℕ}

structure Hole (h : MemHeap) (front : List Block) (s : ℕ) (back : List Block) : Prop where
  tail : Tail h.ram 0 0 (front ++ ⟨s, false⟩ :: back)
  lfree : h.lfree = firstHole 0 (front ++ ⟨s, false⟩ :: back)
  front : Coalesced front
  back : Coalesced back

theorem Hole.lfree_le (hh : Hole h front s back) : h.lfree ≤ total front := by
  rw [hh.lfree]
  by_cases hused : ∀ b ∈ front, b.used = true
  · rw [firstHole_append_of_used hused, firstHole_hole, Nat.zero_add]
  · have := (firstHole_inside 0 front).2
    rw [firstHole_append_of_hole hused]
    omega

/-- `mem_free` up to `plug_holes`. -/
theorem hole_of_setUsed (ht : Tiles h (front ++ ⟨s, true⟩ :: back)) :
    Hole ⟨setUsed h.ram (total front) 0, if total front < h.lfree then total front else h.lfree⟩
      front s back := by
  obtain ⟨-, hsized, hblock⟩ := tail_append.mp ht.tail
  rw [Nat.zero_add] at hblock
  have hs := (tail_cons.mp hblock).2.1.1
  obtain ⟨hfront, hback⟩ := coalesced_used_iff.mp ht.coalesced
  refine ⟨?_, ?_, hfront, hback⟩
  · refine ht.tail.replace (fun i hi => setUsed_outside (Or.inl (by omega)) _) ?_
    rw [Nat.zero_add]
    exact hblock.setUsed false
  · rw [ht.lfree]
    by_cases hused : ∀ b ∈ front, b.used = true
    · have := (firstHole_inside (total front + s) back).1
      simp only at hs
      rw [firstHole_append_of_used hused, firstHole_append_of_used hused, firstHole_used,
        firstHole_hole, Nat.zero_add, if_pos (by omega)]
    · have := firstHole_lt_of_hole (fun b hb => by have := (hsized b hb).1; omega) hused 0
      rw [firstHole_append_of_hole hused, firstHole_append_of_hole hused, if_neg (by omega)]

theorem firstHole_eq_of_hole (front : List Block) (s s' : ℕ) (back back' : List Block) :
    firstHole 0 (front ++ ⟨s, false⟩ :: back) = firstHole 0 (front ++ ⟨s', false⟩ :: back') := by
  by_cases hused : ∀ b ∈ front, b.used = true
  · rw [firstHole_append_of_used hused, firstHole_append_of_used hused, firstHole_hole,
      firstHole_hole]
  · rw [firstHole_append_of_hole hused, firstHole_append_of_hole hused]

theorem tail_merge {ram : ℕ → U8} {prev p n : ℕ} {used : Bool}
    (h : Tail ram prev p (⟨s, used⟩ :: ⟨n, false⟩ :: back)) :
    Tail (setPrev (setNext ram p (p + s + n)) (p + s + n) p) prev p (⟨s + n, used⟩ :: back) ∧
      Local ram (setPrev (setNext ram p (p + s + n)) (p + s + n) p) p (p + s + n) := by
  obtain ⟨hheader, hs, hrest⟩ := tail_cons.mp h
  obtain ⟨-, hn, htail⟩ := tail_cons.mp hrest
  simp only at hheader hs hn htail
  have hle := htail.le
  simp only [memSizeAligned] at hle
  have hnext := hheader.setNext (v := p + s + n) (by omega)
  have hlast : Tail (setNext ram p (p + s + n)) (p + s) (p + s + n) back :=
    htail.congr fun i hi => setNext_outside (Or.inr (by omega))
  have hsum : 20 ≤ s + n ∧ 4 ∣ s + n := by omega
  refine ⟨tail_cons.mpr ⟨?_, hsum, ?_⟩, fun i hi => ?_⟩
  · simp only [← Nat.add_assoc]
    exact hnext.congr fun i hi hlt => setPrev_outside (Or.inl (by omega))
  · simp only [← Nat.add_assoc]
    exact hlast.relink (by simp only [memSizeAligned]; omega)
  · simp only [sizeofStructMem] at hi
    rw [setPrev_outside (by omega), setNext_outside (by omega)]

theorem plugForward_spec (hh : Hole h front s back) :
    ∃ s' back', Hole (plugForward h (total front)) front s' back' ∧
      usedRuns (total front + s') back' = usedRuns (total front + s) back ∧
      (∀ b ∈ back'.head?, b.used = true) ∧
      ∀ r ∈ usedRuns 0 front ++ usedRuns (total front + s) back,
        Keeps h.ram (plugForward h (total front)).ram r := by
  obtain ⟨-, -, hblock⟩ := tail_append.mp hh.tail
  rw [Nat.zero_add] at hblock
  obtain ⟨hheader, hs, hback⟩ := tail_cons.mp hblock
  simp only at hheader hs hback
  have hle := hback.le
  have hkept (hno : ¬ (memUsed h.ram (total front + s) = 0 ∧ total front + s ≠ memSizeAligned))
      (hused : ∀ b ∈ back.head?, b.used = true) :
      ∃ s' back', Hole (plugForward h (total front)) front s' back' ∧
        usedRuns (total front + s') back' = usedRuns (total front + s) back ∧
        (∀ b ∈ back'.head?, b.used = true) ∧
        ∀ r ∈ usedRuns 0 front ++ usedRuns (total front + s) back,
          Keeps h.ram (plugForward h (total front)).ram r := by
    have hsame : plugForward h (total front) = h := by
      rw [plugForward, hheader.next]
      exact if_neg fun hyes => hno hyes.2
    rw [hsame]
    exact ⟨s, back, hh, rfl, hused, fun r _ i _ _ => rfl⟩
  rcases back with _ | ⟨⟨n, used⟩, back⟩
  · exact hkept (fun hno => hno.2 hback.total) (by simp)
  obtain ⟨hnext, hn, htail⟩ := tail_cons.mp hback
  simp only at hnext hn htail
  have hle' := htail.le
  cases used with
  | true => exact hkept (fun hno => by rw [hnext.used] at hno; exact absurd hno.1 (by decide)) (by simp)
  | false =>
    have hyes : total front ≠ total front + s ∧ memUsed h.ram (total front + s) = 0 ∧
        total front + s ≠ memSizeAligned := ⟨by omega, hnext.used, by omega⟩
    have hlfree := hh.lfree_le
    have hunchanged : memNext (setNext h.ram (total front) (total front + s + n)) (total front + s) =
        total front + s + n :=
      (hnext.congr fun i hi hlt => setNext_outside (Or.inr (by omega))).next
    have hplug : plugForward h (total front) =
        ⟨setPrev (setNext h.ram (total front) (total front + s + n)) (total front + s + n)
          (total front), h.lfree⟩ := by
      simp only [plugForward, hheader.next, hnext.next, if_pos hyes, hunchanged]
      rw [if_neg (by omega)]
    obtain ⟨hmerged, hlocal⟩ := tail_merge hblock
    obtain ⟨hcoalesced, hused⟩ := coalesced_hole_cons.mp hh.back
    rw [hplug]
    refine ⟨s + n, back, ⟨?_, ?_, hh.front, hcoalesced⟩, ?_, hused, fun r hr => ?_⟩
    · exact hh.tail.replace (fun i hi => hlocal i (Or.inl (by omega))) (by rwa [Nat.zero_add])
    · exact hh.lfree.trans (firstHole_eq_of_hole ..)
    · rw [usedRuns_hole, Nat.add_assoc]
    · rw [usedRuns_hole] at hr
      exact hlocal.keeps hr

theorem plugBackward_spec (hh : Hole h front s back) (hnext : ∀ b ∈ back.head?, b.used = true) :
    ∃ bs, Tiles (plugBackward h (total front)) bs ∧
      usedRuns 0 bs = usedRuns 0 front ++ usedRuns (total front + s) back ∧
      ∀ r ∈ usedRuns 0 bs, Keeps h.ram (plugBackward h (total front)).ram r := by
  obtain ⟨-, -, hblock⟩ := tail_append.mp hh.tail
  rw [Nat.zero_add] at hblock
  obtain ⟨hheader, hs, hback⟩ := tail_cons.mp hblock
  simp only at hheader hs hback
  have hkept (hno : ¬ (lastStart 0 0 front ≠ total front ∧ memUsed h.ram (lastStart 0 0 front) = 0))
      (hused : ∀ b ∈ front.getLast?, b.used = true) :
      ∃ bs, Tiles (plugBackward h (total front)) bs ∧
        usedRuns 0 bs = usedRuns 0 front ++ usedRuns (total front + s) back ∧
        ∀ r ∈ usedRuns 0 bs, Keeps h.ram (plugBackward h (total front)).ram r := by
    have hsame : plugBackward h (total front) = h := by
      rw [plugBackward, hheader.prev]
      exact if_neg hno
    rw [hsame]
    refine ⟨_, ⟨hh.tail, hh.lfree, coalesced_hole_iff.mpr ⟨hh.front, hh.back, hused, hnext⟩⟩, ?_,
      fun r _ i _ _ => rfl⟩
    rw [usedRuns_append, usedRuns_hole, Nat.zero_add]
  rcases List.eq_nil_or_concat front with rfl | ⟨front, ⟨m, used⟩, rfl⟩
  · exact hkept (fun hno => hno.1 rfl) (by simp)
  rw [List.concat_eq_append] at *
  rw [lastStart_concat, Nat.zero_add] at hkept hheader
  have hwhole := hh.tail
  rw [List.append_assoc, List.singleton_append] at hwhole
  obtain ⟨-, -, htwo⟩ := tail_append.mp hwhole
  rw [Nat.zero_add] at htwo
  obtain ⟨hprev, hm, hrest⟩ := tail_cons.mp htwo
  simp only at hprev hm hrest
  have htotal : total (front ++ [⟨m, used⟩]) = total front + m := by
    rw [total_append, total_cons, total_nil, Nat.add_zero]
  cases used with
  | true => exact hkept (fun hno => by rw [hprev.used] at hno; exact absurd hno.2 (by decide)) (by simp)
  | false =>
    have hlow : h.lfree ≤ total front := by
      rw [hh.lfree, List.append_assoc]
      by_cases hused : ∀ b ∈ front, b.used = true
      · rw [firstHole_append_of_used hused, Nat.zero_add]
        exact le_rfl
      · have := (firstHole_inside 0 front).2
        rw [firstHole_append_of_hole hused]
        omega
    rw [htotal] at hheader hback ⊢
    have hyes : total front ≠ total front + m ∧ memUsed h.ram (total front) = 0 :=
      ⟨by omega, hprev.used⟩
    have hunchanged : memNext (setNext h.ram (total front) (total front + m + s)) (total front + m) =
        total front + m + s :=
      (hheader.congr fun i hi hlt => setNext_outside (Or.inr (by omega))).next
    have hplug : plugBackward h (total front + m) =
        ⟨setPrev (setNext h.ram (total front) (total front + m + s)) (total front + m + s)
          (total front), h.lfree⟩ := by
      simp only [plugBackward, hheader.prev, hheader.next, if_pos hyes, hunchanged]
      rw [if_neg (by omega)]
    obtain ⟨hmerged, hlocal⟩ := tail_merge htwo
    obtain ⟨hcoalesced, -, hused, -⟩ := coalesced_hole_iff.mp hh.front
    rw [hplug]
    refine ⟨front ++ ⟨m + s, false⟩ :: back, ⟨?_, ?_, ?_⟩, ?_, fun r hr => ?_⟩
    · exact hwhole.replace (fun i hi => hlocal i (Or.inl (by omega))) (by rwa [Nat.zero_add])
    · rw [hh.lfree, List.append_assoc]
      exact firstHole_eq_of_hole ..
    · exact coalesced_hole_iff.mpr ⟨hcoalesced, hh.back, hused, hnext⟩
    · simp only [usedRuns_append, usedRuns_hole, usedRuns_nil, List.append_nil, Nat.zero_add,
        Nat.add_assoc]
    · rw [usedRuns_append, usedRuns_hole, Nat.zero_add, ← Nat.add_assoc] at hr
      exact hlocal.keeps hr

theorem memFree_spec (ht : Tiles h (front ++ ⟨s, true⟩ :: back)) :
    ∃ bs, Tiles (memFree h (some (total front + 8))) bs ∧
      usedRuns 0 bs = usedRuns 0 front ++ usedRuns (total front + s) back ∧
      ∀ r ∈ usedRuns 0 bs, Keeps h.ram (memFree h (some (total front + 8))).ram r := by
  obtain ⟨-, -, hblock⟩ := tail_append.mp ht.tail
  rw [Nat.zero_add] at hblock
  obtain ⟨-, hs, hback⟩ := tail_cons.mp hblock
  simp only at hs hback
  have hle := hback.le
  have hfree : memFree h (some (total front + 8)) = plugHoles ⟨setUsed h.ram (total front) 0,
      if total front < h.lfree then total front else h.lfree⟩ (total front) := by
    simp only [memFree, sizeofStructMem, Nat.add_sub_cancel]
    rw [if_neg (by omega)]
  obtain ⟨s', back', hhole, hruns, hnext, hkeeps⟩ := plugForward_spec (hole_of_setUsed ht)
  obtain ⟨bs, htiles, hruns', hkeeps'⟩ := plugBackward_spec hhole hnext
  rw [hfree]
  refine ⟨bs, htiles, by rw [hruns', hruns], fun r hr => ?_⟩
  have hr' : r ∈ usedRuns 0 front ++ usedRuns (total front + s) back := by
    rwa [hruns', hruns] at hr
  have hlocal : Local h.ram (setUsed h.ram (total front) 0) (total front) (total front + s) :=
    setUsed_local le_rfl (by omega)
  exact ((hlocal.keeps hr').trans (hkeeps r hr')).trans (hkeeps' r hr)

end Release

/-! ## Shrinking -/

section Trim
variable {h : MemHeap} {front back : List Block} {s : ℕ}

theorem firstHole_split (front back : List Block) (n s : ℕ) :
    firstHole 0 (front ++ ⟨n, true⟩ :: ⟨s, false⟩ :: back) =
      if ∀ b ∈ front, b.used = true then total front + n else firstHole 0 front := by
  split_ifs with hused
  · rw [firstHole_append_of_used hused, firstHole_used, firstHole_hole, Nat.zero_add]
  · rw [firstHole_append_of_hole hused]

/-- A block of size `s` still has room for `size` bytes and holds them as before; the other
blocks in use are the same. -/
structure Shrunk (h h' : MemHeap) (front : List Block) (s size : ℕ) (back : List Block) : Prop where
  tiles : ∃ n rest, size + 8 ≤ n ∧ n ≤ s ∧ Tiles h' (front ++ ⟨n, true⟩ :: rest) ∧
    usedRuns (total front + n) rest = usedRuns (total front + s) back
  others : ∀ r ∈ usedRuns 0 front ++ usedRuns (total front + s) back, Keeps h.ram h'.ram r
  own : Keeps h.ram h'.ram ⟨total front, size + 8⟩

theorem shrunk_self (ht : Tiles h (front ++ ⟨s, true⟩ :: back)) {size : ℕ} (hsize : size + 8 ≤ s) :
    Shrunk h h front s size back :=
  ⟨⟨s, back, hsize, le_rfl, ht, rfl⟩, fun _ _ _ _ _ => rfl, fun _ _ _ => rfl⟩

/-- The hole that a trimmed block leaves, with `k` bytes of a hole that followed it. -/
theorem shrunk_insert {n r k lfree : ℕ} (ht : Tiles h (front ++ ⟨s, true⟩ :: (hole k ++ back)))
    (hn : 12 ≤ n ∧ 4 ∣ n) (hr : 20 ≤ r ∧ 4 ∣ r) (hns : n + 8 ≤ s) (hsum : n + 8 + r = s + k)
    (hnext : ∀ b ∈ back.head?, b.used = true)
    (hlfree : lfree =
      if ∀ b ∈ front, b.used = true then total front + (n + 8) else firstHole 0 front) :
    Shrunk h ⟨insertMem h.ram (total front) (total front + (n + 8)) (total front + s + k), lfree⟩
      front s n (hole k ++ back) := by
  obtain ⟨-, -, hblock⟩ := tail_append.mp ht.tail
  rw [Nat.zero_add] at hblock
  obtain ⟨hheader, -, hrest⟩ := tail_cons.mp hblock
  obtain ⟨-, -, hback⟩ := tail_append.mp hrest
  have hend : total front + s + k = total front + (n + 8) + r := by omega
  simp only [total_hole, hend] at hback
  obtain ⟨htwo, hlocal, hkeeps⟩ := tail_insertMem hheader hback (n := n + 8) (by omega) hr
  obtain ⟨hfront, hholes⟩ := coalesced_used_iff.mp ht.coalesced
  have hcoalesced : Coalesced back := List.IsChain.right_of_append hholes
  rw [hend]
  refine ⟨⟨n + 8, ⟨r, false⟩ :: back, le_rfl, hns, ⟨?_, ?_, ?_⟩, ?_⟩, fun q hq => ?_, hkeeps⟩
  · exact ht.tail.replace (fun i hi => hlocal i (Or.inl (by omega))) (by rwa [Nat.zero_add])
  · rw [firstHole_split]
    exact hlfree
  · refine coalesced_used_iff.mpr ⟨hfront, ?_⟩
    exact coalesced_hole_cons.mpr ⟨hcoalesced, hnext⟩
  · rw [usedRuns_hole, usedRuns_holes, hend]
  · rw [usedRuns_holes, hend] at hq
    exact hlocal.keeps hq

theorem memTrim_spec (ht : Tiles h (front ++ ⟨s, true⟩ :: back)) (newsize : U16) :
    (s < requestSize newsize + 8 ∧ memTrim h (total front + 8) newsize = (h, none)) ∨
      ∃ h', memTrim h (total front + 8) newsize = (h', some (total front + 8)) ∧
        Shrunk h h' front s (requestSize newsize) back := by
  obtain ⟨-, hsized, hblock⟩ := tail_append.mp ht.tail
  rw [Nat.zero_add] at hblock
  obtain ⟨hheader, hs, hback⟩ := tail_cons.mp hblock
  simp only at hheader hs hback
  have hle := hback.le
  have hstruct : sizeofStructMem = 8 := rfl
  have hmin12 : minSizeAligned = 12 := rfl
  have hmem : memSizeAligned = 10240 := rfl
  obtain ⟨hmin, hdvd⟩ := requestSize_sized newsize
  set size := requestSize newsize with hsizedef
  by_cases hbig : memSizeAligned < size
  · exact Or.inl ⟨by omega, by simp only [memTrim, ← hsizedef, if_pos hbig]⟩
  have hsize : (total front + s + 2 ^ 32 - (total front + sizeofStructMem)) % 2 ^ 16 = s - 8 := by
    omega
  have hptr : total front + 8 - sizeofStructMem = total front := Nat.add_sub_cancel ..
  have hptr2 : (total front + sizeofStructMem + size) % 2 ^ 16 = total front + (size + 8) := by omega
  have hin : ¬ memSizeAligned ≤ total front + 8 := by omega
  have htrim : memTrim h (total front + 8) newsize =
      if s - 8 < size then (h, none)
      else if size = s - 8 then (h, some (total front + 8))
      else if memUsed h.ram (total front + s) = 0 then
        (⟨insertMem h.ram (total front) (total front + (size + 8)) (memNext h.ram (total front + s)),
          if h.lfree = total front + s then total front + (size + 8) else h.lfree⟩,
            some (total front + 8))
      else if size + sizeofStructMem + minSizeAligned ≤ s - 8 then
        (⟨insertMem h.ram (total front) (total front + (size + 8)) (total front + s),
          if total front + (size + 8) < h.lfree then total front + (size + 8) else h.lfree⟩,
            some (total front + 8))
      else (h, some (total front + 8)) := by
    simp only [memTrim, ← hsizedef, if_neg hbig, if_neg hin, hptr, hheader.next, hsize, hptr2]
  by_cases hshort : s - 8 < size
  · exact Or.inl ⟨by omega, by rw [htrim, if_pos hshort]⟩
  rw [if_neg hshort] at htrim
  refine Or.inr ?_
  by_cases hexact : size = s - 8
  · exact ⟨h, by rw [htrim, if_pos hexact], shrunk_self ht (by omega)⟩
  rw [if_neg hexact] at htrim
  have hlow : h.lfree = if ∀ b ∈ front, b.used = true then firstHole (total front + s) back
      else firstHole 0 front := by
    rw [ht.lfree]
    split_ifs with hused
    · rw [firstHole_append_of_used hused, firstHole_used, Nat.zero_add]
    · rw [firstHole_append_of_hole hused]
  have hfrontLow (hused : ¬ ∀ b ∈ front, b.used = true) : firstHole 0 front < total front := by
    have := firstHole_lt_of_hole (fun b hb => by have := (hsized b hb).1; omega) hused 0
    omega
  have hsplit (hno : memUsed h.ram (total front + s) ≠ 0) (hnext : ∀ b ∈ back.head?, b.used = true) :
      ∃ h', memTrim h (total front + 8) newsize = (h', some (total front + 8)) ∧
        Shrunk h h' front s size back := by
    rw [if_neg hno] at htrim
    by_cases hroom : size + sizeofStructMem + minSizeAligned ≤ s - 8
    · rw [if_pos hroom] at htrim
      refine ⟨_, htrim, shrunk_insert (k := 0) (r := s - (size + 8)) ht ⟨hmin, hdvd⟩ (by omega)
        (by omega) (by omega) hnext ?_⟩
      rw [hlow]
      split_ifs with hused hlt hlt
      · rfl
      · have := (firstHole_inside (total front + s) back).1
        omega
      · have := hfrontLow hused
        omega
      · rfl
    · exact ⟨h, by rw [htrim, if_neg hroom], shrunk_self ht (by omega)⟩
  rcases back with _ | ⟨⟨f, used⟩, back⟩
  · have hend : total front + s = memSizeAligned := hback.total
    exact hsplit (by rw [hend, hback.last]; decide) (by simp)
  obtain ⟨hnext, hf, htail⟩ := tail_cons.mp hback
  simp only at hnext hf htail
  cases used with
  | true => exact hsplit (by rw [hnext.used]; decide) (by simp)
  | false =>
    have hfree : memUsed h.ram (total front + s) = 0 := hnext.used
    rw [if_pos hfree, hnext.next] at htrim
    have hhole : ⟨f, false⟩ :: back = hole f ++ back := by
      rw [hole_of_pos (by omega), List.singleton_append]
    obtain ⟨-, hcoalesced⟩ := coalesced_used_iff.mp ht.coalesced
    obtain ⟨-, hused⟩ := coalesced_hole_cons.mp hcoalesced
    rw [hhole] at ht hlow ⊢
    refine ⟨_, htrim, shrunk_insert (r := s + f - (size + 8)) ht ⟨hmin, hdvd⟩ (by omega) (by omega)
      (by omega) hused ?_⟩
    rw [hlow, ← hhole, firstHole_hole]
    by_cases hall : ∀ b ∈ front, b.used = true
    · rw [if_pos hall, if_pos hall, if_pos rfl]
    · have := hfrontLow hall
      rw [if_neg hall, if_neg hall, if_neg (by omega)]

end Trim

end EnvirMonitor.Heap
