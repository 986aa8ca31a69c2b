import EnvirMonitor.Allocator.Invariant
import EnvirMonitor.Allocator.LwipMemory

/-! `lwip_comm_mem_malloc` takes two blocks of the internal bank, and gives back what it has got
when one of them is missing. -/

namespace EnvirMonitor.Allocator
open Machine

structure LwipComm where
  dev : MallocDev
  mempMemory : U32
  ramHeap : U32

def memSize : U32 := 10 * 1024

def lwipCommMemFree (l : Layout) (c : LwipComm) : LwipComm :=
  { c with dev := myfree l (myfree l c.dev .insram c.mempMemory) .insram c.ramHeap }

/-- `mempsize` is what `memp_get_memorysize` returns. -/
def lwipCommMemMalloc (l : Layout) (c : LwipComm) (mempsize : U32) : U8 × LwipComm :=
  let (mempMemory, dev) := mymalloc l c.dev .insram mempsize
  let (ramHeap, dev) := mymalloc l dev .insram (ramheapsize memSize)
  let c : LwipComm := ⟨dev, mempMemory, ramHeap⟩
  if mempMemory = 0 ∨ ramHeap = 0 then (1, lwipCommMemFree l c) else (0, c)

/-- The map is the table of the live blocks, also before the first call has initialised it. -/
structure MapInv (l : Layout) (dev : MallocDev) (live : List Block) : Prop
    extends BankInv l .insram dev live where
  map : TableOf (blockRun l .insram) (memtabsize .insram) live
    fun i => (dev.memmap .insram i).toNat

/-! ## One allocation and one release -/

section
variable {l : Layout} {dev : MallocDev} {live : List Block}

theorem mymalloc_ready (l : Layout) (dev : MallocDev) (bank : Bank) (size : U32) :
    (mymalloc l dev bank size).2.memreadyflag bank = true := by
  have hready := ensureReady_ready l dev bank
  unfold mymalloc
  rcases myMemMalloc_cases l dev bank size with he | ⟨b, -, -, -, he⟩
  · rw [he]
    exact hready
  · rw [he]
    dsimp only
    split_ifs <;> exact hready

theorem BankInv.mymalloc_live (h : BankInv l .insram dev live) (size : U32) :
    BankInv l .insram (Allocator.mymalloc l dev .insram size).2
      (if (Allocator.mymalloc l dev .insram size).1 = 0 then live
        else ⟨(Allocator.mymalloc l dev .insram size).1, size⟩ :: live) :=
  h.call (.mymalloc .insram size) fun _ hx => absurd hx (Option.not_mem_none _)

theorem MapInv.of_ready (h : BankInv l .insram dev live) (hready : dev.memreadyflag .insram = true) :
    MapInv l dev live := ⟨h, h.table hready⟩

theorem MapInv.mymalloc (h : MapInv l dev live) (size : U32) :
    MapInv l (Allocator.mymalloc l dev .insram size).2
      (if (Allocator.mymalloc l dev .insram size).1 = 0 then live
        else ⟨(Allocator.mymalloc l dev .insram size).1, size⟩ :: live) :=
  .of_ready (h.mymalloc_live size) (mymalloc_ready l dev .insram size)

theorem MapInv.myfree {ptr size : U32} (h : MapInv l dev (if ptr = 0 then live else ⟨ptr, size⟩ :: live)) :
    MapInv l (Allocator.myfree l dev .insram ptr) live := by
  split_ifs at h with hnull
  · have hkept : Allocator.myfree l dev .insram ptr = dev := if_pos hnull
    rw [hkept]
    exact h
  · have hx : (⟨ptr, size⟩ : Block) ∈ (⟨ptr, size⟩ : Block) :: live := List.mem_cons_self
    have hfree := h.toBankInv.myfree hx
    rw [List.erase_cons_head] at hfree
    refine .of_ready hfree ?_
    rw [show ptr = (⟨ptr, size⟩ : Block).ptr from rfl, h.toBankInv.myfree_eq hx]
    exact h.toBankInv.ready_of_mem hx

end

/-! ## Both allocations -/

structure BothLive (l : Layout) (dev dev' : MallocDev) (live : List Block) (memp heap : Block) :
    Prop where
  memp_nonnull : memp.ptr ≠ 0
  heap_nonnull : heap.ptr ≠ 0
  inv : MapInv l dev' (heap :: memp :: live)
  memp_placed : Placed l .insram memp
  heap_placed : Placed l .insram heap
  apart : Run.Apart heap.span memp.span
  rest : ∀ i < memtabsize .insram, ¬ (blockRun l .insram memp).Mem i →
    ¬ (blockRun l .insram heap).Mem i → dev'.memmap .insram i = dev.memmap .insram i

section
variable {l : Layout} {dev dev' : MallocDev} {live : List Block}

theorem MapInv.agree (h : MapInv l dev live) (new : List Block) (h' : MapInv l dev' (new ++ live))
    {i : ℕ} (hi : i < memtabsize .insram) (hno : ∀ x ∈ new, ¬ (blockRun l .insram x).Mem i) :
    dev'.memmap .insram i = dev.memmap .insram i :=
  BitVec.eq_of_toNat_eq (h.map.agree h'.map hi hno)

theorem MapInv.bothLive (h : MapInv l dev live) {memp heap : Block}
    (h' : MapInv l dev' (heap :: memp :: live)) (hmemp : memp.ptr ≠ 0) (hheap : heap.ptr ≠ 0) :
    BothLive l dev dev' live memp heap := by
  have hb := h'.toBankInv
  have hin : heap ∈ heap :: memp :: live := List.mem_cons_self
  have hin' : memp ∈ heap :: memp :: live := List.mem_cons_of_mem heap List.mem_cons_self
  have hspans := hb.spans_apart (hb.ready_of_mem hin)
  constructor
  · exact hmemp
  · exact hheap
  · exact h'
  · exact hb.placed_of_mem hin'
  · exact hb.placed_of_mem hin
  · exact (List.pairwise_cons.mp hspans).1 memp List.mem_cons_self
  · intro i hi hnomemp hnoheap
    apply h.agree [heap, memp] h' hi
    simpa using ⟨hnoheap, hnomemp⟩

end

/-- What was allocated is given back, whichever of the two blocks is missing. -/
theorem MapInv.lwipCommMemFree {l : Layout} {dev : MallocDev} {live : List Block}
    {memp heap mempsize heapsize : U32}
    (h : MapInv l dev (if heap = 0 then if memp = 0 then live else ⟨memp, mempsize⟩ :: live
      else ⟨heap, heapsize⟩ :: if memp = 0 then live else ⟨memp, mempsize⟩ :: live))
    (hnull : memp = 0 ∨ heap = 0) :
    MapInv l (Allocator.lwipCommMemFree l ⟨dev, memp, heap⟩).dev live := by
  have hkept (dev : MallocDev) {ptr : U32} (hptr : ptr = 0) :
      Allocator.myfree l dev .insram ptr = dev := if_pos hptr
  unfold Allocator.lwipCommMemFree
  by_cases hm : memp = 0
  · rw [if_pos hm] at h
    simp only [hkept dev hm]
    exact h.myfree
  · have hh : heap = 0 := hnull.resolve_left hm
    rw [if_pos hh] at h
    simp only [hkept _ hh]
    exact h.myfree

/-- Either both blocks are live and all else is as it was, or the whole map is. -/
theorem lwipCommMemMalloc_atomic {l : Layout} {c : LwipComm} {live : List Block}
    (h : MapInv l c.dev live) (mempsize : U32) :
    ((lwipCommMemMalloc l c mempsize).1 = 0 ∧
        BothLive l c.dev (lwipCommMemMalloc l c mempsize).2.dev live
          ⟨(lwipCommMemMalloc l c mempsize).2.mempMemory, mempsize⟩
          ⟨(lwipCommMemMalloc l c mempsize).2.ramHeap, ramheapsize memSize⟩) ∨
      ((lwipCommMemMalloc l c mempsize).1 = 1 ∧
        MapInv l (lwipCommMemMalloc l c mempsize).2.dev live ∧
        ∀ i < memtabsize .insram,
          (lwipCommMemMalloc l c mempsize).2.dev.memmap .insram i = c.dev.memmap .insram i) := by
  have hmemp := h.mymalloc mempsize
  have hheap := hmemp.mymalloc (ramheapsize memSize)
  unfold lwipCommMemMalloc
  dsimp only
  generalize mymalloc l c.dev .insram mempsize = r at hmemp hheap ⊢
  generalize mymalloc l r.2 .insram (ramheapsize memSize) = q at hheap ⊢
  obtain ⟨memp, dev₁⟩ := r
  obtain ⟨heap, dev₂⟩ := q
  simp only at hmemp hheap ⊢
  by_cases hnull : memp = 0 ∨ heap = 0
  · right
    rw [if_pos hnull]
    have hback := hheap.lwipCommMemFree hnull
    exact ⟨rfl, hback, fun i hi => h.agree [] hback hi (by simp)⟩
  · left
    obtain ⟨hm, hh⟩ := not_or.mp hnull
    rw [if_neg hm, if_neg hh] at hheap
    rw [if_neg hnull]
    exact ⟨rfl, h.bothLive hheap hm hh⟩

def sampleComm : LwipComm := ⟨⟨fun _ => 0, fun _ _ => 0, fun _ => true⟩, 0, 0⟩

theorem mapInv_sampleComm : MapInv sampleLayout sampleComm.dev [] := by
  have hmap : TableOf (blockRun sampleLayout .insram) (memtabsize .insram) []
      fun i => (sampleComm.dev.memmap .insram i).toNat := TableOf.empty fun i _ => rfl
  exact .of_ready ⟨fun _ => hmap, by simp, fun _ => rfl⟩ rfl

/-- Both allocations fit, or only the second one. -/
theorem lwipCommMemMalloc_atomic_sample :
    BothLive sampleLayout sampleComm.dev (lwipCommMemMalloc sampleLayout sampleComm 320).2.dev []
      ⟨(lwipCommMemMalloc sampleLayout sampleComm 320).2.mempMemory, 320⟩
      ⟨(lwipCommMemMalloc sampleLayout sampleComm 320).2.ramHeap, ramheapsize memSize⟩ ∧
    (lwipCommMemMalloc sampleLayout sampleComm 40000).2.ramHeap ≠ 0 ∧
    ∀ i < memtabsize .insram,
      (lwipCommMemMalloc sampleLayout sampleComm 40000).2.dev.memmap .insram i =
        sampleComm.dev.memmap .insram i := by
  have hok : (lwipCommMemMalloc sampleLayout sampleComm 320).1 ≠ 1 := by decide +kernel
  have hfails : (lwipCommMemMalloc sampleLayout sampleComm 40000).1 ≠ 0 := by decide +kernel
  have hheap : (lwipCommMemMalloc sampleLayout sampleComm 40000).2.ramHeap ≠ 0 := by decide +kernel
  refine ⟨?_, hheap, ?_⟩
  · exact ((lwipCommMemMalloc_atomic mapInv_sampleComm 320).resolve_right fun h => hok h.1).2
  · exact ((lwipCommMemMalloc_atomic mapInv_sampleComm 40000).resolve_left fun h => hfails h.1).2.2

end EnvirMonitor.Allocator
