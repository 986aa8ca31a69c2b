import EnvirMonitor.Allocator.LwipMemory
import EnvirMonitor.Machine.ByteMemory
import EnvirMonitor.Machine.Tiling

/-! The heap of `mem.c` in the bytes of `ram`: allocation by first fit, release with the merging
of neighbouring holes, and the shrinking of a block. Pointers are offsets from `ram`. -/

namespace EnvirMonitor.Heap
open Machine
open Allocator (alignUp le_alignUp)

def memSizeAligned : ℕ := 10240
def sizeofStructMem : ℕ := 8
def minSizeAligned : ℕ := 12

/-- The fields of the `struct mem` at an offset. -/
def memNext (ram : ℕ → U8) (mem : ℕ) : ℕ := (wordAt ram mem).toNat
def memPrev (ram : ℕ → U8) (mem : ℕ) : ℕ := (wordAt ram (mem + 2)).toNat
def memUsed (ram : ℕ → U8) (mem : ℕ) : U8 := ram (mem + 4)

def setNext (ram : ℕ → U8) (mem v : ℕ) : ℕ → U8 := putWord ram mem (BitVec.ofNat 16 v)
def setPrev (ram : ℕ → U8) (mem v : ℕ) : ℕ → U8 := putWord ram (mem + 2) (BitVec.ofNat 16 v)
def setUsed (ram : ℕ → U8) (mem : ℕ) (v : U8) : ℕ → U8 := Function.update ram (mem + 4) v

structure MemHeap where
  ram : ℕ → U8
  lfree : ℕ

def memInitHeap (ram : ℕ → U8) : MemHeap :=
  let ram := setNext ram 0 memSizeAligned
  let ram := setPrev ram 0 0
  let ram := setUsed ram 0 0
  let ram := setUsed ram memSizeAligned 1
  let ram := setNext ram memSizeAligned memSizeAligned
  let ram := setPrev ram memSizeAligned memSizeAligned
  ⟨ram, 0⟩

/-- A requested size, aligned in a `mem_size_t` of 16 bits and at least `MIN_SIZE_ALIGNED`. -/
def requestSize (size : U16) : ℕ :=
  let size : U16 := BitVec.ofNat 16 (alignUp size.toNat)
  if size.toNat < minSizeAligned then minSizeAligned else size.toNat

/-- `mem->next - (ptr + SIZEOF_STRUCT_MEM)`, which is unsigned. -/
def userDataSize (ram : ℕ → U8) (ptr : ℕ) : ℕ :=
  (memNext ram ptr + 2 ^ 32 - (ptr + sizeofStructMem)) % 2 ^ 32

/-- The scan for a free block that is big enough, for at most `fuel` blocks. -/
def findBlock (ram : ℕ → U8) (size : ℕ) : ℕ → ℕ → Option (Option ℕ)
  | 0, _ => none
  | fuel + 1, ptr =>
    if ptr < memSizeAligned - size then
      if memUsed ram ptr = 0 ∧ size ≤ userDataSize ram ptr then some (some ptr)
      else findBlock ram size fuel (memNext ram ptr)
    else some none

def nextFree (ram : ℕ → U8) : ℕ → ℕ → Option ℕ
  | 0, _ => none
  | fuel + 1, cur =>
    if memUsed ram cur ≠ 0 ∧ cur ≠ memSizeAligned then nextFree ram fuel (memNext ram cur)
    else some cur

def insertMem (ram : ℕ → U8) (ptr ptr2 next : ℕ) : ℕ → U8 :=
  let ram := setUsed ram ptr2 0
  let ram := setNext ram ptr2 next
  let ram := setPrev ram ptr2 ptr
  let ram := setNext ram ptr ptr2
  if next ≠ memSizeAligned then setPrev ram next ptr2 else ram

def takeBlock (ram : ℕ → U8) (ptr size : ℕ) : ℕ → U8 :=
  if size + sizeofStructMem + minSizeAligned ≤ userDataSize ram ptr then
    let ptr2 := (ptr + sizeofStructMem + size) % 2 ^ 16
    setUsed (insertMem ram ptr ptr2 (memNext ram ptr)) ptr 1
  else setUsed ram ptr 1

/-- `mem_malloc`. Without result where a loop runs on for more steps than the heap has bytes. -/
def memMalloc (h : MemHeap) (size : U16) : Option (MemHeap × Option ℕ) :=
  if size = 0 then some (h, none)
  else if memSizeAligned < requestSize size then some (h, none)
  else
    match findBlock h.ram (requestSize size) memSizeAligned h.lfree with
    | none => none
    | some none => some (h, none)
    | some (some mem) =>
      let ram := takeBlock h.ram mem (requestSize size)
      let lfree := if mem = h.lfree then nextFree ram memSizeAligned mem else some h.lfree
      lfree.map fun lfree => (⟨ram, lfree⟩, some (mem + sizeofStructMem))

def plugForward (h : MemHeap) (mem : ℕ) : MemHeap :=
  let nmem := memNext h.ram mem
  if mem ≠ nmem ∧ memUsed h.ram nmem = 0 ∧ nmem ≠ memSizeAligned then
    let ram := setNext h.ram mem (memNext h.ram nmem)
    ⟨setPrev ram (memNext ram nmem) mem, if h.lfree = nmem then mem else h.lfree⟩
  else h

def plugBackward (h : MemHeap) (mem : ℕ) : MemHeap :=
  let pmem := memPrev h.ram mem
  if pmem ≠ mem ∧ memUsed h.ram pmem = 0 then
    let ram := setNext h.ram pmem (memNext h.ram mem)
    ⟨setPrev ram (memNext ram mem) pmem, if h.lfree = mem then pmem else h.lfree⟩
  else h

def plugHoles (h : MemHeap) (mem : ℕ) : MemHeap := plugBackward (plugForward h mem) mem

def memFree (h : MemHeap) (rmem : Option ℕ) : MemHeap :=
  match rmem with
  | none => h
  | some rmem =>
    if memSizeAligned ≤ rmem then h
    else
      let mem := rmem - sizeofStructMem
      plugHoles ⟨setUsed h.ram mem 0, if mem < h.lfree then mem else h.lfree⟩ mem

def memTrim (h : MemHeap) (rmem : ℕ) (newsize : U16) : MemHeap × Option ℕ :=
  let newsize := requestSize newsize
  if memSizeAligned < newsize then (h, none)
  else if memSizeAligned ≤ rmem then (h, some rmem)
  else
    let ptr := rmem - sizeofStructMem
    let size := (memNext h.ram ptr + 2 ^ 32 - (ptr + sizeofStructMem)) % 2 ^ 16
    let mem2 := memNext h.ram ptr
    let ptr2 := (ptr + sizeofStructMem + newsize) % 2 ^ 16
    if size < newsize then (h, none)
    else if newsize = size then (h, some rmem)
    else if memUsed h.ram mem2 = 0 then
      -- the struct that follows moves towards the block
      (⟨insertMem h.ram ptr ptr2 (memNext h.ram mem2), if h.lfree = mem2 then ptr2 else h.lfree⟩,
        some rmem)
    else if newsize + sizeofStructMem + minSizeAligned ≤ size then
      (⟨insertMem h.ram ptr ptr2 mem2, if ptr2 < h.lfree then ptr2 else h.lfree⟩, some rmem)
    else (h, some rmem)

end EnvirMonitor.Heap
