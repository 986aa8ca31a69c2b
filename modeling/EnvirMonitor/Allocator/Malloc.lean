import EnvirMonitor.Machine.Words
import EnvirMonitor.Machine.RunTable

/-! The two-bank block allocator of `malloc.c`. Pool bytes live in one memory `mem`,
the two management tables in `memmap`. Pointers and offsets are `u32`. -/

namespace EnvirMonitor.Allocator
open Machine

inductive Bank
  | insram
  | exsram
  deriving DecidableEq

def memsize : Bank → ℕ
  | .insram => 30 * 1024
  | .exsram => 960 * 1024

def memblocksize : Bank → ℕ
  | .insram => 32
  | .exsram => 32

def memtabsize (bank : Bank) : ℕ := memsize bank / memblocksize bank

/-- The linker places `INMEMBase` in internal RAM; `EXMEMBase` is fixed at `0x68000000`. -/
structure Layout where
  inmemBase : U32
  nonnull : 0 < inmemBase.toNat
  below : inmemBase.toNat + memsize .insram ≤ 0x68000000

def Layout.membase (l : Layout) : Bank → U32
  | .insram => l.inmemBase
  | .exsram => 0x68000000

theorem Layout.membase_pos (l : Layout) (bank : Bank) : 0 < (l.membase bank).toNat := by
  cases bank
  · exact l.nonnull
  · exact (by decide : 0 < (0x68000000 : U32).toNat)

theorem Layout.membase_add_le (l : Layout) (bank : Bank) :
    (l.membase bank).toNat + memsize bank ≤ 2 ^ 32 := by
  cases bank
  · have := l.below
    simp only [membase]
    omega
  · exact (by decide : (0x68000000 : U32).toNat + memsize .exsram ≤ 2 ^ 32)

structure MallocDev where
  mem : ℕ → U8
  memmap : Bank → ℕ → U16
  memreadyflag : Bank → Bool

def MallocDev.setMap (dev : MallocDev) (bank : Bank) (map : ℕ → U16) : MallocDev :=
  { dev with memmap := Function.update dev.memmap bank map }

@[simp] theorem MallocDev.setMap_ready (dev : MallocDev) (bank : Bank) (map : ℕ → U16) :
    (dev.setMap bank map).memreadyflag = dev.memreadyflag := rfl

@[simp] theorem MallocDev.setMap_self (dev : MallocDev) (bank : Bank) (map : ℕ → U16) :
    (dev.setMap bank map).memmap bank = map := Function.update_self ..

theorem MallocDev.setMap_of_ne (dev : MallocDev) {bank bank' : Bank} (h : bank' ≠ bank)
    (map : ℕ → U16) : (dev.setMap bank map).memmap bank' = dev.memmap bank' :=
  Function.update_of_ne h ..

def mymemcpy (mem : ℕ → U8) (des src : ℕ) : ℕ → ℕ → U8
  | 0 => mem
  | len + 1 => mymemcpy (Function.update mem des (mem src)) (des + 1) (src + 1) len

def mymemset (mem : ℕ → U8) (des : ℕ) (data : U8) (len : ℕ) : ℕ → U8 := fill mem des data len

/-- Both bytes of each of the `memtabsize` map entries are cleared. -/
def myMemInit (l : Layout) (dev : MallocDev) (bank : Bank) : MallocDev where
  mem := mymemset dev.mem (l.membase bank).toNat 0 (memsize bank)
  memmap := Function.update dev.memmap bank (fill (dev.memmap bank) 0 0 (memtabsize bank))
  memreadyflag := Function.update dev.memreadyflag bank true

def ensureReady (l : Layout) (dev : MallocDev) (bank : Bank) : MallocDev :=
  if dev.memreadyflag bank then dev else myMemInit l dev bank

def memblockNeednum (bank : Bank) (size : U32) : ℕ :=
  if size.toNat % memblocksize bank ≠ 0 then size.toNat / memblocksize bank + 1
  else size.toNat / memblocksize bank

/-- The downward scan: `offset` entries are still to be looked at, and the `serinum`
entries from `offset` on are free. -/
def searchFree (map : ℕ → U16) (neednum : ℕ) : ℕ → ℕ → Option ℕ
  | 0, _ => none
  | offset + 1, serinum =>
    let serinum := if map offset = 0 then serinum + 1 else 0
    if neednum = serinum then some offset else searchFree map neednum offset serinum

def myMemMalloc (l : Layout) (dev : MallocDev) (bank : Bank) (size : U32) : U32 × MallocDev :=
  let dev := ensureReady l dev bank
  if size = 0 then (0xFFFFFFFF, dev)
  else
    let neednum := memblockNeednum bank size
    match searchFree (dev.memmap bank) neednum (memtabsize bank) 0 with
    | none => (0xFFFFFFFF, dev)
    | some offset =>
      (BitVec.ofNat 32 (offset * memblocksize bank),
        dev.setMap bank (fill (dev.memmap bank) offset (BitVec.ofNat 16 neednum) neednum))

/-- `NULL` is 0. -/
def mymalloc (l : Layout) (dev : MallocDev) (bank : Bank) (size : U32) : U32 × MallocDev :=
  let (offset, dev) := myMemMalloc l dev bank size
  if offset = 0xFFFFFFFF then (0, dev) else (l.membase bank + offset, dev)

/-- Returns 0, or 1 for a bank that was not initialised, or 2 for an offset beyond the pool. -/
def myMemFree (l : Layout) (dev : MallocDev) (bank : Bank) (offset : U32) : U8 × MallocDev :=
  if dev.memreadyflag bank then
    if offset.toNat < memsize bank then
      let index := offset.toNat / memblocksize bank
      let memblockNum := (dev.memmap bank index).toNat
      (0, dev.setMap bank (fill (dev.memmap bank) index 0 memblockNum))
    else (2, dev)
  else (1, myMemInit l dev bank)

def myfree (l : Layout) (dev : MallocDev) (bank : Bank) (ptr : U32) : MallocDev :=
  if ptr = 0 then dev else (myMemFree l dev bank (ptr - l.membase bank)).2

def myrealloc (l : Layout) (dev : MallocDev) (bank : Bank) (ptr size : U32) : U32 × MallocDev :=
  let (offset, dev) := myMemMalloc l dev bank size
  if offset = 0xFFFFFFFF then (0, dev)
  else
    let new := l.membase bank + offset
    let dev := { dev with mem := mymemcpy dev.mem new.toNat ptr.toNat size.toNat }
    (new, myfree l dev bank ptr)

/-! ## What each function does -/

@[simp] theorem memblocksize_eq (bank : Bank) : memblocksize bank = 32 := by
  cases bank <;> rfl

theorem memsize_eq (bank : Bank) : memsize bank = 32 * memtabsize bank := by
  cases bank <;> rfl

theorem memtabsize_lt (bank : Bank) : memtabsize bank < 2 ^ 16 := by
  cases bank <;> decide

theorem memblockNeednum_eq (bank : Bank) (size : U32) :
    memblockNeednum bank size = (size.toNat + 31) / 32 := by
  simp only [memblockNeednum, memblocksize_eq]
  split_ifs <;> omega

theorem memblockNeednum_pos {bank : Bank} {size : U32} (h : size ≠ 0) :
    0 < memblockNeednum bank size := by
  have : 0 < size.toNat := Nat.pos_of_ne_zero fun h0 => h (BitVec.eq_of_toNat_eq h0)
  rw [memblockNeednum_eq]
  omega

theorem searchFree_sound {map : ℕ → U16} {neednum offset serinum b size : ℕ}
    (hfree : ∀ i, offset ≤ i → i < offset + serinum → map i = 0) (hle : offset + serinum ≤ size)
    (h : searchFree map neednum offset serinum = some b) :
    b + neednum ≤ size ∧ ∀ i, Run.Mem ⟨b, neednum⟩ i → map i = 0 := by
  -- the scan runs downwards, and `serinum` free entries lie just above `offset`
  induction offset generalizing serinum with
  | zero => simp [searchFree] at h
  | succ offset ih =>
    have hfree' : ∀ i, offset ≤ i → i < offset + (if map offset = 0 then serinum + 1 else 0) →
        map i = 0 := by
      intro i h1 h2
      split_ifs at h2 with h0
      · rcases Nat.eq_or_lt_of_le h1 with rfl | h1
        · exact h0
        · exact hfree i h1 (by omega)
      · omega
    have hle' : offset + (if map offset = 0 then serinum + 1 else 0) ≤ size := by
      split_ifs <;> omega
    rw [searchFree] at h
    split_ifs at h hfree' hle' with h0 hn hn
    all_goals first
      | exact ih hfree' hle' h
      | (obtain rfl := Option.some.inj h
         subst hn
         exact ⟨hle', fun i hi => hfree' i hi.1 hi.2⟩)

theorem ensureReady_ready (l : Layout) (dev : MallocDev) (bank : Bank) :
    (ensureReady l dev bank).memreadyflag bank = true := by
  unfold ensureReady
  split_ifs with h
  · exact h
  · exact Function.update_self ..

theorem myMemMalloc_cases (l : Layout) (dev : MallocDev) (bank : Bank) (size : U32) :
    myMemMalloc l dev bank size = (0xFFFFFFFF, ensureReady l dev bank) ∨
      ∃ b, 0 < memblockNeednum bank size ∧ b + memblockNeednum bank size ≤ memtabsize bank ∧
        (∀ i, Run.Mem ⟨b, memblockNeednum bank size⟩ i →
          (ensureReady l dev bank).memmap bank i = 0) ∧
        myMemMalloc l dev bank size = (BitVec.ofNat 32 (b * 32),
          (ensureReady l dev bank).setMap bank (fill ((ensureReady l dev bank).memmap bank) b
            (BitVec.ofNat 16 (memblockNeednum bank size)) (memblockNeednum bank size))) := by
  unfold myMemMalloc
  by_cases hsize : size = 0
  · exact Or.inl (by rw [if_pos hsize])
  · simp only [if_neg hsize, memblocksize_eq]
    cases hs : searchFree ((ensureReady l dev bank).memmap bank) (memblockNeednum bank size)
        (memtabsize bank) 0 with
    | none => exact Or.inl rfl
    | some b =>
      obtain ⟨hle, hfree⟩ := searchFree_sound (by omega) le_rfl hs
      exact Or.inr ⟨b, memblockNeednum_pos hsize, hle, hfree, rfl⟩

end EnvirMonitor.Allocator
