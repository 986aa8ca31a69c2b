import EnvirMonitor.Machine.Words
import EnvirMonitor.Machine.RunTable

/-! The memory that lwIP's pools and heap are given at run time: the sizes `lwipcomm.c` asks
for, and the pointer walks of `memp_init` and `mem_init` through it. -/

namespace EnvirMonitor.Allocator
open Machine

def memAlignment : U32 := 4

def lwipMemAlign (x : U32) : U32 := (x + memAlignment - 1) &&& ~~~(memAlignment - 1)

def alignUp (n : ℕ) : ℕ := (n + 3) / 4 * 4

theorem lwipMemAlign_toNat {x : U32} (h : x.toNat + 3 < 2 ^ 32) :
    (lwipMemAlign x).toNat = alignUp x.toNat := by
  have hshift (y : U32) : y &&& ~~~(memAlignment - 1) = y >>> 2 <<< 2 := by
    ext i hi
    by_cases hlow : i < 2
    · interval_cases i <;> simp [memAlignment]
    · have hsub : 2 + (i - 2) = i := by omega
      have hmask : ∀ i (h : i < 32), ¬ i < 2 → (4294967292#32)[i] = true := by decide
      simp [memAlignment, hlow, hsub, hmask i hi hlow, BitVec.getLsbD_eq_getElem hi]
  have hadd : (x + memAlignment - 1).toNat = x.toNat + 3 := by
    simp [memAlignment]
    omega
  rw [lwipMemAlign, hshift, BitVec.toNat_shiftLeft, BitVec.toNat_ushiftRight, hadd,
    Nat.shiftRight_eq_div_pow, Nat.shiftLeft_eq, alignUp]
  omega

theorem le_alignUp (n : ℕ) : n ≤ alignUp n ∧ alignUp n ≤ n + 3 ∧ 4 ∣ alignUp n := by
  unfold alignUp
  omega

/-! ## The pools -/

/-- `LWIP_MEMPOOL(name,num,size,desc)`, where `size` is the `sizeof` of the elements. -/
structure Mempool where
  num : U32
  size : U32
  size_pos : 0 < size.toNat
  size_lt : alignUp size.toNat < 2 ^ 16

/-- `MEMP_SIZE`, as `MEMP_OVERFLOW_CHECK` is off. -/
def mempSize : U32 := 0

def mempSizes (p : Mempool) : U16 := (lwipMemAlign p.size).setWidth 16

def mempNum (p : Mempool) : U16 := p.num.setWidth 16

def mempGetMemorysize (pools : List Mempool) : U32 :=
  pools.foldl (fun length p => length + p.num * (mempSize + lwipMemAlign p.size)) (memAlignment - 1)

/-- The `next` field of a `struct memp` at each address, and the pointer `memp` of the walk. -/
structure Walk where
  next : U32 → U32
  memp : U32

def linkElements (size : U16) : ℕ → U32 → Walk → U32 × Walk
  | 0, head, w => (head, w)
  | j + 1, head, w =>
    linkElements size j w.memp
      { next := Function.update w.next w.memp head, memp := w.memp + mempSize + size.setWidth 32 }

/-- The outer loop, which also returns `memp_tab`. -/
def linkPools : List Mempool → Walk → List U32 × Walk
  | [], w => ([], w)
  | p :: pools, w =>
    let (head, w) := linkElements (mempSizes p) (mempNum p).toNat 0 w
    let (tab, w) := linkPools pools w
    (head :: tab, w)

def mempInit (mempMemory : U32) (pools : List Mempool) (next : U32 → U32) : List U32 × Walk :=
  linkPools pools ⟨next, lwipMemAlign mempMemory⟩

def Linked (next : U32 → U32) : U32 → List U32 → Prop
  | head, [] => head = 0
  | head, e :: elements => head = e ∧ e ≠ 0 ∧ Linked next (next e) elements

def element (size : ℕ) (e : U32) : Run := ⟨e.toNat, size⟩

def carved : List Mempool → List (List U32) → List Run
  | p :: pools, es :: elements => es.map (element (mempSizes p).toNat) ++ carved pools elements
  | _, _ => []

/-- The lists of `memp_tab` are made of aligned, disjoint elements within `size` bytes. -/
structure Carves (mempMemory size : ℕ) (pools : List Mempool) (elements : List (List U32)) :
    Prop where
  counts : List.Forall₂ (fun p es => es.length = (mempNum p).toNat) pools elements
  apart : (carved pools elements).Pairwise Run.Apart
  aligned : ∀ r ∈ carved pools elements, 4 ∣ r.start
  inside : ∀ r ∈ carved pools elements, mempMemory ≤ r.start ∧ r.start + r.len ≤ mempMemory + size

theorem linked_congr {next next' : U32 → U32} {head : U32} {elements : List U32}
    (h : Linked next head elements) (hsame : ∀ e ∈ elements, next' e = next e) :
    Linked next' head elements := by
  induction elements generalizing head with
  | nil => exact h
  | cons e elements ih =>
    obtain ⟨hhead, hne, hrest⟩ := h
    refine ⟨hhead, hne, ?_⟩
    rw [hsame e List.mem_cons_self]
    exact ih hrest fun x hx => hsame x (List.mem_cons_of_mem e hx)

theorem mempSizes_toNat (p : Mempool) : (mempSizes p).toNat = alignUp p.size.toNat := by
  have hlt := p.size_lt
  have hle := le_alignUp p.size.toNat
  rw [mempSizes, BitVec.toNat_setWidth, lwipMemAlign_toNat (by omega), Nat.mod_eq_of_lt hlt]

def walkBytes (pools : List Mempool) : ℕ :=
  (pools.map fun p => (mempNum p).toNat * alignUp p.size.toNat).sum

theorem add_size_toNat {memp : U32} {size : U16} (h : memp.toNat + size.toNat < 2 ^ 32) :
    (memp + mempSize + size.setWidth 32).toNat = memp.toNat + size.toNat := by
  have hmemp : memp + mempSize = memp := BitVec.add_zero memp
  have hwide : (size.setWidth 32).toNat = size.toNat := by
    rw [BitVec.toNat_setWidth, Nat.mod_eq_of_lt (by have := size.isLt; omega)]
  rw [hmemp, BitVec.toNat_add, hwide, Nat.mod_eq_of_lt h]

structure Links (size : ℕ) (w : Walk) (n : ℕ) (w' : Walk) (new : List U32) : Prop where
  memp : w'.memp.toNat = w.memp.toNat + n * size
  length : new.length = n
  below : ∀ a : U32, a.toNat < w.memp.toNat → w'.next a = w.next a
  apart : (new.map (element size)).Pairwise Run.Apart
  inside : ∀ e ∈ new, 4 ∣ e.toNat ∧ w.memp.toNat ≤ e.toNat ∧ e.toNat + size ≤ w'.memp.toNat

/-- The element that the walk links first stands last in the list. -/
theorem Links.step {size n : ℕ} {w w₁ w' : Walk} {new : List U32} (h : Links size w₁ n w' new)
    (hmemp : 4 ∣ w.memp.toNat) (hnext : w₁.memp.toNat = w.memp.toNat + size)
    (hother : ∀ a : U32, a.toNat < w.memp.toNat → w₁.next a = w.next a) :
    Links size w (n + 1) w' (new ++ [w.memp]) := by
  have hend := h.memp
  refine ⟨?_, ?_, fun a ha => ?_, ?_, fun e he => ?_⟩
  · rw [Nat.succ_mul]
    omega
  · rw [List.length_append, h.length, List.length_singleton]
  · rw [← hother a ha]
    exact h.below a (by omega)
  · rw [List.map_append, List.pairwise_append]
    refine ⟨h.apart, List.pairwise_singleton .., fun r hr q hq => Or.inr ?_⟩
    obtain ⟨e, he, rfl⟩ := List.mem_map.mp hr
    obtain rfl := List.mem_singleton.mp hq
    have := (h.inside e he).2.1
    simp only [element]
    omega
  · rcases List.mem_append.mp he with he | he
    · obtain ⟨hdvd, hlow, hhigh⟩ := h.inside e he
      exact ⟨hdvd, by omega, hhigh⟩
    · obtain rfl := List.mem_singleton.mp he
      exact ⟨hmemp, le_rfl, by omega⟩

theorem linkElements_links {size : U16} (hpos : 0 < size.toNat) (hsize : 4 ∣ size.toNat) {n : ℕ}
    {w : Walk} (hmemp : 4 ∣ w.memp.toNat) (hne : 0 < w.memp.toNat)
    (hfit : w.memp.toNat + n * size.toNat < 2 ^ 32) {head : U32} {old : List U32}
    (hold : Linked w.next head old) (hbelow : ∀ e ∈ old, e.toNat < w.memp.toNat) :
    ∃ new, Linked (linkElements size n head w).2.next (linkElements size n head w).1 (new ++ old) ∧
      Links size.toNat w n (linkElements size n head w).2 new := by
  induction n generalizing w head old with
  | zero =>
    exact ⟨[], hold, by simp [linkElements], rfl, fun _ _ => rfl, List.Pairwise.nil, by simp⟩
  | succ n ih =>
    set w₁ : Walk := ⟨Function.update w.next w.memp head, w.memp + mempSize + size.setWidth 32⟩
    have hstep : linkElements size (n + 1) head w = linkElements size n w.memp w₁ := rfl
    have hnext : w₁.memp.toNat = w.memp.toNat + size.toNat := add_size_toNat (by
      rw [Nat.succ_mul] at hfit
      omega)
    have hself : w₁.next w.memp = head := Function.update_self ..
    -- the fields written before lie below the new element
    have hother (a : U32) (ha : a.toNat < w.memp.toNat) : w₁.next a = w.next a :=
      Function.update_of_ne (fun h => by rw [h] at ha; omega) ..
    have hold₁ : Linked w₁.next w.memp (w.memp :: old) := by
      refine ⟨rfl, fun h => by rw [h] at hne; exact Nat.lt_irrefl 0 hne, ?_⟩
      rw [hself]
      exact linked_congr hold fun e he => hother e (hbelow e he)
    have hbelow₁ : ∀ e ∈ w.memp :: old, e.toNat < w₁.memp.toNat := by
      intro e he
      rcases List.mem_cons.mp he with rfl | he
      · omega
      · have := hbelow e he
        omega
    rw [Nat.succ_mul] at hfit
    obtain ⟨new, hlinked, hnew⟩ := ih (w := w₁) (by rw [hnext]; exact dvd_add hmemp hsize)
      (by omega) (by omega) hold₁ hbelow₁
    rw [hstep]
    refine ⟨new ++ [w.memp], ?_, hnew.step hmemp hnext hother⟩
    rw [List.append_assoc]
    exact hlinked

theorem walkBytes_cons (p : Mempool) (pools : List Mempool) : walkBytes (p :: pools) =
    (mempNum p).toNat * (mempSizes p).toNat + walkBytes pools := by
  rw [mempSizes_toNat]
  exact List.sum_cons

theorem Carves.cons {p : Mempool} {pools : List Mempool} {w w₁ : Walk} {es : List U32}
    {elements : List (List U32)} (hlinks : Links (mempSizes p).toNat w (mempNum p).toNat w₁ es)
    (h : Carves w₁.memp.toNat (walkBytes pools) pools elements) :
    Carves w.memp.toNat (walkBytes (p :: pools)) (p :: pools) (es :: elements) := by
  have hend := hlinks.memp
  have hrun : ∀ r ∈ es.map (element (mempSizes p).toNat), 4 ∣ r.start ∧
      w.memp.toNat ≤ r.start ∧ r.start + r.len ≤ w₁.memp.toNat := by
    intro r hr
    obtain ⟨e, he, rfl⟩ := List.mem_map.mp hr
    exact hlinks.inside e he
  rw [walkBytes_cons]
  refine ⟨List.Forall₂.cons hlinks.length h.counts, ?_, fun r hr => ?_, fun r hr => ?_⟩
  · rw [carved, List.pairwise_append]
    refine ⟨hlinks.apart, h.apart, fun r hr q hq => Or.inl ?_⟩
    exact (hrun r hr).2.2.trans (h.inside q hq).1
  · rcases List.mem_append.mp hr with hr | hr
    · exact (hrun r hr).1
    · exact h.aligned r hr
  · rcases List.mem_append.mp hr with hr | hr
    · have := hrun r hr
      omega
    · have := h.inside r hr
      omega

theorem linkPools_carves {pools : List Mempool} {w : Walk} (hmemp : 4 ∣ w.memp.toNat)
    (hne : 0 < w.memp.toNat) (hfit : w.memp.toNat + walkBytes pools < 2 ^ 32) :
    ∃ elements, List.Forall₂ (Linked (linkPools pools w).2.next) (linkPools pools w).1 elements ∧
      (∀ a : U32, a.toNat < w.memp.toNat → (linkPools pools w).2.next a = w.next a) ∧
      Carves w.memp.toNat (walkBytes pools) pools elements := by
  induction pools generalizing w with
  | nil =>
    exact ⟨[], List.Forall₂.nil, fun _ _ => rfl, List.Forall₂.nil, List.Pairwise.nil, by simp [carved],
      by simp [carved]⟩
  | cons p pools ih =>
    have hsize := mempSizes_toNat p
    have hle := le_alignUp p.size.toNat
    have hpos := p.size_pos
    rw [walkBytes_cons] at hfit
    obtain ⟨es, hes, hlinks⟩ := @linkElements_links (mempSizes p) (by omega) (by omega)
      (mempNum p).toNat w hmemp hne (by omega) 0 [] rfl (by simp)
    set w₁ := (linkElements (mempSizes p) (mempNum p).toNat 0 w).2
    have hmemp₁ := hlinks.memp
    obtain ⟨elements, htab, hbelow, hcarves⟩ := ih (w := w₁)
      (by rw [hmemp₁]; exact dvd_add hmemp (Dvd.dvd.mul_left (by omega) _)) (by omega) (by omega)
    have hstep : linkPools (p :: pools) w =
        ((linkElements (mempSizes p) (mempNum p).toNat 0 w).1 :: (linkPools pools w₁).1,
          (linkPools pools w₁).2) := rfl
    rw [hstep]
    refine ⟨es :: elements, List.Forall₂.cons ?_ htab, fun a ha => ?_, hcarves.cons hlinks⟩
    · -- the walk through the later pools leaves this list alone
      rw [List.append_nil] at hes
      refine linked_congr hes fun e he => hbelow e ?_
      have := (hlinks.inside e he).2.2
      omega
    · rw [← hlinks.below a ha]
      exact hbelow a (by omega)

/-- The bytes that `memp_get_memorysize` means to count. -/
def poolBytes (pools : List Mempool) : ℕ :=
  3 + (pools.map fun p => p.num.toNat * alignUp p.size.toNat).sum

structure Reserved (start : U32) (size : ℕ) : Prop where
  nonnull : 0 < start.toNat
  below : start.toNat + size < 2 ^ 32

theorem mempGetMemorysize_toNat {pools : List Mempool} (h : poolBytes pools < 2 ^ 32) :
    (mempGetMemorysize pools).toNat = poolBytes pools := by
  have hfold (length : U32) : (pools.foldl (fun length p => length + p.num * (mempSize +
      lwipMemAlign p.size)) length).toNat =
        (length.toNat + (pools.map fun p => p.num.toNat * alignUp p.size.toNat).sum) % 2 ^ 32 := by
    clear h
    induction pools generalizing length with
    | nil => simp [Nat.mod_eq_of_lt length.isLt]
    | cons p pools ih =>
      have hle := le_alignUp p.size.toNat
      have hlt := p.size_lt
      have hzero : mempSize + lwipMemAlign p.size = lwipMemAlign p.size := BitVec.zero_add _
      rw [List.foldl_cons, ih, List.map_cons, List.sum_cons, hzero, BitVec.toNat_add,
        BitVec.toNat_mul, lwipMemAlign_toNat (by omega)]
      simp only [Nat.add_mod_mod, Nat.mod_add_mod, Nat.add_assoc]
  rw [mempGetMemorysize, hfold]
  exact Nat.mod_eq_of_lt h

theorem walkBytes_le (pools : List Mempool) : 3 + walkBytes pools ≤ poolBytes pools := by
  induction pools with
  | nil => exact le_rfl
  | cons p pools ih =>
    have hnum : (mempNum p).toNat * alignUp p.size.toNat ≤ p.num.toNat * alignUp p.size.toNat := by
      apply Nat.mul_le_mul_right
      rw [mempNum, BitVec.toNat_setWidth]
      exact Nat.mod_le ..
    simp only [walkBytes, poolBytes, List.map_cons, List.sum_cons] at ih ⊢
    omega

/-- What `memp_init` links lies in the block that `memp_get_memorysize` asks for. -/
def PoolsInside (mempMemory : U32) (pools : List Mempool) (next : U32 → U32) : Prop :=
  ∃ elements, List.Forall₂ (Linked (mempInit mempMemory pools next).2.next)
      (mempInit mempMemory pools next).1 elements ∧
    Carves mempMemory.toNat (mempGetMemorysize pools).toNat pools elements

theorem mempInit_inside {pools : List Mempool} {mempMemory : U32}
    (h : Reserved mempMemory (poolBytes pools)) (next : U32 → U32) :
    PoolsInside mempMemory pools next := by
  have hbytes := walkBytes_le pools
  have hbelow := h.below
  have hnonnull := h.nonnull
  rw [PoolsInside, mempGetMemorysize_toNat (by omega)]
  have halign := lwipMemAlign_toNat (x := mempMemory) (by omega)
  have hle := le_alignUp mempMemory.toNat
  set w : Walk := ⟨next, lwipMemAlign mempMemory⟩
  have hmemp : w.memp.toNat = alignUp mempMemory.toNat := halign
  obtain ⟨elements, htab, -, hcarves⟩ := @linkPools_carves pools w (by omega) (by omega) (by omega)
  refine ⟨elements, htab, hcarves.counts, hcarves.apart, hcarves.aligned, fun r hr => ?_⟩
  have := hcarves.inside r hr
  omega

/-! ## The heap -/

/-- `MEM_SIZE_ALIGNED` and both `SIZEOF_STRUCT_MEM` with the slack for the alignment. -/
def ramheapsize (memSize : U32) : U32 :=
  lwipMemAlign memSize + 2 * lwipMemAlign (4 * 3) + memAlignment

structure Mem where
  next : U32
  prev : U32
  used : U8

structure Heap where
  ram : U32
  first : Mem
  ramEnd : U32
  last : Mem
  lfree : U32

def memInit (ramHeap memSize : U32) : Heap :=
  let ram := lwipMemAlign ramHeap
  { ram := ram
    first := ⟨lwipMemAlign memSize, 0, 0⟩
    ramEnd := ram + lwipMemAlign memSize
    last := ⟨lwipMemAlign memSize, lwipMemAlign memSize, 1⟩
    lfree := ram }

def heapBytes (memSize : U32) : ℕ := alignUp memSize.toNat + 28

def HeapInside (ramHeap memSize : U32) (sizeofMem : ℕ) : Prop :=
  ramHeap.toNat ≤ (memInit ramHeap memSize).ram.toNat ∧
    (memInit ramHeap memSize).ram.toNat + alignUp memSize.toNat =
      (memInit ramHeap memSize).ramEnd.toNat ∧
    (memInit ramHeap memSize).ramEnd.toNat + sizeofMem ≤
      ramHeap.toNat + (ramheapsize memSize).toNat

theorem memInit_inside {ramHeap memSize : U32} (h : Reserved ramHeap (heapBytes memSize))
    {sizeofMem : ℕ} (hsizeof : sizeofMem ≤ 12) : HeapInside ramHeap memSize sizeofMem := by
  have hbelow := h.below
  have hle := le_alignUp memSize.toNat
  have hle' := le_alignUp ramHeap.toNat
  rw [heapBytes] at hbelow
  have hsize := lwipMemAlign_toNat (x := memSize) (by omega)
  have hram : (memInit ramHeap memSize).ram.toNat = alignUp ramHeap.toNat :=
    lwipMemAlign_toNat (by omega)
  have hend : (memInit ramHeap memSize).ramEnd.toNat =
      alignUp ramHeap.toNat + alignUp memSize.toNat := by
    rw [memInit, BitVec.toNat_add, hsize, lwipMemAlign_toNat (x := ramHeap) (by omega)]
    exact Nat.mod_eq_of_lt (by omega)
  have hheap : (ramheapsize memSize).toNat = alignUp memSize.toNat + 28 := by
    have hslack : ramheapsize memSize = lwipMemAlign memSize + 28#32 := by
      rw [ramheapsize, BitVec.add_assoc]
      rfl
    have h28 : (28#32).toNat = 28 := rfl
    rw [hslack, BitVec.toNat_add, hsize, h28]
    exact Nat.mod_eq_of_lt (by omega)
  rw [HeapInside, hram, hend, hheap]
  omega

/-- Both areas are large enough when their sizes and blocks fit the 32-bit address space. -/
theorem lwip_areas_inside {pools : List Mempool} {memSize mempMemory ramHeap : U32}
    (hpools : Reserved mempMemory (poolBytes pools)) (hheap : Reserved ramHeap (heapBytes memSize))
    {sizeofMem : ℕ} (hsizeof : sizeofMem ≤ 12) (next : U32 → U32) :
    PoolsInside mempMemory pools next ∧ HeapInside ramHeap memSize sizeofMem :=
  ⟨mempInit_inside hpools next, memInit_inside hheap hsizeof⟩

/-- Ten packet buffers with their headers, and a pool of smaller elements. -/
def samplePools : List Mempool := [⟨10, 1516, by decide, by decide⟩, ⟨20, 18, by decide, by decide⟩]

theorem lwip_areas_inside_sample :
    PoolsInside 0x20001001 samplePools (fun _ => 0) ∧ HeapInside 0x20005002 10240 8 :=
  lwip_areas_inside ⟨by decide, by decide⟩ ⟨by decide, by decide⟩ (by decide) _

/-! A table whose total exceeds `2 ^ 32` bytes wraps the size around. -/

theorem linkElements_head (size : U16) (n : ℕ) (head : U32) (w : Walk) :
    (linkElements size (n + 1) head w).1 = w.memp + BitVec.ofNat 32 n * size.setWidth 32 := by
  induction n generalizing head w with
  | zero => simp [linkElements]
  | succ n ih =>
    have hstep : linkElements size (n + 1 + 1) head w = linkElements size (n + 1) w.memp
      ⟨Function.update w.next w.memp head, w.memp + mempSize + size.setWidth 32⟩ := rfl
    have hsucc : BitVec.ofNat 32 (n + 1) * size.setWidth 32 =
        size.setWidth 32 + BitVec.ofNat 32 n * size.setWidth 32 := by
      rw [BitVec.ofNat_add, BitVec.add_mul, BitVec.add_comm, BitVec.one_mul]
    have hzero : w.memp + mempSize = w.memp := BitVec.add_zero _
    rw [hstep, ih, hsucc, hzero, BitVec.add_assoc]

theorem mempInit_head {p : Mempool} {n : ℕ} (hn : (mempNum p).toNat = n + 1)
    (pools : List Mempool) (mempMemory : U32) (next : U32 → U32) :
    (mempInit mempMemory (p :: pools) next).1.head? =
      some (lwipMemAlign mempMemory + BitVec.ofNat 32 n * (mempSizes p).setWidth 32) := by
  rw [← linkElements_head _ n 0 ⟨next, lwipMemAlign mempMemory⟩, ← hn]
  rfl

def hugePools : List Mempool := [⟨65535, 65532, by decide, by decide⟩, ⟨6, 65532, by decide, by decide⟩]

theorem hugePools_outside : ¬ ∀ pools mempMemory next,
    Reserved mempMemory (mempGetMemorysize pools).toNat → PoolsInside mempMemory pools next := by
  intro h
  obtain ⟨elements, htab, hcarves⟩ := h hugePools 0x20000000 (fun _ => 0) ⟨by decide, by decide⟩
  -- the first list starts at the last of 65535 elements, which lies below the block
  have hhead := mempInit_head (p := ⟨65535, 65532, by decide, by decide⟩) (n := 65534) (by decide)
    [⟨6, 65532, by decide, by decide⟩] 0x20000000 fun _ => 0
  have hinside := hcarves.inside
  rw [hugePools] at htab hinside
  generalize (mempInit 0x20000000 _ fun _ => 0).1 = tab at htab hhead
  cases htab with
  | nil => exact absurd hhead (by simp)
  | @cons head es tab elements hlinked _ =>
    obtain rfl := Option.some.inj hhead
    cases es with
    | nil => exact absurd hlinked (by simp only [Linked]; decide)
    | cons e es =>
      have hin := hinside (element 65532 e) (List.mem_append_left _ List.mem_cons_self)
      rw [← hlinked.1] at hin
      exact absurd hin.1 (by decide)

end EnvirMonitor.Allocator
