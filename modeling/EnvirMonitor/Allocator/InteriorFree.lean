import EnvirMonitor.Allocator.Invariant

/-! Which map entries `my_mem_free` touches for an arbitrary offset, and whose they are. -/

namespace EnvirMonitor.Allocator
open Machine

def blockIndex (offset : U32) : ℕ := offset.toNat / 32

def clearedEntries (dev : MallocDev) (bank : Bank) (offset : U32) : List ℕ :=
  if offset.toNat < memsize bank then
    (List.range (dev.memmap bank (blockIndex offset)).toNat).map (blockIndex offset + ·)
  else []

def accessedEntries (dev : MallocDev) (bank : Bank) (offset : U32) : List ℕ :=
  if offset.toNat < memsize bank then blockIndex offset :: clearedEntries dev bank offset else []

def clearEntry (map : ℕ → U16) (i : ℕ) : ℕ → U16 := Function.update map i 0

theorem foldl_clearEntry (map : ℕ → U16) (index n : ℕ) :
    ((List.range n).map (index + ·)).foldl clearEntry map = fill map index 0 n := by
  induction n with
  | zero => rfl
  | succ n ih =>
    rw [List.range_succ, List.map_append, List.foldl_append, ih]
    rfl

theorem myMemFree_clears (l : Layout) {dev : MallocDev} {bank : Bank}
    (hready : dev.memreadyflag bank = true) (offset : U32) :
    (myMemFree l dev bank offset).2.memmap bank =
      (clearedEntries dev bank offset).foldl clearEntry (dev.memmap bank) := by
  unfold myMemFree clearedEntries
  rw [if_pos hready, memblocksize_eq]
  split_ifs with hin
  · rw [foldl_clearEntry]
    exact MallocDev.setMap_self ..
  · rfl

/-- The free touches the table only, and there only the allocation that the offset lies in. -/
structure FreeStaysInside (l : Layout) (s : System) (bank : Bank) (offset : U32) : Prop where
  inTable : ∀ i ∈ accessedEntries s.dev bank offset, i < memtabsize bank
  own : ∀ i ∈ clearedEntries s.dev bank offset, ∃ blk ∈ s.live bank,
    (blockRun l bank blk).Mem (blockIndex offset) ∧ (blockRun l bank blk).Mem i ∧
      ∀ blk' ∈ s.live bank, (blockRun l bank blk').Mem (blockIndex offset) → blk' = blk
  others : ∀ blk ∈ s.live bank, ¬ (blockRun l bank blk).Mem (blockIndex offset) →
    ∀ i, (blockRun l bank blk).Mem i →
      (myMemFree l s.dev bank offset).2.memmap bank i = s.dev.memmap bank i

def AtStart (l : Layout) (live : List Block) (bank : Bank) (offset : U32) : Prop :=
  ∀ blk ∈ live, (blockRun l bank blk).Mem (blockIndex offset) →
    (blockRun l bank blk).start = blockIndex offset

instance (l : Layout) (live : List Block) (bank : Bank) (offset : U32) :
    Decidable (AtStart l live bank offset) := inferInstanceAs (Decidable (∀ blk ∈ live, _ → _))

theorem mem_clearedEntries {dev : MallocDev} {bank : Bank} {offset : U32} {i : ℕ} :
    i ∈ clearedEntries dev bank offset ↔ offset.toNat < memsize bank ∧
      Run.Mem ⟨blockIndex offset, (dev.memmap bank (blockIndex offset)).toNat⟩ i := by
  unfold clearedEntries
  split_ifs with hin
  · simp only [List.mem_map, List.mem_range, hin, true_and, Run.Mem]
    constructor
    · rintro ⟨j, hj, rfl⟩
      omega
    · exact fun h => ⟨i - blockIndex offset, by omega, by omega⟩
  · simp [hin]

theorem myMemFree_others (l : Layout) {dev : MallocDev} {bank : Bank}
    (hready : dev.memreadyflag bank = true) {offset : U32} {i : ℕ}
    (hi : i ∉ clearedEntries dev bank offset) :
    (myMemFree l dev bank offset).2.memmap bank i = dev.memmap bank i := by
  rw [myMemFree_clears l hready]
  rw [mem_clearedEntries] at hi
  unfold clearedEntries
  split_ifs with hin
  · rw [foldl_clearEntry, fill_apply, if_neg fun h => hi ⟨hin, h⟩]
  · rfl

section
variable {l : Layout} {bank : Bank} {dev : MallocDev} {live : List Block} {offset : U32}

theorem blockIndex_lt (h : offset.toNat < memsize bank) : blockIndex offset < memtabsize bank := by
  have := memsize_eq bank
  unfold blockIndex
  omega

theorem blockIndex_in_pool (htab : TableOf (blockRun l bank) (memtabsize bank) live
    fun i => (dev.memmap bank i).toNat) {blk : Block} (hblk : blk ∈ live)
    (hmem : (blockRun l bank blk).Mem (blockIndex offset)) : offset.toNat < memsize bank := by
  have hin := htab.inside blk hblk
  have hlt := hmem.2
  have := memsize_eq bank
  unfold blockIndex at hlt
  omega

theorem eq_of_mem_run (htab : TableOf (blockRun l bank) (memtabsize bank) live
    fun i => (dev.memmap bank i).toNat) {x y : Block} (hx : x ∈ live) (hy : y ∈ live) {i : ℕ}
    (hxi : (blockRun l bank x).Mem i) (hyi : (blockRun l bank y).Mem i) : x = y := by
  by_contra hne
  have : Std.Symm fun x y => Run.Apart (blockRun l bank x) (blockRun l bank y) := ⟨fun _ _ h => h.symm⟩
  exact (htab.apart.forall hx hy hne).not_mem hxi hyi

theorem cleared_at_start (htab : TableOf (blockRun l bank) (memtabsize bank) live
    fun i => (dev.memmap bank i).toNat) (hstart : AtStart l live bank offset) {i : ℕ}
    (hi : i ∈ clearedEntries dev bank offset) : ∃ blk ∈ live,
      (blockRun l bank blk).Mem (blockIndex offset) ∧ (blockRun l bank blk).Mem i := by
  obtain ⟨hin, hge, hlt⟩ := mem_clearedEntries.mp hi
  have hused : (dev.memmap bank (blockIndex offset)).toNat ≠ 0 := by
    simp only at hge hlt
    omega
  obtain ⟨blk, hblk, hmem⟩ : ∃ blk ∈ live, (blockRun l bank blk).Mem (blockIndex offset) := by
    by_contra hno
    push Not at hno
    exact hused (htab.free _ (blockIndex_lt hin) hno)
  refine ⟨blk, hblk, hmem, ?_, ?_⟩
  · rw [hstart blk hblk hmem]
    exact hge
  · have hheld := htab.held blk hblk _ hmem
    simp only at hheld hlt
    rw [hstart blk hblk hmem, ← hheld]
    exact hlt

theorem cleared_behind (htab : TableOf (blockRun l bank) (memtabsize bank) live
    fun i => (dev.memmap bank i).toNat) {blk : Block} (hblk : blk ∈ live)
    (hmem : (blockRun l bank blk).Mem (blockIndex offset))
    (hne : (blockRun l bank blk).start ≠ blockIndex offset) :
    (blockRun l bank blk).start + (blockRun l bank blk).len ∈ clearedEntries dev bank offset := by
  have hheld := htab.held blk hblk _ hmem
  have hge := hmem.1
  have hlt := hmem.2
  refine mem_clearedEntries.mpr ⟨blockIndex_in_pool htab hblk hmem, ?_, ?_⟩ <;> simp only at * <;> omega

end

theorem free_inside_iff {l : Layout} {s₀ s : System} {ops : List Op} (hstart : Start l s₀)
    (hrun : exec (step l) s₀ ops = some s) {bank : Bank} (hready : s.dev.memreadyflag bank = true)
    (offset : U32) : FreeStaysInside l s bank offset ↔ AtStart l (s.live bank) bank offset := by
  have hinv := reachable_inv hstart hrun
  have htab := (hinv bank).table hready
  constructor
  · intro h blk hblk hmem
    by_contra hne
    obtain ⟨blk', hblk', hmem', hend, -⟩ := h.own _ (cleared_behind htab hblk hmem hne)
    obtain rfl := eq_of_mem_run htab hblk hblk' hmem hmem'
    exact absurd hend.2 (lt_irrefl _)
  · intro h
    refine ⟨fun i hi => ?_, fun i hi => ?_, fun blk hblk hno i hi => ?_⟩
    · unfold accessedEntries at hi
      split_ifs at hi with hin
      · rcases List.mem_cons.mp hi with rfl | hi
        · exact blockIndex_lt hin
        · obtain ⟨blk, hblk, -, hmem⟩ := cleared_at_start htab h hi
          exact hmem.2.trans_le (htab.inside blk hblk)
      · exact absurd hi List.not_mem_nil
    · obtain ⟨blk, hblk, hmem, hmemi⟩ := cleared_at_start htab h hi
      exact ⟨blk, hblk, hmem, hmemi, fun blk' hblk' hmem' => eq_of_mem_run htab hblk' hblk hmem' hmem⟩
    · refine myMemFree_others l hready fun hc => ?_
      obtain ⟨blk', hblk', hmem', hmemi⟩ := cleared_at_start htab h hc
      exact hno (eq_of_mem_run htab hblk' hblk hmemi hi ▸ hmem')

/-- Two allocations of two blocks each, at the end of the pool. -/
def pairOps : List Op := [.mymalloc .insram 33, .mymalloc .insram 33]

theorem exec_pairOps : ∃ s, exec (step sampleLayout) bootSystem pairOps = some s ∧
    s.dev.memreadyflag .insram = true ∧
    s.live .insram = [⟨0x20000000 + 956 * 32, 33⟩, ⟨0x20000000 + 958 * 32, 33⟩] ∧
    clearedEntries s.dev .insram (957 * 32) = [957, 958] ∧
    accessedEntries s.dev .insram (959 * 32) = [959, 959, 960] := by
  have hsome : (exec (step sampleLayout) bootSystem pairOps).isSome := by decide +kernel
  refine ⟨Option.get _ hsome, (Option.some_get hsome).symm, ?_, ?_, ?_, ?_⟩ <;>
    decide +kernel +revert

theorem free_inside_iff_sample : ∃ s, exec (step sampleLayout) bootSystem pairOps = some s ∧
    FreeStaysInside sampleLayout s .insram (956 * 32) := by
  obtain ⟨s, hrun, hready, hlive, -, -⟩ := exec_pairOps
  refine ⟨s, hrun, (free_inside_iff start_bootSystem hrun hready _).mpr ?_⟩
  rw [hlive]
  decide +kernel

/-- The second block of an allocation: the free also clears the first block of its neighbour, or
the entry behind the end of the table. -/
theorem free_leaves_allocation : ∃ s, exec (step sampleLayout) bootSystem pairOps = some s ∧
    s.dev.memreadyflag .insram = true ∧ ¬ FreeStaysInside sampleLayout s .insram (957 * 32) ∧
      ¬ FreeStaysInside sampleLayout s .insram (959 * 32) := by
  obtain ⟨s, hrun, hready, hlive, hcleared, haccessed⟩ := exec_pairOps
  refine ⟨s, hrun, hready, fun h => ?_, fun h => ?_⟩
  · obtain ⟨blk, hblk, hown, hnext, -⟩ := h.own 958 (hcleared ▸ by decide)
    rw [hlive] at hblk
    simp only [List.mem_cons, List.not_mem_nil, or_false] at hblk
    rcases hblk with rfl | rfl
    · exact absurd hnext (by decide +kernel)
    · exact absurd hown (by decide +kernel)
  · exact absurd (h.inTable 960 (haccessed ▸ by decide)) (by decide)

end EnvirMonitor.Allocator
