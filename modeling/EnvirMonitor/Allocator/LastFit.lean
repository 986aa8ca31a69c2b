import EnvirMonitor.Allocator.Invariant

/-! The downward scan of `my_mem_malloc` finds the highest place at which the blocks fit, and
misses no place. -/

namespace EnvirMonitor.Allocator
open Machine

def freeStarts (map : ℕ → U16) (size need : ℕ) : Set ℕ :=
  {b | b + need ≤ size ∧ ∀ i, Run.Mem ⟨b, need⟩ i → map i = 0}

/-- What a search for the highest of `starts` returns. -/
def Highest (starts : Set ℕ) : Option ℕ → Prop
  | none => starts = ∅
  | some b => IsGreatest starts b

/-- The `serinum` free entries from `offset` on end at an occupied entry or at the end of the map,
and no run starts among the entries looked at. -/
structure Scanned (map : ℕ → U16) (size need offset serinum : ℕ) : Prop where
  inside : offset + serinum ≤ size
  short : serinum < need
  free : ∀ i, Run.Mem ⟨offset, serinum⟩ i → map i = 0
  ends : offset + serinum < size → map (offset + serinum) ≠ 0
  none : ∀ b ∈ freeStarts map size need, b < offset

namespace Scanned
variable {map : ℕ → U16} {size need offset serinum : ℕ}

theorem start (hneed : 0 < need) : Scanned map size need size 0 where
  inside := le_rfl
  short := hneed
  free := fun i hi => absurd (hi.1.trans_lt hi.2) (lt_irrefl _)
  ends := fun h => absurd h (lt_irrefl _)
  none := fun b hb => by
    have := hb.1
    omega

theorem free_cons (h : Scanned map size need (offset + 1) serinum) (hfree : map offset = 0) :
    ∀ i, Run.Mem ⟨offset, serinum + 1⟩ i → map i = 0 := by
  rintro i ⟨hge, hlt⟩
  rcases Nat.eq_or_lt_of_le hge with rfl | hge
  · exact hfree
  · exact h.free i ⟨hge, by simp only at hlt ⊢; omega⟩

/-- The run that the scan has just completed is the highest one. -/
theorem found (h : Scanned map size need (offset + 1) serinum) (hfree : map offset = 0)
    (hneed : need = serinum + 1) : IsGreatest (freeStarts map size need) offset := by
  have hinside := h.inside
  refine ⟨⟨by omega, hneed ▸ h.free_cons hfree⟩, fun b hb => ?_⟩
  exact Nat.lt_succ_iff.mp (h.none b hb)

theorem free_step (h : Scanned map size need (offset + 1) serinum) (hfree : map offset = 0)
    (hneed : need ≠ serinum + 1) : Scanned map size need offset (serinum + 1) := by
  have hinside := h.inside
  have hshort := h.short
  have hnext : offset + (serinum + 1) = offset + 1 + serinum := by omega
  refine ⟨by omega, by omega, h.free_cons hfree, hnext ▸ h.ends, fun b hb => ?_⟩
  -- a run from `offset` on would contain the entry at which the free entries end
  refine (Nat.lt_succ_iff_lt_or_eq.mp (h.none b hb)).resolve_right fun hb' => ?_
  subst hb'
  have hfits := hb.1
  exact h.ends (by omega) (hb.2 _ ⟨by simp only; omega, by simp only; omega⟩)

theorem occupied_step (h : Scanned map size need (offset + 1) serinum) (hocc : map offset ≠ 0) :
    Scanned map size need offset 0 := by
  have hinside := h.inside
  have hshort := h.short
  refine ⟨by omega, by omega, fun i hi => absurd (hi.1.trans_lt hi.2) (lt_irrefl _),
    fun _ => hocc, fun b hb => ?_⟩
  refine (Nat.lt_succ_iff_lt_or_eq.mp (h.none b hb)).resolve_right fun hb' => ?_
  subst hb'
  exact hocc (hb.2 b ⟨le_rfl, by simp only; omega⟩)

end Scanned

theorem searchFree_highest {map : ℕ → U16} {size need offset serinum : ℕ}
    (h : Scanned map size need offset serinum) :
    Highest (freeStarts map size need) (searchFree map need offset serinum) := by
  induction offset generalizing serinum with
  | zero => exact Set.eq_empty_of_forall_notMem fun b hb => absurd (h.none b hb) (Nat.not_lt_zero b)
  | succ offset ih =>
    rw [searchFree]
    by_cases hfree : map offset = 0
    · rw [if_pos hfree]
      by_cases hneed : need = serinum + 1
      · rw [if_pos hneed]
        exact h.found hfree hneed
      · rw [if_neg hneed]
        exact ih (h.free_step hfree hneed)
    · have hshort := h.short
      rw [if_neg hfree, if_neg (by omega : need ≠ 0)]
      exact ih (h.occupied_step hfree)

theorem ensureReady_of_ready (l : Layout) {dev : MallocDev} {bank : Bank}
    (hready : dev.memreadyflag bank = true) : ensureReady l dev bank = dev := by
  rw [ensureReady, if_pos hready]

theorem myMemMalloc_ready (l : Layout) {dev : MallocDev} {bank : Bank}
    (hready : dev.memreadyflag bank = true) (size : U32) :
    myMemMalloc l dev bank size = (0xFFFFFFFF, dev) ∧
        (size = 0 ∨ freeStarts (dev.memmap bank) (memtabsize bank) ((size.toNat + 31) / 32) = ∅) ∨
      ∃ b, size ≠ 0 ∧
        IsGreatest (freeStarts (dev.memmap bank) (memtabsize bank) ((size.toNat + 31) / 32)) b ∧
        myMemMalloc l dev bank size = (BitVec.ofNat 32 (b * 32),
          dev.setMap bank (fill (dev.memmap bank) b (BitVec.ofNat 16 ((size.toNat + 31) / 32))
            ((size.toNat + 31) / 32))) := by
  rw [← memblockNeednum_eq bank, myMemMalloc, ensureReady_of_ready l hready]
  by_cases hsize : size = 0
  · exact Or.inl ⟨if_pos hsize, Or.inl hsize⟩
  · simp only [if_neg hsize, memblocksize_eq]
    have hhighest : Highest (freeStarts (dev.memmap bank) (memtabsize bank) (memblockNeednum bank size))
        (searchFree (dev.memmap bank) (memblockNeednum bank size) (memtabsize bank) 0) :=
      searchFree_highest (Scanned.start (memblockNeednum_pos hsize))
    cases hs : searchFree (dev.memmap bank) (memblockNeednum bank size) (memtabsize bank) 0 with
    | none =>
      rw [hs] at hhighest
      exact Or.inl ⟨rfl, Or.inr hhighest⟩
    | some b =>
      rw [hs] at hhighest
      exact Or.inr ⟨b, hsize, hhighest, rfl⟩

structure Entered (dev : MallocDev) (bank : Bank) (run : Run) (dev' : MallocDev) : Prop where
  entered : ∀ i, run.Mem i → (dev'.memmap bank i).toNat = run.len
  others : ∀ i, ¬ run.Mem i → dev'.memmap bank i = dev.memmap bank i
  otherBank : ∀ bank', bank' ≠ bank → dev'.memmap bank' = dev.memmap bank'
  mem : dev'.mem = dev.mem
  ready : dev'.memreadyflag = dev.memreadyflag

theorem entered_fill (dev : MallocDev) (bank : Bank) {run : Run} (hlen : run.len < 2 ^ 16) :
    Entered dev bank run
      (dev.setMap bank (fill (dev.memmap bank) run.start (BitVec.ofNat 16 run.len) run.len)) where
  entered := fun i hi => by
    rw [MallocDev.setMap_self, fill_apply, if_pos hi, toNat_ofNat_of_lt hlen]
  others := fun i hi => by rw [MallocDev.setMap_self, fill_apply, if_neg hi]
  otherBank := fun bank' h => dev.setMap_of_ne h _
  mem := rfl
  ready := rfl

/-- With a ready bank, `my_mem_malloc` fails exactly when nothing is asked for or nothing fits, and
otherwise takes the highest place that fits. -/
theorem myMemMalloc_last_fit (l : Layout) {dev : MallocDev} {bank : Bank}
    (hready : dev.memreadyflag bank = true) (size : U32) :
    let need := (size.toNat + 31) / 32
    let starts := freeStarts (dev.memmap bank) (memtabsize bank) need
    let r := myMemMalloc l dev bank size
    (r.1 = 0xFFFFFFFF ↔ size = 0 ∨ starts = ∅) ∧ (r.1 = 0xFFFFFFFF → r.2 = dev) ∧
      (r.1 ≠ 0xFFFFFFFF → ∃ b, IsGreatest starts b ∧ r.1.toNat = 32 * b ∧
        Entered dev bank ⟨b, need⟩ r.2) := by
  rcases myMemMalloc_ready l hready size with ⟨hret, hno⟩ | ⟨b, hsize, hb, hret⟩
  · rw [hret]
    exact ⟨iff_of_true rfl hno, fun _ => rfl, fun h => absurd rfl h⟩
  · have hin := hb.1.1
    have htab := memtabsize_lt bank
    have hoff : (BitVec.ofNat 32 (b * 32)).toNat = 32 * b := by
      rw [BitVec.toNat_ofNat]
      omega
    have hne : BitVec.ofNat 32 (b * 32) ≠ 0xFFFFFFFF := fun h => by
      rw [h] at hoff
      change 0xFFFFFFFF = 32 * b at hoff
      omega
    rw [hret]
    refine ⟨iff_of_false hne ?_, fun h => absurd h hne, fun _ => ⟨b, hb, hoff, ?_⟩⟩
    · rintro (h | h)
      · exact hsize h
      · exact Set.eq_empty_iff_forall_notMem.mp h b hb.1
    · have hlen : (Run.mk b ((size.toNat + 31) / 32)).len < 2 ^ 16 := by
        simp only
        omega
      exact entered_fill dev bank hlen

/-- Two free areas, of 955 and 3 blocks. -/
def gapDev : MallocDev where
  mem := fun _ => 0xAA
  memmap := fun _ i => if i = 955 ∨ i = 959 then 1 else 0
  memreadyflag := fun _ => true

theorem myMemMalloc_last_fit_sample :
    IsGreatest (freeStarts (gapDev.memmap .insram) (memtabsize .insram) 4) 951 ∧
      (myMemMalloc sampleLayout gapDev .insram 100).1 = 32 * 951 := by
  have hret : (myMemMalloc sampleLayout gapDev .insram 100).1 = 32 * 951 := by decide +kernel
  have hne : (myMemMalloc sampleLayout gapDev .insram 100).1 ≠ 0xFFFFFFFF := by decide +kernel
  obtain ⟨b, hb, hoff, -⟩ := (myMemMalloc_last_fit sampleLayout rfl 100).2.2 hne
  have hb' : b = 951 := by
    rw [hret] at hoff
    change 32 * 951 = 32 * b at hoff
    omega
  exact ⟨hb' ▸ hb, hret⟩

end EnvirMonitor.Allocator
