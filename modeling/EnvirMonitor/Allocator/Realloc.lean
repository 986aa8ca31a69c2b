import EnvirMonitor.Allocator.Invariant

/-! `myrealloc` allocates, copies as many bytes as are asked for, and frees. What it keeps of all
the live blocks, and which bytes its copy reads. -/

namespace EnvirMonitor.Allocator
open Machine

/-! ## The forward copy -/

theorem mymemcpy_outside (mem : ℕ → U8) {des : ℕ} (src : ℕ) {len a : ℕ}
    (ha : ¬ Run.Mem ⟨des, len⟩ a) : mymemcpy mem des src len a = mem a := by
  induction len generalizing mem des src with
  | zero => rfl
  | succ len ih =>
    have hne : a ≠ des := by
      rintro rfl
      exact ha ⟨le_rfl, by simp⟩
    have hrest : ¬ Run.Mem ⟨des + 1, len⟩ a := by
      rintro ⟨hle, hlt⟩
      apply ha
      exact ⟨Nat.le_of_succ_le hle, by simpa [Nat.add_right_comm, Nat.add_assoc] using hlt⟩
    rw [mymemcpy, ih _ _ hrest]
    exact Function.update_of_ne hne ..

/-- The copy may run past the source, into what it has written: the first `n` bytes are safe when
the writes stay clear of them. -/
theorem mymemcpy_inside (mem : ℕ → U8) {des src len n i : ℕ} (hap : Run.Apart ⟨des, len⟩ ⟨src, n⟩)
    (hi : i < min n len) : mymemcpy mem des src len (des + i) = mem (src + i) := by
  obtain ⟨hn, hlen⟩ := lt_min_iff.mp hi
  unfold Run.Apart at hap
  simp only at hap
  induction len generalizing mem des src n i with
  | zero => exact absurd hlen (Nat.not_lt_zero i)
  | succ len ih =>
    rw [mymemcpy]
    cases i with
    | zero =>
      have hout : ¬ Run.Mem ⟨des + 1, len⟩ (des + 0) := fun h => by
        have hle : des + 1 ≤ des + 0 := h.1
        omega
      rw [mymemcpy_outside _ _ hout]
      exact Function.update_self ..
    | succ i =>
      obtain ⟨n, rfl⟩ : ∃ m, n = m + 1 := ⟨n - 1, by omega⟩
      have hkept : src + (i + 1) ≠ des := by omega
      have hnext := @ih (Function.update mem des (mem src)) (des + 1) (src + 1) n i (by omega)
        (lt_min (by omega) (by omega)) (by omega) (by omega)
      rw [Nat.add_right_comm des, Nat.add_right_comm src] at hnext
      rw [← Nat.add_assoc, hnext]
      exact Function.update_of_ne hkept ..

def mymemcpyReads (mem : ℕ → U8) (des src : ℕ) : ℕ → (ℕ → U8) × List ℕ
  | 0 => (mem, [])
  | len + 1 =>
    let (mem, reads) := mymemcpyReads (Function.update mem des (mem src)) (des + 1) (src + 1) len
    (mem, src :: reads)

theorem mymemcpyReads_eq (mem : ℕ → U8) (des src len : ℕ) :
    mymemcpyReads mem des src len = (mymemcpy mem des src len, List.range' src len) := by
  induction len generalizing mem des src with
  | zero => rfl
  | succ len ih => rw [mymemcpyReads, ih, mymemcpy, List.range'_succ]

/-! ## What the call keeps -/

theorem myMemMalloc_mem (l : Layout) {dev : MallocDev} {bank : Bank}
    (hready : dev.memreadyflag bank = true) (size : U32) :
    (myMemMalloc l dev bank size).2.mem = dev.mem := by
  have hensure : ensureReady l dev bank = dev := if_pos hready
  rcases myMemMalloc_cases l dev bank size with he | ⟨b, -, -, -, he⟩
  · rw [he, hensure]
  · rw [he, hensure]
    rfl

theorem offset_ne_full {bank : Bank} {b : ℕ} (hb : b < memtabsize bank) :
    BitVec.ofNat 32 (b * 32) ≠ 0xFFFFFFFF := by
  intro h
  have hnat := congrArg BitVec.toNat h
  have hlt := hb.trans (memtabsize_lt bank)
  rw [BitVec.toNat_ofNat] at hnat
  change b * 32 % 2 ^ 32 = 0xFFFFFFFF at hnat
  omega

theorem myMemMalloc_full {l : Layout} {dev dev' : MallocDev} {bank : Bank}
    (hready : dev.memreadyflag bank = true) {size : U32}
    (hfull : myMemMalloc l dev bank size = (0xFFFFFFFF, dev')) : dev' = dev := by
  have hensure : ensureReady l dev bank = dev := if_pos hready
  rcases myMemMalloc_cases l dev bank size with he | ⟨b, hpos, hle, -, he⟩
  · rw [he, hensure] at hfull
    exact (congrArg Prod.snd hfull).symm
  · rw [he] at hfull
    have hb : b < memtabsize bank := by omega
    exact absurd (congrArg Prod.fst hfull) (offset_ne_full hb)

section
variable {l : Layout} {bank : Bank} {dev : MallocDev} {live : List Block} {blk : Block}

/-- A request that fails changes nothing; one that succeeds has copied before the old block goes. -/
theorem myrealloc_cases (h : BankInv l bank dev live) (hblk : blk ∈ live) (size : U32) :
    myrealloc l dev bank blk.ptr size = (0, dev) ∨
      ∃ ptr dev', ptr ≠ 0 ∧ BankInv l bank dev' (⟨ptr, size⟩ :: live) ∧
        dev'.mem = mymemcpy dev.mem ptr.toNat blk.ptr.toNat size.toNat ∧
        myrealloc l dev bank blk.ptr size = (ptr, myfree l dev' bank blk.ptr) := by
  have hready := h.ready_of_mem hblk
  have hmem := myMemMalloc_mem l hready size
  rcases h.myMemMalloc size with ⟨dev', hm, -⟩ | ⟨offset, dev', hm, hoff, hnull, h'⟩
  · left
    obtain rfl := myMemMalloc_full hready hm
    unfold myrealloc
    simp only [hm, if_pos]
  · right
    rw [hm] at hmem
    set ptr := l.membase bank + offset
    set copied := mymemcpy dev.mem ptr.toNat blk.ptr.toNat size.toNat
    refine ⟨ptr, { dev' with mem := copied }, hnull, h'.congr (SameBank.copy bank dev' copied), rfl, ?_⟩
    unfold myrealloc
    simp only [hm, if_neg hoff]
    rw [show dev'.mem = dev.mem from hmem]

end

theorem Layout.pools_apart (l : Layout) {bank bank' : Bank} (h : bank ≠ bank') :
    Run.Apart ⟨(l.membase bank).toNat, memsize bank⟩ ⟨(l.membase bank').toNat, memsize bank'⟩ := by
  have hbelow := l.below
  cases bank <;> cases bank' <;> simp only [ne_eq, not_true_eq_false] at h
  · exact Or.inl hbelow
  · exact Or.inr hbelow

theorem Placed.apart {l : Layout} {bank bank' : Bank} {x y : Block} (hx : Placed l bank x)
    (hy : Placed l bank' y) (h : bank ≠ bank') : Run.Apart x.span y.span := by
  have hxa := hx.above
  have hxb := hx.below
  have hya := hy.above
  have hyb := hy.below
  rcases l.pools_apart h with hap | hap
  · left
    simp only at hap
    omega
  · right
    simp only at hap
    omega

/-- The bytes that the copy leaves alone: those of blocks apart from the new one. -/
theorem mymemcpy_kept (mem : ℕ → U8) {new other : Block} (src : ℕ)
    (hcovers : new.size.toNat ≤ new.span.len) (hap : Run.Apart new.span other.span) {a : ℕ}
    (ha : other.span.Mem a) : mymemcpy mem new.ptr.toNat src new.size.toNat a = mem a := by
  apply mymemcpy_outside
  rintro ⟨hle, hlt⟩
  exact hap.symm.not_mem ha ⟨hle, hlt.trans_le (Nat.add_le_add_left hcovers _)⟩

/-- What a call that succeeds has done: `new` is live in place of `blk`, with its bytes, and all
other blocks keep their map entries and their bytes. -/
structure Moved (l : Layout) (bank : Bank) (s s' : System) (blk new : Block) : Prop where
  live : s'.live = Function.update s.live bank (new :: (s.live bank).erase blk)
  placed : Placed l bank new
  held : ∀ i, (blockRun l bank new).Mem i →
    (s'.dev.memmap bank i).toNat = (blockRun l bank new).len
  apart : ∀ bank', ∀ other ∈ s.live bank', Run.Apart new.span other.span
  contents : ∀ i < min blk.size.toNat new.size.toNat,
    s'.dev.mem (new.ptr.toNat + i) = s.dev.mem (blk.ptr.toNat + i)
  freed : ∀ i, (blockRun l bank blk).Mem i → s'.dev.memmap bank i = 0
  others : ∀ bank', ∀ other ∈ s.live bank', ¬ (bank' = bank ∧ other = blk) →
    (∀ i, (blockRun l bank' other).Mem i → s'.dev.memmap bank' i = s.dev.memmap bank' i) ∧
      ∀ a, other.span.Mem a → s'.dev.mem a = s.dev.mem a

theorem BankInv.held_eq {l : Layout} {bank : Bank} {dev dev' : MallocDev} {live live' : List Block}
    (h : BankInv l bank dev live) (h' : BankInv l bank dev' live') {blk : Block} (hblk : blk ∈ live)
    (hblk' : blk ∈ live') {i : ℕ} (hi : (blockRun l bank blk).Mem i) :
    dev'.memmap bank i = dev.memmap bank i := by
  apply BitVec.eq_of_toNat_eq
  have hheld := (h.table (h.ready_of_mem hblk)).held blk hblk i hi
  have hheld' := (h'.table (h'.ready_of_mem hblk')).held blk hblk' i hi
  exact hheld'.trans hheld.symm

theorem requested_apart {x y : Block} (hx : x.size.toNat ≤ x.span.len)
    (hy : y.size.toNat ≤ y.span.len) (h : Run.Apart x.span y.span) :
    Run.Apart ⟨x.ptr.toNat, x.size.toNat⟩ ⟨y.ptr.toNat, y.size.toNat⟩ := by
  rcases h with h | h
  · left
    exact (Nat.add_le_add_left hx _).trans h
  · right
    exact (Nat.add_le_add_left hy _).trans h

section
variable {l : Layout} {s : System} {bank : Bank} {blk new : Block}

theorem new_apart (hinv : Inv l s) (hplaced : Placed l bank new)
    (hapart : ∀ other ∈ s.live bank, Run.Apart new.span other.span) {bank' : Bank} {other : Block}
    (hother : other ∈ s.live bank') : Run.Apart new.span other.span := by
  by_cases hb : bank = bank'
  · subst hb
    exact hapart other hother
  · exact hplaced.apart ((hinv bank').placed_of_mem hother) hb

theorem others_held (hinv : Inv l s) {dev : MallocDev}
    (hafter : BankInv l bank dev (new :: (s.live bank).erase blk))
    (hsame : ∀ bank', bank' ≠ bank → SameBank bank' s.dev dev) {bank' : Bank} {other : Block}
    (hother : other ∈ s.live bank') (hne : ¬ (bank' = bank ∧ other = blk)) {i : ℕ}
    (hi : (blockRun l bank' other).Mem i) : dev.memmap bank' i = s.dev.memmap bank' i := by
  by_cases hb : bank' = bank
  · subst hb
    have hstays : other ∈ new :: (s.live bank').erase blk := by
      apply List.mem_cons_of_mem
      exact (List.mem_erase_of_ne fun he => hne ⟨rfl, he⟩).mpr hother
    exact (hinv bank').held_eq hafter hother hstays hi
  · rw [(hsame bank' hb).map]

end

theorem moved_of_copied {l : Layout} {s : System} (hinv : Inv l s) {bank : Bank} {blk : Block}
    (hblk : blk ∈ s.live bank) {ptr size : U32} {dev' : MallocDev}
    (h' : BankInv l bank dev' (⟨ptr, size⟩ :: s.live bank))
    (hmem : dev'.mem = mymemcpy s.dev.mem ptr.toNat blk.ptr.toNat size.toNat)
    (hcall : (myrealloc l s.dev bank blk.ptr size).2 = myfree l dev' bank blk.ptr) :
    Moved l bank s ⟨myfree l dev' bank blk.ptr,
      Function.update s.live bank (⟨ptr, size⟩ :: (s.live bank).erase blk)⟩ blk ⟨ptr, size⟩ := by
  set new : Block := ⟨ptr, size⟩
  have hnew : new ∈ new :: s.live bank := List.mem_cons_self
  have hold : blk ∈ new :: s.live bank := List.mem_cons_of_mem new hblk
  have hplaced : Placed l bank new := h'.placed_of_mem hnew
  have hpairs := List.pairwise_cons.mp (h'.spans_apart (h'.ready_of_mem hnew))
  have hfree := h'.myfree_eq hold
  have hcopied : (myfree l dev' bank blk.ptr).mem =
      mymemcpy s.dev.mem ptr.toNat blk.ptr.toNat size.toNat := by
    rw [hfree, ← hmem]
    rfl
  have hafter : BankInv l bank (myfree l dev' bank blk.ptr) (new :: (s.live bank).erase blk) := by
    rw [← List.erase_cons_tail (by simpa using h'.ne_of_cons hblk)]
    exact h'.myfree hold
  have hsame (bank' : Bank) (hb : bank' ≠ bank) :
      SameBank bank' s.dev (myfree l dev' bank blk.ptr) := by
    rw [← hcall]
    exact SameBank.myrealloc hb s.dev blk.ptr size
  constructor
  · rfl
  · exact hplaced
  · exact (hafter.table (hafter.ready_of_mem List.mem_cons_self)).held new List.mem_cons_self
  · exact fun bank' other hother => new_apart hinv hplaced hpairs.1 hother
  · intro i hi
    show (myfree l dev' bank blk.ptr).mem (ptr.toNat + i) = _
    rw [hcopied]
    apply mymemcpy_inside s.dev.mem _ hi
    exact requested_apart hplaced.covers (h'.placed_of_mem hold).covers (hpairs.1 blk hblk)
  · intro i hi
    show (myfree l dev' bank blk.ptr).memmap bank i = 0
    rw [hfree, MallocDev.setMap_self, fill_apply, if_pos hi]
  · intro bank' other hother hne
    refine ⟨fun i hi => others_held hinv hafter hsame hother hne hi, fun a ha => ?_⟩
    show (myfree l dev' bank blk.ptr).mem a = _
    rw [hcopied]
    exact mymemcpy_kept s.dev.mem blk.ptr.toNat hplaced.covers
      (new_apart hinv hplaced hpairs.1 hother) ha

theorem step_myrealloc (l : Layout) {s : System} {bank : Bank} {blk : Block}
    (hblk : blk ∈ s.live bank) (size : U32) : step l s (.myrealloc bank blk size) =
      some ⟨(myrealloc l s.dev bank blk.ptr size).2, Function.update s.live bank
        (liveAfter (s.live bank) (myrealloc l s.dev bank blk.ptr size).1 (.myrealloc bank blk size))⟩ := by
  unfold step
  apply if_pos
  intro x hx
  obtain rfl := Option.some.inj hx
  exact hblk

/-- In every reachable state, for every live block and every size. -/
theorem myrealloc_moves {l : Layout} {s₀ s : System} {ops : List Op} (hstart : Start l s₀)
    (hrun : exec (step l) s₀ ops = some s) {bank : Bank} {blk : Block} (hblk : blk ∈ s.live bank)
    (size : U32) : ∃ s', step l s (.myrealloc bank blk size) = some s' ∧
      ((myrealloc l s.dev bank blk.ptr size).1 = 0 → s' = s) ∧
      ((myrealloc l s.dev bank blk.ptr size).1 ≠ 0 →
        Moved l bank s s' blk ⟨(myrealloc l s.dev bank blk.ptr size).1, size⟩) := by
  have hinv := reachable_inv hstart hrun
  refine ⟨_, step_myrealloc l hblk size, ?_⟩
  rcases myrealloc_cases (hinv bank) hblk size with hfull | ⟨ptr, dev', hptr, h', hmem, hcall⟩
  · rw [hfull]
    refine ⟨fun _ => ?_, fun hne => absurd rfl hne⟩
    rw [liveAfter, if_pos rfl, Function.update_eq_self]
  · have hmoved := moved_of_copied hinv hblk h' hmem (congrArg Prod.snd hcall)
    rw [hcall]
    refine ⟨fun hzero => absurd hzero hptr, fun _ => ?_⟩
    rw [liveAfter, if_neg hptr]
    exact hmoved

def sampleBlock : Block := ⟨0x20000000 + 958 * 32, 33⟩

theorem sample_reached : ∃ s, exec (step sampleLayout) bootSystem sampleOps = some s ∧
    sampleBlock ∈ s.live .insram ∧
    (myrealloc sampleLayout s.dev .insram sampleBlock.ptr 64).1 ≠ 0 ∧
    (myrealloc sampleLayout s.dev .insram sampleBlock.ptr 100).1 ≠ 0 := by
  have hsome : (exec (step sampleLayout) bootSystem sampleOps).isSome := by decide +kernel
  refine ⟨Option.get _ hsome, (Option.some_get hsome).symm, ?_⟩
  decide +kernel +revert

/-- The owner of the block writes its first and its last byte. -/
def writtenOps : List Op :=
  sampleOps ++ [.store .insram sampleBlock ⟨0, by decide⟩ 0x41,
    .store .insram sampleBlock ⟨32, by decide⟩ 0x42]

theorem written_reached : ∃ s, exec (step sampleLayout) bootSystem writtenOps = some s ∧
    sampleBlock ∈ s.live .insram ∧
    (myrealloc sampleLayout s.dev .insram sampleBlock.ptr 100).1 = 0x20000000 + 954 * 32 ∧
    s.dev.mem sampleBlock.ptr.toNat = 0x41 ∧ s.dev.mem (sampleBlock.ptr.toNat + 32) = 0x42 := by
  have hsome : (exec (step sampleLayout) bootSystem writtenOps).isSome := by decide +kernel
  refine ⟨Option.get _ hsome, (Option.some_get hsome).symm, ?_⟩
  decide +kernel +revert

theorem myrealloc_moves_sample : ∃ s s', exec (step sampleLayout) bootSystem writtenOps = some s ∧
    step sampleLayout s (.myrealloc .insram sampleBlock 100) = some s' ∧
    Moved sampleLayout .insram s s' sampleBlock ⟨0x20000000 + 954 * 32, 100⟩ ∧
    s'.dev.mem (0x20000000 + 954 * 32) = 0x41 ∧ s'.dev.mem (0x20000000 + 954 * 32 + 32) = 0x42 := by
  obtain ⟨s, hrun, hlive, hptr, hfirst, hlast⟩ := written_reached
  obtain ⟨s', hstep, -, hmoved⟩ := myrealloc_moves start_bootSystem hrun hlive 100
  rw [hptr] at hmoved
  have hmoved := hmoved (by decide)
  exact ⟨s, s', hrun, hstep, hmoved, (hmoved.contents 0 (by decide)).trans hfirst,
    (hmoved.contents 32 (by decide)).trans hlast⟩

/-! ## What the copy reads -/

def myreallocReads (l : Layout) (dev : MallocDev) (bank : Bank) (ptr size : U32) : List ℕ :=
  let (offset, dev) := myMemMalloc l dev bank size
  if offset = 0xFFFFFFFF then []
  else (mymemcpyReads dev.mem (l.membase bank + offset).toNat ptr.toNat size.toNat).2

theorem myreallocReads_eq {l : Layout} {dev : MallocDev} {bank : Bank} {ptr size : U32}
    (hsucc : (myrealloc l dev bank ptr size).1 ≠ 0) :
    myreallocReads l dev bank ptr size = List.range' ptr.toNat size.toNat := by
  unfold myrealloc at hsucc
  unfold myreallocReads
  dsimp only at hsucc ⊢
  split_ifs at hsucc ⊢ with hfull
  · exact absurd rfl hsucc
  · rw [mymemcpyReads_eq]

def Block.Owns (l : Layout) (bank : Bank) (blk : Block) (a : ℕ) : Prop :=
  blk.span.Mem a ∧ Run.Mem ⟨(l.membase bank).toNat, memsize bank⟩ a

/-- A call that succeeds reads only blocks of its own exactly if the new size fits into them. -/
theorem myrealloc_reads_own_iff {l : Layout} {s₀ s : System} {ops : List Op} (hstart : Start l s₀)
    (hrun : exec (step l) s₀ ops = some s) {bank : Bank} {blk : Block} (hblk : blk ∈ s.live bank)
    {size : U32} (hsucc : (myrealloc l s.dev bank blk.ptr size).1 ≠ 0) :
    (∀ a ∈ myreallocReads l s.dev bank blk.ptr size, blk.Owns l bank a) ↔
      size.toNat ≤ blk.span.len := by
  have hinv := reachable_inv hstart hrun
  have hplaced : Placed l bank blk := (hinv bank).placed_of_mem hblk
  rw [myreallocReads_eq hsucc]
  constructor
  · intro hown
    by_contra hlong
    -- the first byte behind the block
    have hread : blk.ptr.toNat + blk.span.len ∈ List.range' blk.ptr.toNat size.toNat :=
      List.mem_range'_1.mpr ⟨Nat.le_add_right _ _, by omega⟩
    exact absurd (hown _ hread).1.2 (Nat.lt_irrefl _)
  · intro hfits a ha
    obtain ⟨hle, hlt⟩ := List.mem_range'_1.mp ha
    have hend : a < blk.ptr.toNat + blk.span.len := hlt.trans_le (Nat.add_le_add_left hfits _)
    exact ⟨⟨hle, hend⟩, hplaced.above.trans hle, hend.trans_le hplaced.below⟩

theorem myrealloc_reads_own_iff_sample : ∃ s,
    exec (step sampleLayout) bootSystem sampleOps = some s ∧
      ∀ a ∈ myreallocReads sampleLayout s.dev .insram sampleBlock.ptr 64,
        sampleBlock.Owns sampleLayout .insram a := by
  obtain ⟨s, hrun, hlive, hsucc, -⟩ := sample_reached
  exact ⟨s, hrun, (myrealloc_reads_own_iff start_bootSystem hrun hlive hsucc).mpr (by decide)⟩

/-- The block at the end of the pool grows, and the copy runs out of the pool. -/
theorem growing_reads_past_pool : ∃ s, exec (step sampleLayout) bootSystem sampleOps = some s ∧
    sampleBlock ∈ s.live .insram ∧
    (myrealloc sampleLayout s.dev .insram sampleBlock.ptr 100).1 ≠ 0 ∧
    ∃ a ∈ myreallocReads sampleLayout s.dev .insram sampleBlock.ptr 100,
      ¬ sampleBlock.Owns sampleLayout .insram a ∧
        (sampleLayout.membase .insram).toNat + memsize .insram ≤ a := by
  obtain ⟨s, hrun, hlive, -, hsucc⟩ := sample_reached
  refine ⟨s, hrun, hlive, hsucc, 0x20000000 + 960 * 32, ?_, fun h => absurd h.2.2 (by decide),
    by decide⟩
  rw [myreallocReads_eq hsucc]
  exact List.mem_range'_1.mpr ⟨by decide, by decide⟩

end EnvirMonitor.Allocator
