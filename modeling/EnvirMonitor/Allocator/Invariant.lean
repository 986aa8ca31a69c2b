import EnvirMonitor.Allocator.Malloc
import EnvirMonitor.Machine.GuardedRuns

/-! Sequences of allocator calls over both banks, and of writes of the owners into their blocks. In
every state of a run the table of a ready bank is the one that its live blocks determine. -/

namespace EnvirMonitor.Allocator
open Machine

/-- A block as its owner knows it: the pointer received and the size asked for. -/
structure Block where
  ptr : U32
  size : U32
  deriving DecidableEq

def blockRun (l : Layout) (bank : Bank) (blk : Block) : Run where
  start := (blk.ptr.toNat - (l.membase bank).toNat) / 32
  len := (blk.size.toNat + 31) / 32

def Block.span (blk : Block) : Run where
  start := blk.ptr.toNat
  len := 32 * ((blk.size.toNat + 31) / 32)

structure System where
  dev : MallocDev
  live : Bank → List Block

inductive Op
  | mymalloc (bank : Bank) (size : U32)
  | myrealloc (bank : Bank) (blk : Block) (size : U32)
  | myfree (bank : Bank) (blk : Option Block)
  | store (bank : Bank) (blk : Block) (i : Fin blk.size.toNat) (value : U8)

def Op.bank : Op → Bank
  | mymalloc bank _ => bank
  | myrealloc bank _ _ => bank
  | myfree bank _ => bank
  | store bank _ _ _ => bank

/-- The block that a call hands back to the allocator, or that its owner writes to; `myfree` also
takes `NULL`. -/
def Op.handed : Op → Option Block
  | mymalloc _ _ => none
  | myrealloc _ blk _ => some blk
  | myfree _ blk => blk
  | store _ blk _ _ => some blk

def call (l : Layout) (dev : MallocDev) : Op → U32 × MallocDev
  | .mymalloc bank size => mymalloc l dev bank size
  | .myrealloc bank blk size => myrealloc l dev bank blk.ptr size
  | .myfree bank none => (0, myfree l dev bank 0)
  | .myfree bank (some blk) => (0, myfree l dev bank blk.ptr)
  | .store _ blk i value => (0, { dev with mem := Function.update dev.mem (blk.ptr.toNat + i) value })

def liveAfter (live : List Block) (ret : U32) : Op → List Block
  | .mymalloc _ size => if ret = 0 then live else ⟨ret, size⟩ :: live
  | .myrealloc _ blk size => if ret = 0 then live else ⟨ret, size⟩ :: live.erase blk
  | .myfree _ none => live
  | .myfree _ (some blk) => live.erase blk
  | .store _ _ _ _ => live

/-- Only live blocks are handed back or written to. -/
def step (l : Layout) (s : System) (op : Op) : Option System :=
  if ∀ blk ∈ op.handed, blk ∈ s.live op.bank then
    let (ret, dev) := call l s.dev op
    some ⟨dev, Function.update s.live op.bank (liveAfter (s.live op.bank) ret op)⟩
  else none

theorem step_eq {l : Layout} {s s' : System} {op : Op} (h : step l s op = some s') :
    (∀ blk ∈ op.handed, blk ∈ s.live op.bank) ∧ s' = ⟨(call l s.dev op).2, Function.update s.live op.bank
      (liveAfter (s.live op.bank) (call l s.dev op).1 op)⟩ := by
  unfold step at h
  split_ifs at h with he
  exact ⟨he, (Option.some.inj h).symm⟩

/-- Boot state, with arbitrary map contents, after any number of `my_mem_init` calls. -/
structure Start (l : Layout) (s : System) : Prop where
  live : ∀ bank, s.live bank = []
  dev : ∃ (dev : MallocDev) (banks : List Bank), (∀ bank, dev.memreadyflag bank = false) ∧
    s.dev = banks.foldl (myMemInit l) dev

/-! ## A call leaves the other bank alone -/

structure SameBank (bank : Bank) (dev dev' : MallocDev) : Prop where
  map : dev'.memmap bank = dev.memmap bank
  ready : dev'.memreadyflag bank = dev.memreadyflag bank

namespace SameBank
variable {l : Layout} {bank bank' : Bank} {dev dev' dev'' : MallocDev}

theorem refl (bank : Bank) (dev : MallocDev) : SameBank bank dev dev := ⟨rfl, rfl⟩

theorem trans (h : SameBank bank dev dev') (h' : SameBank bank dev' dev'') :
    SameBank bank dev dev'' := ⟨h'.map.trans h.map, h'.ready.trans h.ready⟩

theorem setMap (h : bank' ≠ bank) (dev : MallocDev) (map : ℕ → U16) :
    SameBank bank' dev (dev.setMap bank map) := ⟨dev.setMap_of_ne h map, rfl⟩

theorem copy (bank : Bank) (dev : MallocDev) (mem : ℕ → U8) :
    SameBank bank dev { dev with mem := mem } := ⟨rfl, rfl⟩

theorem myMemInit (h : bank' ≠ bank) (dev : MallocDev) :
    SameBank bank' dev (myMemInit l dev bank) :=
  ⟨Function.update_of_ne h .., Function.update_of_ne h ..⟩

theorem ensureReady (h : bank' ≠ bank) (dev : MallocDev) :
    SameBank bank' dev (ensureReady l dev bank) := by
  unfold Allocator.ensureReady
  split_ifs
  · exact refl bank' dev
  · exact myMemInit h dev

theorem myMemMalloc (h : bank' ≠ bank) (dev : MallocDev) (size : U32) :
    SameBank bank' dev (myMemMalloc l dev bank size).2 := by
  rcases myMemMalloc_cases l dev bank size with he | ⟨b, -, -, -, he⟩
  · exact he ▸ ensureReady h dev
  · exact he ▸ (ensureReady h dev).trans (setMap h _ _)

theorem mymalloc (h : bank' ≠ bank) (dev : MallocDev) (size : U32) :
    SameBank bank' dev (mymalloc l dev bank size).2 := by
  have := myMemMalloc (l := l) h dev size
  unfold Allocator.mymalloc
  dsimp only
  split_ifs <;> exact this

theorem myfree (h : bank' ≠ bank) (dev : MallocDev) (ptr : U32) :
    SameBank bank' dev (myfree l dev bank ptr) := by
  unfold Allocator.myfree Allocator.myMemFree
  split_ifs
  · exact refl bank' dev
  · exact setMap h dev _
  · exact refl bank' dev
  · exact myMemInit h dev

theorem myrealloc (h : bank' ≠ bank) (dev : MallocDev) (ptr size : U32) :
    SameBank bank' dev (myrealloc l dev bank ptr size).2 := by
  have hm := myMemMalloc (l := l) h dev size
  unfold Allocator.myrealloc
  dsimp only
  split_ifs
  · exact hm
  · exact (hm.trans (copy bank' _ _)).trans (myfree h _ ptr)

theorem call (op : Op) (h : bank' ≠ op.bank) (dev : MallocDev) :
    SameBank bank' dev (call l dev op).2 := by
  rcases op with ⟨bank, size⟩ | ⟨bank, blk, size⟩ | ⟨bank, _ | blk⟩ | ⟨bank, blk, i, value⟩
  · exact mymalloc h dev size
  · exact myrealloc h dev blk.ptr size
  · exact myfree (l := l) h dev 0
  · exact myfree (l := l) h dev blk.ptr
  · exact copy bank' dev _

end SameBank

/-! ## The invariant of one bank -/

structure BankInv (l : Layout) (bank : Bank) (dev : MallocDev) (live : List Block) : Prop where
  table : dev.memreadyflag bank = true →
    TableOf (blockRun l bank) (memtabsize bank) live fun i => (dev.memmap bank i).toNat
  placed : ∀ blk ∈ live,
    blk.ptr.toNat = (l.membase bank).toNat + 32 * (blockRun l bank blk).start
  unready : dev.memreadyflag bank = false → live = []

namespace BankInv
variable {l : Layout} {bank : Bank} {dev dev' : MallocDev} {live : List Block} {blk : Block}

theorem congr (h : BankInv l bank dev live) (hs : SameBank bank dev dev') :
    BankInv l bank dev' live := by
  constructor
  · rw [hs.ready, hs.map]
    exact h.table
  · exact h.placed
  · rw [hs.ready]
    exact h.unready

theorem myMemInit (l : Layout) (bank : Bank) (dev : MallocDev) :
    BankInv l bank (myMemInit l dev bank) [] := by
  refine ⟨fun _ => TableOf.empty fun i hi => ?_, by simp, fun _ => rfl⟩
  simp only [Allocator.myMemInit, Function.update_self, fill_apply]
  rw [if_pos ⟨Nat.zero_le i, by simpa using hi⟩]
  rfl

theorem ensureReady (h : BankInv l bank dev live) :
    BankInv l bank (ensureReady l dev bank) live := by
  unfold Allocator.ensureReady
  split_ifs with hr
  · exact h
  · rw [h.unready (Bool.eq_false_of_not_eq_true hr)]
    exact myMemInit l bank dev

theorem ready_of_mem (h : BankInv l bank dev live) (hx : blk ∈ live) :
    dev.memreadyflag bank = true := by
  by_contra hr
  rw [h.unready (Bool.eq_false_of_not_eq_true hr)] at hx
  exact List.not_mem_nil hx

theorem insert (blk : Block) (h : BankInv l bank dev live) (hr : dev.memreadyflag bank = true)
    (hpos : 0 < (blockRun l bank blk).len)
    (hin : (blockRun l bank blk).start + (blockRun l bank blk).len ≤ memtabsize bank)
    (hfree : ∀ i, (blockRun l bank blk).Mem i → dev.memmap bank i = 0)
    (hptr : blk.ptr.toNat = (l.membase bank).toNat + 32 * (blockRun l bank blk).start) :
    BankInv l bank (dev.setMap bank (fill (dev.memmap bank) (blockRun l bank blk).start
      (BitVec.ofNat 16 (blockRun l bank blk).len) (blockRun l bank blk).len)) (blk :: live) := by
  constructor
  · intro _
    have hfit : (blockRun l bank blk).len < 2 ^ 16 := by
      have := memtabsize_lt bank
      omega
    rw [MallocDev.setMap_self, fill_comp, toNat_ofNat_of_lt hfit]
    exact (h.table hr).insert hpos hin fun i hi => by simp [hfree i hi]
  · exact List.forall_mem_cons.mpr ⟨hptr, h.placed⟩
  · intro hr'
    rw [MallocDev.setMap_ready, hr] at hr'
    exact Bool.noConfusion hr'

theorem myMemMalloc (h : BankInv l bank dev live) (size : U32) :
    (∃ dev', myMemMalloc l dev bank size = (0xFFFFFFFF, dev') ∧ BankInv l bank dev' live) ∨
      ∃ offset dev', myMemMalloc l dev bank size = (offset, dev') ∧ offset ≠ 0xFFFFFFFF ∧
        l.membase bank + offset ≠ 0 ∧
        BankInv l bank dev' (⟨l.membase bank + offset, size⟩ :: live) := by
  rcases myMemMalloc_cases l dev bank size with he | ⟨b, hpos, hle, hfree, he⟩
  · exact Or.inl ⟨_, he, h.ensureReady⟩
  · have hbase := l.membase_add_le bank
    have hbpos := l.membase_pos bank
    have hsize := memsize_eq bank
    have hoff : (BitVec.ofNat 32 (b * 32)).toNat = b * 32 := by
      rw [BitVec.toNat_ofNat]
      omega
    have hptr : (l.membase bank + BitVec.ofNat 32 (b * 32)).toNat =
        (l.membase bank).toNat + b * 32 := by
      rw [BitVec.toNat_add, hoff]
      omega
    have hrun : blockRun l bank ⟨l.membase bank + BitVec.ofNat 32 (b * 32), size⟩ =
        ⟨b, memblockNeednum bank size⟩ := by
      simp only [blockRun, hptr, memblockNeednum_eq]
      congr
      omega
    refine Or.inr ⟨_, _, he, fun hc => ?_, fun hc => ?_, ?_⟩
    · rw [hc] at hoff
      change 0xFFFFFFFF = b * 32 at hoff
      omega
    · rw [hc] at hptr
      change 0 = _ at hptr
      omega
    · have hins := insert ⟨l.membase bank + BitVec.ofNat 32 (b * 32), size⟩
        h.ensureReady (ensureReady_ready l dev bank)
      rw [hrun] at hins
      exact hins hpos hle hfree (by rw [hptr, Nat.mul_comm b])

theorem erase (h : BankInv l bank dev live) (hx : blk ∈ live) :
    BankInv l bank (dev.setMap bank (fill (dev.memmap bank) (blockRun l bank blk).start 0
      (blockRun l bank blk).len)) (live.erase blk) := by
  have hr := h.ready_of_mem hx
  constructor
  · intro _
    rw [MallocDev.setMap_self, fill_comp]
    exact (h.table hr).erase hx
  · exact fun x hmem => h.placed x (List.erase_subset hmem)
  · intro hr'
    rw [MallocDev.setMap_ready, hr] at hr'
    exact Bool.noConfusion hr'

theorem myfree_eq (h : BankInv l bank dev live) (hx : blk ∈ live) :
    myfree l dev bank blk.ptr = dev.setMap bank (fill (dev.memmap bank)
      (blockRun l bank blk).start 0 (blockRun l bank blk).len) := by
  have hr := h.ready_of_mem hx
  have htab := h.table hr
  have hptr := h.placed blk hx
  have hbase := l.membase_pos bank
  have hend := l.membase_add_le bank
  have hsize := memsize_eq bank
  have hin := htab.inside blk hx
  have hpos := htab.pos blk hx
  have hnull : blk.ptr ≠ 0 := by
    intro hc
    rw [hc] at hptr
    change 0 = _ at hptr
    omega
  have hoff : (blk.ptr - l.membase bank).toNat = 32 * (blockRun l bank blk).start := by
    rw [BitVec.toNat_sub]
    omega
  have hidx : (blk.ptr - l.membase bank).toNat / 32 = (blockRun l bank blk).start := by
    omega
  unfold Allocator.myfree Allocator.myMemFree
  rw [if_neg hnull, if_pos hr, if_pos (by omega), memblocksize_eq]
  simp only [hidx, htab.start_held hx]

theorem myfree (h : BankInv l bank dev live) (hx : blk ∈ live) :
    BankInv l bank (myfree l dev bank blk.ptr) (live.erase blk) := by
  rw [h.myfree_eq hx]
  exact h.erase hx

theorem ne_of_cons {new : Block} (h : BankInv l bank dev (new :: live)) (hx : blk ∈ live) :
    new ≠ blk := by
  rintro rfl
  have htab := h.table (h.ready_of_mem (List.mem_cons_self ..))
  have hap := (List.pairwise_cons.mp htab.apart).1 new hx
  exact Run.not_apart_self (htab.pos new (List.mem_cons_self ..)) hap

theorem call (op : Op) (h : BankInv l op.bank dev live)
    (he : ∀ blk ∈ op.handed, blk ∈ live) :
    BankInv l op.bank (call l dev op).2 (liveAfter live (call l dev op).1 op) := by
  rcases op with ⟨bank, size⟩ | ⟨bank, blk, size⟩ | ⟨bank, _ | blk⟩ | ⟨bank, blk, i, value⟩
  · change BankInv l bank dev live at h
    rcases h.myMemMalloc size with ⟨dev', hm, h'⟩ | ⟨offset, dev', hm, hoff, hnull, h'⟩
    · simp only [Allocator.call, mymalloc, hm, liveAfter, if_pos]
      exact h'
    · simp only [Allocator.call, mymalloc, hm, liveAfter, if_neg hoff, if_neg hnull]
      exact h'
  · change BankInv l bank dev live at h
    have hx : blk ∈ live := he blk rfl
    rcases h.myMemMalloc size with ⟨dev', hm, h'⟩ | ⟨offset, dev', hm, hoff, hnull, h'⟩
    · simp only [Allocator.call, myrealloc, hm, liveAfter, if_pos]
      exact h'
    · simp only [Allocator.call, myrealloc, hm, liveAfter, if_neg hoff, if_neg hnull]
      rw [← List.erase_cons_tail (by simpa using h'.ne_of_cons hx)]
      exact (h'.congr (SameBank.copy bank _ _)).myfree (List.mem_cons_of_mem _ hx)
  · exact h
  · exact h.myfree (he blk rfl)
  · exact h.congr (SameBank.copy bank dev _)

end BankInv

/-! ## Runs -/

def Inv (l : Layout) (s : System) : Prop := ∀ bank, BankInv l bank s.dev (s.live bank)

theorem Start.inv {l : Layout} {s : System} (h : Start l s) : Inv l s := by
  obtain ⟨dev, banks, hdev, hs⟩ := h.dev
  have hinit : ∀ bank, BankInv l bank (banks.foldl (myMemInit l) dev) [] := by
    have h0 : ∀ bank, BankInv l bank dev [] :=
      fun bank => ⟨fun hr => by simp [hdev bank] at hr, by simp, fun _ => rfl⟩
    clear hs hdev
    induction banks generalizing dev with
    | nil => exact h0
    | cons b banks ih =>
      refine ih _ fun bank => ?_
      by_cases hb : bank = b
      · exact hb ▸ BankInv.myMemInit l bank dev
      · exact (h0 bank).congr (SameBank.myMemInit hb dev)
  intro bank
  rw [h.live bank, hs]
  exact hinit bank

theorem step_inv {l : Layout} {s s' : System} {op : Op} (h : Inv l s)
    (hstep : step l s op = some s') : Inv l s' := by
  obtain ⟨he, rfl⟩ := step_eq hstep
  intro bank
  by_cases hb : bank = op.bank
  · subst hb
    simp only [Function.update_self]
    exact (h op.bank).call op he
  · simp only [Function.update_of_ne hb]
    exact (h bank).congr (SameBank.call op hb s.dev)

theorem step_frame {l : Layout} {s s' : System} {op : Op} (hstep : step l s op = some s')
    {bank : Bank} (hb : bank ≠ op.bank) : SameBank bank s.dev s'.dev := by
  obtain ⟨-, rfl⟩ := step_eq hstep
  exact SameBank.call op hb s.dev

/-- Where a live block lies: it starts at a block boundary of the pool and covers the request. -/
structure Placed (l : Layout) (bank : Bank) (blk : Block) : Prop where
  ptr_eq : blk.ptr.toNat = (l.membase bank).toNat + 32 * (blockRun l bank blk).start
  above : (l.membase bank).toNat ≤ blk.span.start
  below : blk.span.start + blk.span.len ≤ (l.membase bank).toNat + memsize bank
  covers : blk.size.toNat ≤ blk.span.len
  fits : (blockRun l bank blk).len < 2 ^ 16

theorem BankInv.placed_of_mem {l : Layout} {bank : Bank} {dev : MallocDev} {live : List Block}
    (h : BankInv l bank dev live) {blk : Block} (hx : blk ∈ live) : Placed l bank blk := by
  have hin := (h.table (h.ready_of_mem hx)).inside blk hx
  have hptr := h.placed blk hx
  have hsize := memsize_eq bank
  have htab := memtabsize_lt bank
  constructor
  · exact hptr
  · simp only [Block.span]
    omega
  · simp only [Block.span, blockRun] at *
    omega
  · simp only [Block.span]
    omega
  · omega

theorem BankInv.spans_apart {l : Layout} {bank : Bank} {dev : MallocDev} {live : List Block}
    (h : BankInv l bank dev live) (hr : dev.memreadyflag bank = true) :
    live.Pairwise fun x y => Run.Apart x.span y.span := by
  refine (h.table hr).apart.imp_of_mem fun {x y} hx hy hap => ?_
  have hxp := h.placed x hx
  have hyp := h.placed y hy
  simp only [Run.Apart, Block.span, blockRun] at *
  omega

theorem reachable_inv {l : Layout} {s₀ s : System} {ops : List Op} (hstart : Start l s₀)
    (hrun : exec (step l) s₀ ops = some s) : Inv l s :=
  exec_invariant (fun _ _ _ => step_inv) hstart.inv hrun

theorem memmap_exact {l : Layout} {s₀ s : System} {ops : List Op} (hstart : Start l s₀)
    (hrun : exec (step l) s₀ ops = some s) :
    (∀ bank, s.dev.memreadyflag bank = true →
      TableOf (blockRun l bank) (memtabsize bank) (s.live bank)
          (fun i => (s.dev.memmap bank i).toNat) ∧
        (∀ blk ∈ s.live bank, Placed l bank blk) ∧
        (s.live bank).Pairwise (fun x y => Run.Apart x.span y.span) ∧
        (s.live bank = [] → ∀ i < memtabsize bank, s.dev.memmap bank i = 0)) ∧
      (∀ bank, s.dev.memreadyflag bank = false → s.live bank = []) ∧
      ∀ op s', step l s op = some s' → ∀ bank, bank ≠ op.bank →
        s'.dev.memmap bank = s.dev.memmap bank ∧ s'.live bank = s.live bank := by
  have hinv := reachable_inv hstart hrun
  refine ⟨fun bank hr => ⟨(hinv bank).table hr, fun blk => (hinv bank).placed_of_mem,
    (hinv bank).spans_apart hr, fun hnil i hi => ?_⟩, fun bank => (hinv bank).unready, ?_⟩
  · have hfree := ((hinv bank).table hr).free i hi
    rw [hnil] at hfree
    exact BitVec.eq_of_toNat_eq (hfree (by simp))
  · intro op s' hstep bank hb
    refine ⟨(step_frame hstep hb).map, ?_⟩
    obtain ⟨-, rfl⟩ := step_eq hstep
    exact Function.update_of_ne hb ..

def sampleLayout : Layout := ⟨0x20000000, by decide, by decide⟩

def bootDev : MallocDev := ⟨fun _ => 0xAA, fun _ _ => 0xAAAA, fun _ => false⟩

def bootSystem : System := ⟨bootDev, fun _ => []⟩

theorem start_bootSystem : Start sampleLayout bootSystem :=
  ⟨fun _ => rfl, bootDev, [], fun _ => rfl, rfl⟩

def sampleOps : List Op := [.mymalloc .insram 33, .mymalloc .exsram 4096, .myfree .insram none]

theorem memmap_exact_sample :
    ∃ s, exec (step sampleLayout) bootSystem sampleOps = some s ∧
      TableOf (blockRun sampleLayout .insram) (memtabsize .insram) (s.live .insram)
        (fun i => (s.dev.memmap .insram i).toNat) ∧
      s.live .insram = [⟨0x20000000 + 958 * 32, 33⟩] := by
  have hsome : (exec (step sampleLayout) bootSystem sampleOps).isSome := by decide +kernel
  refine ⟨Option.get _ hsome, (Option.some_get hsome).symm, ?_, by decide +kernel +revert⟩
  exact ((memmap_exact start_bootSystem (Option.some_get hsome).symm).1 .insram
    (by decide +kernel +revert)).1

end EnvirMonitor.Allocator
