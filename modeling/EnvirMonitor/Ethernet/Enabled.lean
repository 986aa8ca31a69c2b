import EnvirMonitor.Machine.AccessMonitor
import EnvirMonitor.Ethernet.Transmit
import EnvirMonitor.Ethernet.Control

/-! What the driver leaves of the receiver after each call, for every chip: on until the chip
delivers a corrupt ready byte, which stops it for good. -/

namespace EnvirMonitor.Ethernet
open Machine Prog

/-- Followed from outside: the selected register, the `DATA` reads since its selection, the last
value written to `RCR`, the registers that a software reset has returned to their power-on
values, and whether the chip has delivered a ready byte above 1 and a length above 1536. -/
structure Watch where
  index : U16
  reads : ℕ
  rcr : U16
  lost : U16 → Bool
  badReady : Bool
  tooLong : Bool

namespace Watch

def resetRegs : List U16 :=
  [Reg.RCR, Reg.IMR, Reg.PAR, Reg.PAR + 1, Reg.PAR + 2, Reg.PAR + 3, Reg.PAR + 4, Reg.PAR + 5]

def select (d : Watch) (reg : U16) : Watch := { d with index := reg, reads := 0 }

def write (d : Watch) (data : U16) : Watch :=
  if d.index = Reg.NCR ∧ data &&& ncrRst ≠ 0 then { d with lost := fun reg => decide (reg ∈ resetRegs) }
  else { d with
    rcr := if d.index = Reg.RCR then data else d.rcr
    lost := Function.update d.lost d.index false }

/-- The second read of `MRCMDX` is the ready byte. -/
def BadReady (d : Watch) (word : U16) : Prop :=
  d.reads = 1 ∧ d.index = Reg.MRCMDX ∧ 1 < (lowByte word).toNat

/-- The second read of `MRCMD` is the length. -/
def TooLong (d : Watch) (word : U16) : Prop :=
  d.reads = 1 ∧ d.index = Reg.MRCMD ∧ dm9000PktMax < word.toNat

instance (d : Watch) (word : U16) : Decidable (d.BadReady word) := inferInstanceAs (Decidable (_ ∧ _))

instance (d : Watch) (word : U16) : Decidable (d.TooLong word) := inferInstanceAs (Decidable (_ ∧ _))

def read (d : Watch) (word : U16) : Watch :=
  { d with
    reads := d.reads + 1
    badReady := d.badReady || decide (d.BadReady word)
    tooLong := d.tooLong || decide (d.TooLong word) }

def next (d : Watch) : (op : Access) → Access.Reply op → Watch
  | .setReg reg, _ => d.select reg
  | .putData data, _ => d.write data
  | .getData, word => d.read word
  | _, _ => d

end Watch

abbrev watch : Monitor Access Access.Reply Watch := Monitor.watching Watch.next

section
variable {α : Type} {post : α → Watch → Prop} {d : Watch}

theorem obeys_setReg {reg : U16} {f : Unit → Driver α} :
    Obeys watch post (setReg reg >>= f) d ↔ Obeys watch post (f ()) (d.select reg) :=
  ⟨fun h => h.2.2 (), fun h => ⟨trivial, fun _ _ _ => rfl, fun _ => h⟩⟩

theorem obeys_putData {data : U16} {f : Unit → Driver α} :
    Obeys watch post (putData data >>= f) d ↔ Obeys watch post (f ()) (d.write data) :=
  ⟨fun h => h.2.2 (), fun h => ⟨trivial, fun _ _ _ => rfl, fun _ => h⟩⟩

theorem obeys_getData {f : U16 → Driver α} :
    Obeys watch post (getData >>= f) d ↔ ∀ word, Obeys watch post (f word) (d.read word) :=
  ⟨fun h => h.2.2, fun h => ⟨trivial, fun _ _ hr => congrArg f hr, h⟩⟩

theorem obeys_writeReg {reg data : U16} {f : Unit → Driver α} :
    Obeys watch post (dm9000WriteReg reg data >>= f) d ↔
      Obeys watch post (f ()) ((d.select reg).write data) := by
  rw [dm9000WriteReg, bind_assoc, obeys_setReg, obeys_putData]

theorem obeys_writeReg_last {reg data : U16} {post : Unit → Watch → Prop} :
    Obeys watch post (dm9000WriteReg reg data) d ↔ post () ((d.select reg).write data) := by
  rw [← bind_pure (dm9000WriteReg reg data), obeys_writeReg, obeys_pure]

theorem obeys_readReg {reg : U16} {f : U16 → Driver α} :
    Obeys watch post (dm9000ReadReg reg >>= f) d ↔
      ∀ word, Obeys watch post (f word) ((d.select reg).read word) := by
  rw [dm9000ReadReg, bind_assoc, obeys_setReg, obeys_getData]

end

theorem read_good {d : Watch} {word : U16} (hready : ¬ d.BadReady word) (hlong : ¬ d.TooLong word) :
    d.read word = { d with reads := d.reads + 1 } := by
  rw [Watch.read, decide_eq_false hready, decide_eq_false hlong, Bool.or_false, Bool.or_false]

theorem mrcmdx_ne_mrcmd : Reg.MRCMDX ≠ Reg.MRCMD := by decide

theorem read_badReady {d : Watch} {word : U16} (h : d.BadReady word) :
    d.read word = { d with reads := d.reads + 1, badReady := true } := by
  have hlong : ¬ d.TooLong word := fun hl => mrcmdx_ne_mrcmd (h.2.1.symm.trans hl.2.1)
  rw [Watch.read, decide_eq_true h, decide_eq_false hlong, Bool.or_true, Bool.or_false]

theorem read_tooLong {d : Watch} {word : U16} (h : d.TooLong word) :
    (d.read word).tooLong = true := by
  rw [Watch.read, decide_eq_true h, Bool.or_true]

theorem read_select (d : Watch) (reg word : U16) :
    (d.select reg).read word = { d with index := reg, reads := 1 } :=
  read_good (fun h => absurd h.1 (by simp [Watch.select])) fun h =>
    absurd h.1 (by simp [Watch.select])

theorem write_select (d : Watch) {reg data : U16} (h : reg = Reg.NCR → data &&& ncrRst = 0) :
    (d.select reg).write data = { d with
      index := reg
      reads := 0
      rcr := if reg = Reg.RCR then data else d.rcr
      lost := Function.update d.lost reg false } :=
  if_neg fun hr => hr.2 (h hr.1)

/-! ## Initialisation -/

/-- No bad ready byte so far, and only the registers of `regs` still lack their values. -/
structure Lacking (regs : Set U16) (d : Watch) : Prop where
  lost : ∀ reg, d.lost reg = true → reg ∈ regs
  rxen : Reg.RCR ∉ regs → d.rcr &&& rcrRxen ≠ 0
  clean : d.badReady = false

abbrev afterReset : Set U16 := {reg | reg ∈ Watch.resetRegs}

section
variable {regs regs' : Set U16} {d : Watch}

theorem Lacking.mono (h : Lacking regs d) (hsub : regs ⊆ regs') : Lacking regs' d :=
  ⟨fun reg hreg => hsub (h.lost reg hreg), fun hr => h.rxen fun hmem => hr (hsub hmem), h.clean⟩

theorem lacking_univ (h : d.badReady = false) : Lacking Set.univ d :=
  ⟨fun _ _ => trivial, fun h => absurd trivial h, h⟩

theorem Lacking.write (h : Lacking regs d) (reg data : U16)
    (hncr : reg = Reg.NCR → data &&& ncrRst = 0) (hrcr : reg = Reg.RCR → data &&& rcrRxen ≠ 0) :
    Lacking (regs \ {reg}) ((d.select reg).write data) := by
  rw [write_select d hncr]
  constructor
  · intro r hr
    simp only [Function.update_apply] at hr
    split_ifs at hr with hne
    exact ⟨h.lost r hr, hne⟩
  · intro hr
    by_cases hreg : reg = Reg.RCR
    · simpa only [if_pos hreg] using hrcr hreg
    · simp only [if_neg hreg]
      exact h.rxen fun hmem => hr ⟨hmem, Ne.symm hreg⟩
  · exact h.clean

theorem Lacking.softReset (h : Lacking regs d) {data : U16} (hdata : data &&& ncrRst ≠ 0) :
    Lacking afterReset ((d.select Reg.NCR).write data) := by
  rw [Watch.write, if_pos ⟨rfl, hdata⟩]
  refine ⟨fun reg hreg => of_decide_eq_true hreg, fun hr => absurd ?_ hr, h.clean⟩
  exact List.mem_cons_self

theorem Lacking.read (h : Lacking regs d) (reg word : U16) :
    Lacking regs ((d.select reg).read word) := by
  rw [read_select]
  exact ⟨h.lost, h.rxen, h.clean⟩

variable {α : Type} {post : α → Watch → Prop} {f : Unit → Driver α}

theorem lacking_writeReg (h : Lacking regs d) {reg data : U16}
    (hreg : reg ≠ Reg.NCR ∧ reg ≠ Reg.RCR)
    (hf : ∀ d, Lacking (regs \ {reg}) d → Obeys watch post (f ()) d) :
    Obeys watch post (dm9000WriteReg reg data >>= f) d :=
  obeys_writeReg.mpr (hf _ (h.write _ _ (fun h => absurd h hreg.1) fun h => absurd h hreg.2))

theorem lacking_other (h : Lacking regs d) {reg data : U16}
    (hreg : reg ≠ Reg.NCR ∧ reg ≠ Reg.RCR)
    (hf : ∀ d, Lacking regs d → Obeys watch post (f ()) d) :
    Obeys watch post (dm9000WriteReg reg data >>= f) d :=
  lacking_writeReg h hreg fun d hd => hf d (hd.mono Set.sdiff_subset)

theorem lacking_readReg (h : Lacking regs d) {reg : U16} {f : U16 → Driver α}
    (hf : ∀ word d, Lacking regs d → Obeys watch post (f word) d) :
    Obeys watch post (dm9000ReadReg reg >>= f) d :=
  obeys_readReg.mpr fun word => hf word _ (h.read reg word)

theorem waitReset_lacking (h : Lacking regs d) (fuel : ℕ) :
    Obeys watch (fun _ d => Lacking regs d) (waitReset fuel) d := by
  induction fuel generalizing d with
  | zero => trivial
  | succ fuel ih =>
    refine lacking_readReg h fun word d hd => ?_
    split_ifs
    · exact ih hd
    · exact hd

theorem phyReadReg_lacking (h : Lacking regs d) (reg : U16) :
    Obeys watch (fun _ d => Lacking regs d) (dm9000PHYReadReg reg) d := by
  refine lacking_other h (by decide) fun d hd => ?_
  refine lacking_other hd (by decide) fun d hd => ?_
  refine lacking_other hd (by decide) fun d hd => ?_
  refine lacking_readReg hd fun high d hd => ?_
  exact lacking_readReg hd fun low d hd => hd

theorem phyWriteReg_lacking (h : Lacking regs d) (reg value : U16) :
    Obeys watch (fun _ d => Lacking regs d) (dm9000PHYWriteReg reg value) d := by
  refine lacking_other h (by decide) fun d hd => ?_
  refine lacking_other hd (by decide) fun d hd => ?_
  refine lacking_other hd (by decide) fun d hd => ?_
  refine lacking_other hd (by decide) fun d hd => ?_
  exact obeys_writeReg_last.mpr ((hd.write _ _ (by decide) (by decide)).mono Set.sdiff_subset)

theorem getDeiviceID_lacking (h : Lacking regs d) :
    Obeys watch (fun _ d => Lacking regs d) dm9000GetDeiviceID d := by
  refine lacking_readReg h fun vidl d hd => ?_
  refine lacking_readReg hd fun vidh d hd => ?_
  refine lacking_readReg hd fun pidl d hd => ?_
  exact lacking_readReg hd fun pidh d hd => hd

theorem setPHYMode_lacking (h : Lacking regs d) :
    Obeys watch (fun _ d => Lacking regs d) dm9000SetPHYMode d := by
  refine obeys_bind (obeys_mono (phyWriteReg_lacking h _ _) fun _ d hd => ?_)
  refine obeys_bind (obeys_mono (phyWriteReg_lacking hd _ _) fun _ d hd => ?_)
  exact obeys_writeReg_last.mpr ((hd.write _ _ (by decide) (by decide)).mono Set.sdiff_subset)

theorem waitNegotiated_lacking (h : Lacking regs d) (retries : ℕ) :
    Obeys watch (fun _ d => Lacking regs d) (waitNegotiated retries) d := by
  induction retries generalizing d with
  | zero => exact obeys_bind (obeys_mono (phyReadReg_lacking h _) fun _ _ hd => hd)
  | succ retries ih =>
    refine obeys_bind (obeys_mono (phyReadReg_lacking h _) fun bmsr d hd => ?_)
    split_ifs
    · exact ih hd
    · exact hd

theorem getSpeedAndDuplex_lacking (h : Lacking regs d) :
    Obeys watch (fun _ d => Lacking regs d) dm9000GetSpeedAndDuplex d := by
  refine obeys_bind (obeys_mono (waitNegotiated_lacking h 100) fun done d hd => ?_)
  split_ifs
  · exact lacking_readReg hd fun nsr d hd => lacking_readReg hd fun ncr d hd => hd
  · exact hd

theorem writeAddress_lacking (h : Lacking regs d) {reg : U16} {bytes : List U8}
    (hreg : ∀ i < bytes.length, reg + BitVec.ofNat 16 i ≠ Reg.NCR ∧
      reg + BitVec.ofNat 16 i ≠ Reg.RCR) :
    Obeys watch (fun _ d => Lacking {r ∈ regs | ∀ i < bytes.length, r ≠ reg + BitVec.ofNat 16 i} d)
      (writeAddress reg bytes) d := by
  induction bytes generalizing reg regs d with
  | nil => exact h.mono fun r hr => ⟨hr, fun i hi => absurd hi (Nat.not_lt_zero i)⟩
  | cons byte bytes ih =>
    have hnext (i : ℕ) : reg + 1 + BitVec.ofNat 16 i = reg + BitVec.ofNat 16 (i + 1) := by
      rw [Nat.add_comm i 1, BitVec.ofNat_add, ← BitVec.add_assoc]
      rfl
    have hhead := hreg 0 (Nat.succ_pos _)
    rw [BitVec.add_zero] at hhead
    refine lacking_writeReg h hhead fun d hd => ?_
    refine obeys_mono (ih hd fun i hi => ?_) fun _ d hd => hd.mono fun r hr => ⟨hr.1.1, ?_⟩
    · rw [hnext]
      exact hreg (i + 1) (Nat.succ_lt_succ hi)
    · intro i hi
      cases i with
      | zero => simpa using hr.1.2
      | succ i =>
        rw [← hnext]
        exact hr.2 i (Nat.lt_of_succ_lt_succ hi)

theorem reset_lacking (h : d.badReady = false) (fuel : ℕ) :
    Obeys watch (fun _ d => Lacking afterReset d) (dm9000Reset fuel) d := by
  refine lacking_other (lacking_univ h) (by decide) fun d hd => ?_
  refine lacking_other hd (by decide) fun d hd => ?_
  refine obeys_writeReg.mpr (obeys_bind (obeys_mono
    (waitReset_lacking (hd.softReset (by decide)) fuel) fun _ d hd => ?_))
  refine obeys_writeReg.mpr (obeys_writeReg.mpr ?_)
  have hncr := hd.write Reg.NCR 0 (fun _ => rfl) (fun h => absurd h (by decide))
  exact waitReset_lacking (hncr.softReset (by decide)) fuel

end

abbrev without (regs : Set U16) (reg : U16) (n : ℕ) : Set U16 :=
  {r ∈ regs | ∀ i < n, r ≠ reg + BitVec.ofNat 16 i}

theorem afterReset_restored :
    ((without (without afterReset Reg.PAR 6) Reg.MAR 8 \ {Reg.RCR}) \ {Reg.IMR}) = ∅ := by
  refine Set.eq_empty_of_forall_notMem fun r hr => ?_
  obtain ⟨⟨⟨⟨hmem, hpar⟩, -⟩, hrcr⟩, himr⟩ := hr
  simp only [afterReset, Watch.resetRegs, Set.mem_ofPred_eq, List.mem_cons, List.not_mem_nil,
    or_false] at hmem
  rcases hmem with rfl | rfl | rfl | rfl | rfl | rfl | rfl | rfl
  · exact hrcr rfl
  · exact himr rfl
  · exact hpar 0 (by decide) rfl
  · exact hpar 1 (by decide) rfl
  · exact hpar 2 (by decide) rfl
  · exact hpar 3 (by decide) rfl
  · exact hpar 4 (by decide) rfl
  · exact hpar 5 (by decide) rfl

/-- Initialisation writes every register that its own software reset cleared. -/
theorem init_lacking {d : Watch} (h : d.badReady = false) (fuel : ℕ) (uid : U32) :
    Obeys watch (fun r d => r = 0 → Lacking ∅ d) (dm9000Init fuel uid) d := by
  refine obeys_bind (obeys_mono (reset_lacking h fuel) fun _ d hd => ?_)
  refine obeys_bind (obeys_mono (getDeiviceID_lacking hd) fun id d hd => ?_)
  split_ifs
  · exact fun hr => absurd hr (by decide)
  refine obeys_bind (obeys_mono (setPHYMode_lacking hd) fun _ d hd => ?_)
  have hncr := (hd.write Reg.NCR 0 (fun _ => rfl)
    (fun h => absurd h (by decide))).mono Set.sdiff_subset
  refine obeys_writeReg.mpr (lacking_other hncr (by decide) fun d hd => ?_)
  refine lacking_other hd (by decide) fun d hd => ?_
  refine lacking_other hd (by decide) fun d hd => ?_
  refine lacking_other hd (by decide) fun d hd => ?_
  refine lacking_other hd (by decide) fun d hd => ?_
  refine lacking_other hd (by decide) fun d hd => ?_
  refine lacking_other hd (by decide) fun d hd => ?_
  refine lacking_other hd (by decide) fun d hd => ?_
  refine obeys_bind (obeys_mono (writeAddress_lacking hd (show ∀ i < 6, _ by decide))
    fun _ d hd => ?_)
  refine obeys_bind (obeys_mono (writeAddress_lacking hd (show ∀ i < 8, _ by decide))
    fun _ d hd => ?_)
  refine obeys_writeReg.mpr ?_
  have hrcr := hd.write Reg.RCR (rcrDisLong ||| rcrDisCrc ||| rcrRxen)
    (fun h => absurd h (by decide)) (fun _ => by decide)
  refine lacking_writeReg hrcr (by decide) fun d hd => ?_
  have hall : Lacking ∅ d := hd.mono afterReset_restored.subset
  refine obeys_bind (obeys_mono (getSpeedAndDuplex_lacking hall) fun _ d hd => ?_)
  exact lacking_other hd (by decide) fun d hd _ => hd

/-! ## The calls after initialisation -/

/-- Every software reset made good, and the receiver on unless a ready byte has stopped it. -/
structure Watch.Settled (d : Watch) : Prop where
  restored : ∀ reg, d.lost reg = false
  rxen : d.rcr &&& rcrRxen ≠ 0 ↔ d.badReady = false

/-- What holds between two calls; nothing is said behind an over-long frame. -/
def Sound (d : Watch) : Prop := d.tooLong = false → d.Settled

theorem Lacking.sound {d : Watch} (h : Lacking ∅ d) : Sound d := by
  refine fun _ => ⟨fun reg => ?_, fun _ => h.clean, fun _ => h.rxen (Set.notMem_empty _)⟩
  by_contra hl
  exact h.lost reg (Bool.eq_true_of_not_eq_false hl)

def Plain (reg : U16) : Prop := reg ≠ Reg.NCR ∧ reg ≠ Reg.RCR ∧ reg ≠ Reg.MRCMDX ∧ reg ≠ Reg.MRCMD

instance (reg : U16) : Decidable (Plain reg) := inferInstanceAs (Decidable (_ ∧ _))

theorem plain_isr : Plain Reg.ISR := by decide

theorem plain_imr : Plain Reg.IMR := by decide

section
variable {d : Watch}

theorem Sound.select (h : Sound d) (reg : U16) : Sound (d.select reg) :=
  fun hc => ⟨(h hc).restored, (h hc).rxen⟩

theorem Sound.reads (h : Sound d) (n : ℕ) : Sound { d with reads := n } :=
  fun hc => ⟨(h hc).restored, (h hc).rxen⟩

theorem write_plain (hd : Plain d.index) (data : U16) :
    d.write data = { d with lost := Function.update d.lost d.index false } := by
  rw [Watch.write, if_neg fun h => hd.1 h.1, if_neg hd.2.1]

theorem read_plain (hd : Plain d.index) (word : U16) :
    d.read word = { d with reads := d.reads + 1 } :=
  read_good (fun h => hd.2.2.1 h.2.1) fun h => hd.2.2.2 h.2.1

theorem update_restored {lost : U16 → Bool} (h : ∀ reg, lost reg = false) (r reg : U16) :
    Function.update lost r false reg = false := by
  rw [Function.update_apply]
  split_ifs
  · rfl
  · exact h reg

theorem Sound.write (h : Sound d) (hd : Plain d.index) (data : U16) : Sound (d.write data) := by
  rw [write_plain hd]
  exact fun hc => ⟨update_restored (h hc).restored d.index, (h hc).rxen⟩

theorem Sound.read (h : Sound d) (hd : Plain d.index) (word : U16) : Sound (d.read word) := by
  rw [read_plain hd]
  exact h.reads _

def Access.KeepsPlain : Access → Prop
  | .setReg reg => Plain reg
  | .putData _ => True
  | _ => False

theorem plain_keeps {op : Access} (hop : op.KeepsPlain) (h : Sound d) (hd : Plain d.index)
    (r : Access.Reply op) : Sound (d.next op r) ∧ Plain (d.next op r).index := by
  cases op with
  | setReg reg => exact ⟨h.select reg, hop⟩
  | putData data =>
    have hindex : (d.write data).index = d.index := by rw [write_plain hd]
    exact ⟨h.write hd data, hindex ▸ hd⟩
  | getReg => exact hop.elim
  | getData => exact hop.elim
  | pbufAlloc len => exact hop.elim
  | pbufFree p => exact hop.elim

theorem plain_sound {ops : List Access} (hops : ∀ op ∈ ops, op.KeepsPlain) (h : Sound d)
    (hd : Plain d.index) :
    Obeys watch (fun _ d => Sound d ∧ Plain d.index) (performAll ops) d :=
  obeys_performAll (I := fun d => Sound d ∧ Plain d.index)
    (fun op hop _ hd => ⟨trivial, plain_keeps (hops op hop) hd.1 hd.2⟩) ⟨h, hd⟩

theorem request_plain (p : PbufChain) : ∀ op ∈ request p, op.KeepsPlain := by
  intro op hop
  simp only [request, selectTx, setLength, startTx, List.mem_append, List.mem_cons, List.mem_map,
    List.not_mem_nil, or_false] at hop
  rcases hop with ((rfl | rfl | rfl) | ⟨w, -, rfl⟩ | rfl | rfl | rfl | rfl) | rfl | rfl <;> trivial

theorem finish_plain (imr : U8) : ∀ op ∈ finish imr, op.KeepsPlain := by
  intro op hop
  simp only [finish, List.mem_cons, List.not_mem_nil, or_false] at hop
  rcases hop with rfl | rfl | rfl | rfl <;> trivial

theorem waitSent_sound (h : Sound d) (fuel : ℕ) :
    Obeys watch (fun _ d => Sound d ∧ Plain d.index) (waitSent fuel) d := by
  induction fuel generalizing d with
  | zero => trivial
  | succ fuel ih =>
    refine obeys_readReg.mpr fun word => ?_
    have hnext : Sound ((d.select Reg.ISR).read word) := (h.select Reg.ISR).read plain_isr word
    split_ifs
    · exact ih hnext
    · rw [read_select] at hnext ⊢
      exact ⟨hnext, plain_isr⟩

theorem send_sound (h : Sound d) (imr : U8) (fuel : ℕ) (p : PbufChain) :
    Obeys watch (fun _ d => Sound d) (dm9000SendPacket imr fuel p) d := by
  have hrequest : request p = .setReg Reg.IMR :: (request p).tail := rfl
  have hplain := request_plain p
  rw [dm9000SendPacket_eq, hrequest]
  rw [hrequest] at hplain
  refine obeys_setReg.mpr (obeys_bind (obeys_mono (plain_sound
    (fun op hop => hplain op (List.mem_cons_of_mem _ hop)) (h.select Reg.IMR) plain_imr)
    fun _ d hd => ?_))
  refine obeys_bind (obeys_mono (waitSent_sound hd.1 fuel) fun _ d hd => ?_)
  exact obeys_mono (plain_sound (finish_plain imr) hd.1 hd.2) fun _ _ hd => hd.1

theorem isrHandler_sound (h : Sound d) :
    Obeys watch (fun _ d => Sound d) dma9000ISRHandler d := by
  refine ⟨trivial, fun r r' hr => by rw [hr], fun lastIo => ?_⟩
  refine obeys_readReg.mpr fun intStatus => obeys_writeReg.mpr ?_
  have hread := (h.select Reg.ISR).read plain_isr intStatus
  exact obeys_setReg.mpr (((hread.select Reg.ISR).write plain_isr intStatus).select lastIo)

end

/-! ## Receiving -/

/-- Further reads of `d`'s register: none of them is a length or a ready byte. -/
def Later (d d' : Watch) : Prop := ∃ n, 2 ≤ n ∧ d' = { d with reads := n }

theorem Later.read {d d' : Watch} (h : Later d d') (word : U16) : Later d (d'.read word) := by
  obtain ⟨n, hn, rfl⟩ := h
  have hn1 : n ≠ 1 := by omega
  exact ⟨n + 1, Nat.le_succ_of_le hn, read_good (fun h => hn1 h.1) fun h => hn1 h.1⟩

section
variable {c d : Watch}

theorem copyWords_later (h : Later c d) (len : ℕ) :
    Obeys watch (fun _ d => Later c d) (copyWords len) d := by
  induction len using copyWords.induct generalizing d with
  | case1 => exact h
  | case2 => exact obeys_getData.mpr fun word => h.read word
  | case3 len ih =>
    refine obeys_getData.mpr fun word => ?_
    exact obeys_bind (obeys_mono (ih (h.read word)) fun words d hd => hd)

theorem copySegments_later (h : Later c d) (lens : List ℕ) :
    Obeys watch (fun _ d => Later c d) (copySegments lens) d := by
  induction lens generalizing d with
  | nil => exact h
  | cons len lens ih =>
    refine obeys_bind (obeys_mono (copyWords_later h len) fun words d hd => ?_)
    exact obeys_bind (obeys_mono (ih hd) fun segments d hd => hd)

theorem drain_later (h : Later c d) (fuel : ℕ) (len : ℤ) :
    Obeys watch (fun _ d => Later c d) (drain fuel len) d := by
  induction fuel generalizing d len with
  | zero => trivial
  | succ fuel ih =>
    rw [drain]
    split_ifs
    · exact h
    · exact obeys_getData.mpr fun word => ih (h.read word) _

theorem fillPbuf_later (h : Later c d) (fuel : ℕ) (rxLength : U16) (granted : Option ℕ) :
    Obeys watch (fun _ d => Later c d) (fillPbuf fuel rxLength granted) d := by
  cases granted with
  | some id => exact obeys_bind (obeys_mono (copySegments_later h _) fun segments d hd => hd)
  | none => exact obeys_bind (obeys_mono (drain_later h fuel _) fun _ d hd => hd)

/-- A stopped receiver: the driver writes 0 to `RCR`. -/
theorem disable_sound (h : d.tooLong = false → ∀ reg, d.lost reg = false)
    (hready : d.badReady = true) : Sound ((d.select Reg.RCR).write 0) := by
  rw [write_select d fun _ => rfl]
  refine fun hc => ⟨update_restored (h hc) Reg.RCR, fun hrcr => ?_, fun hclean => ?_⟩
  · exact absurd BitVec.zero_and hrcr
  · exact absurd (hclean.symm.trans hready) Bool.false_ne_true

theorem resetIfTooBig_sound {rxLength : U16} (hup : rxLength.toNat ≤ dm9000PktMax → Sound d)
    (hlong : dm9000PktMax < rxLength.toNat → d.tooLong = true) :
    Obeys watch (fun _ d => Sound d) (resetIfTooBig rxLength) d := by
  rw [resetIfTooBig]
  split_ifs with hbig
  · refine obeys_writeReg_last.mpr fun hc => ?_
    rw [Watch.write, if_pos ⟨rfl, by decide⟩] at hc
    exact absurd (hc.symm.trans (hlong hbig)) Bool.false_ne_true
  · exact hup (Nat.le_of_not_lt hbig)

theorem pbufFree_sound (h : Sound d) (p : Option RxPbuf) :
    Obeys watch (fun _ d => Sound d) (pbufFree p) d := by
  cases p with
  | none => exact h
  | some p => exact ⟨trivial, fun _ _ _ => rfl, fun _ => h⟩

end

/-- Once the length has been read: a short frame, or one watched to be over-long. -/
structure Measured (rxLength : U16) (d : Watch) : Prop where
  sound : rxLength.toNat ≤ dm9000PktMax → Sound d
  tooLong : dm9000PktMax < rxLength.toNat → d.tooLong = true
  reads : 2 ≤ d.reads

theorem Measured.later {rxLength : U16} {d d' : Watch} (h : Measured rxLength d)
    (hd : Later d d') : Measured rxLength d' := by
  obtain ⟨n, hn, rfl⟩ := hd
  exact ⟨fun hle => (h.sound hle).reads n, h.tooLong, hn⟩

theorem readHeader_measured {d : Watch} (h : Sound d) :
    Obeys watch (fun x d => Measured x.2.1 d) readHeader d := by
  refine obeys_setReg.mpr (obeys_getData.mpr fun rxStatus => obeys_getData.mpr fun rxLength => ?_)
  rw [read_select]
  refine ⟨trivial, fun r r' hr => by rw [hr], fun granted => ?_⟩
  refine ⟨fun hle => ?_, fun hbig => ?_, le_refl 2⟩
  · rw [read_good (fun h => mrcmdx_ne_mrcmd h.2.1.symm) fun h => absurd h.2.2 (Nat.not_lt.mpr hle)]
    exact (h.select Reg.MRCMD).reads 2
  · exact read_tooLong ⟨rfl, rfl, hbig⟩

theorem receive_sound {d : Watch} (h : Sound d) (fuel : ℕ) :
    Obeys watch (fun _ d => Sound d) (dm9000ReceivePacket fuel) d := by
  induction fuel generalizing d with
  | zero => trivial
  | succ fuel ih =>
    have hd : Sound { d with index := Reg.MRCMDX, reads := 2 } := (h.select _).reads 2
    refine obeys_readReg.mpr fun _ => obeys_getData.mpr fun word => ?_
    rw [read_select]
    dsimp only
    split_ifs with hready hbad
    -- a corrupt ready byte: the driver stops the receiver
    · rw [read_badReady ⟨rfl, rfl, hbad⟩]
      refine obeys_writeReg.mpr (obeys_writeReg.mpr ?_)
      refine Sound.write (Sound.select (disable_sound ?_ rfl) Reg.ISR) plain_isr 0x80
      exact fun hc => (h hc).restored
    · rw [read_good (fun h => hbad h.2.2) fun h => mrcmdx_ne_mrcmd h.2.1]
      refine obeys_bind (obeys_mono (readHeader_measured hd) fun header d hd => ?_)
      obtain ⟨rxStatus, rxLength, granted⟩ := header
      refine obeys_bind (obeys_mono (fillPbuf_later (c := d) ⟨d.reads, hd.reads, rfl⟩ fuel rxLength
        granted) fun p e he => ?_)
      have hm := hd.later he
      split_ifs with hframe
      · refine obeys_bind (obeys_mono (resetIfTooBig_sound hm.sound hm.tooLong) fun _ d hd => ?_)
        exact obeys_bind (obeys_mono (pbufFree_sound hd p) fun _ d hd => ih hd)
      · exact hm.sound (Nat.le_of_not_lt fun hbig => hframe (Or.inr (Or.inr hbig)))
    · have hzero : ¬ 1 < (lowByte word).toNat := by
        rw [not_not.mp hready]
        decide
      rw [read_good (fun h => hzero h.2.2) fun h => mrcmdx_ne_mrcmd h.2.1]
      refine obeys_writeReg.mpr (obeys_writeReg.mpr ?_)
      exact ((((hd.select Reg.ISR).write plain_isr isrPts).select Reg.IMR).write plain_imr _)

/-! ## Whole sessions -/

inductive Call
  | transfer (t : Transfer)
  | isr

def Call.driver (fuel : ℕ) : Call → Driver Unit
  | transfer t => t.driver fuel
  | isr => dma9000ISRHandler

def calls (fuel : ℕ) : List Call → Driver Unit
  | [] => pure ()
  | call :: rest => do
    call.driver fuel
    calls fuel rest

def session (fuel : ℕ) (uid : U32) (cs : List Call) : Driver U8 := do
  let res ← dm9000Init fuel uid
  calls fuel cs
  pure res

theorem call_sound {d : Watch} (h : Sound d) (fuel : ℕ) (call : Call) :
    Obeys watch (fun _ d => Sound d) (call.driver fuel) d := by
  cases call with
  | transfer t =>
    cases t with
    | receive => exact obeys_bind (obeys_mono (receive_sound h fuel) fun _ _ hd => hd)
    | send p => exact send_sound h imrAll fuel p
  | isr => exact isrHandler_sound h

theorem calls_sound {d : Watch} (h : Sound d) (fuel : ℕ) (cs : List Call) :
    Obeys watch (fun _ d => Sound d) (calls fuel cs) d := by
  induction cs generalizing d with
  | nil => exact h
  | cons call cs ih => exact obeys_bind (obeys_mono (call_sound h fuel call) fun _ d hd => ih hd)

def Watch.boot : Watch where
  index := 0
  reads := 0
  rcr := 0
  lost := fun _ => true
  badReady := false
  tooLong := false

theorem session_sound (fuel : ℕ) (uid : U32) (cs : List Call) :
    Obeys watch (fun res d => res = 0 → Sound d) (session fuel uid cs) Watch.boot := by
  refine obeys_bind (obeys_mono (init_lacking rfl fuel uid) fun res d hd => ?_)
  by_cases hres : res = 0
  · exact obeys_bind (obeys_mono (calls_sound (hd hres).sound fuel cs) fun _ d hd _ => hd)
  · exact obeys_bind (obeys_mono (obeys_watching (calls fuel cs) d) fun _ d _ h => absurd h hres)

/-- On every return before which no over-long frame was read. -/
theorem receiver_enabled_unless_stopped {σ : Type} {dev : Device Access Access.Reply σ} {s s' : σ}
    {fuel : ℕ} {uid : U32} {cs : List Call} {d : Watch}
    (hrun : (session fuel uid cs).run (monitored watch dev) (s, Watch.boot) = some (0, (s', d)))
    (hlong : d.tooLong = false) :
    (∀ reg, d.lost reg = false) ∧ (d.rcr &&& rcrRxen ≠ 0 ↔ d.badReady = false) := by
  have hsettled := obeys_run (session_sound fuel uid cs) hrun rfl hlong
  exact ⟨hsettled.restored, hsettled.rxen⟩

/-- A chip that answers by the selected register alone. -/
def register (ready : U16) (index : U16) : U16 :=
  if index = Reg.VIDL then 0x46 else if index = Reg.VIDH then 0x0A else if index = Reg.PIDH then 0x90
  else if index = Reg.EPDRL then 0x20 else if index = Reg.ISR then 0x02
  else if index = Reg.MRCMDX then ready else 0

def quietChip (ready : U16) : Device Access Access.Reply U16
  | .setReg reg, _ => ((), reg)
  | .getReg, index => (index, index)
  | .putData _, index => ((), index)
  | .getData, index => (register ready index, index)
  | .pbufAlloc _, index => (none, index)
  | .pbufFree _, index => ((), index)

theorem receiver_enabled_unless_stopped_sample : ∃ s' d,
    (session 2 0 [.isr, .transfer (.send sampleChain), .transfer .receive]).run
      (monitored watch (quietChip 0)) (0, Watch.boot) = some (0, (s', d)) ∧ d.rcr &&& rcrRxen ≠ 0 := by
  have hclean : ((session 2 0 [.isr, .transfer (.send sampleChain), .transfer .receive]).run
      (monitored watch (quietChip 0)) (0, Watch.boot)).map
        (fun x => (x.1, x.2.2.tooLong, x.2.2.badReady)) = some (0, false, false) := rfl
  obtain ⟨⟨res, s', d⟩, hrun, heq⟩ := Option.map_eq_some_iff.mp hclean
  obtain ⟨rfl, heq⟩ := Prod.mk.inj heq
  obtain ⟨hlong, hready⟩ := Prod.mk.inj heq
  exact ⟨s', d, hrun, (receiver_enabled_unless_stopped hrun hlong).2.mpr hready⟩

theorem receiver_off_after_bad_ready_byte : ∃ s' d,
    (session 2 0 [.transfer .receive, .transfer .receive]).run (monitored watch (quietChip 2))
      (0, Watch.boot) = some (0, (s', d)) ∧ ¬ d.rcr &&& rcrRxen ≠ 0 := by
  have hoff : ((session 2 0 [.transfer .receive, .transfer .receive]).run (monitored watch (quietChip 2))
      (0, Watch.boot)).map (fun x => (x.1, x.2.2.rcr)) = some (0, 0) := rfl
  obtain ⟨⟨res, s', d⟩, hrun, heq⟩ := Option.map_eq_some_iff.mp hoff
  obtain ⟨rfl, hrcr⟩ := Prod.mk.inj heq
  have hrcr : d.rcr = 0 := hrcr
  refine ⟨s', d, hrun, fun h => h ?_⟩
  rw [hrcr]
  decide

end EnvirMonitor.Ethernet
