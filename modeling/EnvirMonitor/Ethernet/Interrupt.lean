import EnvirMonitor.Machine.AccessMonitor
import EnvirMonitor.Machine.GuardedRuns
import EnvirMonitor.Ethernet.Chip
import EnvirMonitor.Ethernet.Control

/-! `EXTI9_5_IRQHandler` between the accesses of the main thread, against the same run without
it: the driver asks for the chip's interrupts only while no transmission is under way. -/

namespace EnvirMonitor.Ethernet
open Machine Prog

/-! ## The chip with its interrupt pin -/

/-- A transmission that has been requested is `busy` until its end shows in bit 1 of `ISR`. -/
structure Nic where
  board : Board
  busy : Bool

namespace Nic

abbrev isr (n : Nic) : U16 := n.board.regs Reg.ISR

def withIsr (n : Nic) (isr : U16) : Nic :=
  { n with board := { n.board with regs := Function.update n.board.regs Reg.ISR isr } }

def write (n : Nic) (data : U16) : Nic :=
  if n.board.index = Reg.TCR ∧ data &&& 0x01 ≠ 0 then
    ({ board := n.board.transmit data, busy := true } : Nic).withIsr n.isr
  else { n with board := n.board.write data }

def IntLow (n : Nic) : Prop := n.isr &&& n.board.regs Reg.IMR ≠ 0

instance (n : Nic) : Decidable n.IntLow := inferInstanceAs (Decidable (_ ≠ _))

end Nic

def nic : Device Access Access.Reply Nic
  | .putData data, n => ((), n.write data)
  | op, n => ((board op n.board).1, { n with board := (board op n.board).2 })

inductive ChipEvent
  | raise (bits : U16)
  | complete
  | arrive (rxReady rxWord : ℕ → U16)

/-- Every interrupt source but the end of a transmission is raised at will. -/
def ChipEvent.apply : ChipEvent → Nic → Nic
  | raise bits, n => n.withIsr (n.isr ||| bits &&& 0x3D)
  | complete, n => if n.busy then { n with busy := false }.withIsr (n.isr ||| isrPts) else n
  | arrive rxReady rxWord, n => { n with board := { n.board with rxReady, rxWord } }

/-- `while(DM9000_INT == 0) DMA9000_ISRHandler();` -/
def exti95IRQHandler : ℕ → Nic → Option Nic
  | 0, _ => none
  | fuel + 1, n =>
    if n.IntLow then (dma9000ISRHandler.run nic n).bind fun x => exti95IRQHandler fuel x.2
    else some n

/-! ## The main thread and its interruptions -/

/-- An access of the main thread, with the register it selected last and the register reached. -/
structure Done where
  op : Access
  sel : Option U16
  reached : U16
  reply : Access.Reply op

/-- The log has the newest access first. -/
structure Thread where
  prog : Driver Unit
  nic : Nic
  sel : Option U16
  log : List Done

inductive Slot
  | main
  | irq
  | chip (e : ChipEvent)

def Slot.isIrq : Slot → Bool
  | irq => true
  | _ => false

def selects (sel : Option U16) : Access → Option U16
  | .setReg reg => some reg
  | _ => sel

def Thread.access (t : Thread) : Thread :=
  match t.prog with
  | .act op next =>
    { prog := next (Ethernet.nic op t.nic).1
      nic := (Ethernet.nic op t.nic).2
      sel := selects t.sel op
      log := ⟨op, t.sel, t.nic.board.index, (Ethernet.nic op t.nic).1⟩ :: t.log }
  | _ => t

def slot (fuel : ℕ) (t : Thread) : Slot → Option Thread
  | .main => some t.access
  | .irq => (exti95IRQHandler fuel t.nic).map fun n => { t with nic := n }
  | .chip e => some { t with nic := e.apply t.nic }

def Thread.start (fuel : ℕ) (ts : List Transfer) (n : Nic) : Thread :=
  ⟨transfers fuel ts, n, none, []⟩

/-! ## What the handler does to the chip -/

@[simp] theorem withIsr_isr (n : Nic) (isr : U16) : (n.withIsr isr).isr = isr := by
  simp [Nic.isr, Nic.withIsr]

@[simp] theorem withIsr_withIsr (n : Nic) (a b : U16) : (n.withIsr a).withIsr b = n.withIsr b := by
  simp only [Nic.withIsr, Function.update_idem]

theorem withIsr_self (n : Nic) : n.withIsr n.isr = n := by
  simp only [Nic.withIsr, Function.update_eq_self]

theorem withIsr_imr (n : Nic) (isr : U16) :
    (n.withIsr isr).board.regs Reg.IMR = n.board.regs Reg.IMR :=
  Function.update_of_ne (show Reg.IMR ≠ Reg.ISR by decide) isr n.board.regs

def Nic.at (n : Nic) (reg : U16) : Nic := { n with board := { n.board with index := reg } }

theorem run_isrHandler (n : Nic) : dma9000ISRHandler.run nic n = some ((), n.withIsr 0) := by
  have hwrite (isr : U16) : (n.at Reg.ISR).write isr = (n.withIsr (n.isr &&& ~~~isr)).at Reg.ISR := by
    rw [Nic.write, if_neg fun h => absurd h.1 (show Reg.ISR ≠ Reg.TCR by decide)]
    rfl
  calc dma9000ISRHandler.run nic n
      = some ((), ((n.at Reg.ISR).write n.isr).at n.board.index) := rfl
    _ = some ((), n.withIsr 0) := by
      rw [hwrite, BitVec.and_not_self]
      rfl

theorem exti_eq (fuel : ℕ) (n : Nic) :
    exti95IRQHandler (fuel + 2) n = some (if n.IntLow then n.withIsr 0 else n) := by
  have hclear : ¬ (n.withIsr 0).IntLow := by
    rw [Nic.IntLow, withIsr_isr, not_not]
    exact BitVec.zero_and
  rw [exti95IRQHandler]
  split_ifs with hlow
  · rw [run_isrHandler, Option.bind_some, exti95IRQHandler, if_neg hclear]
  · rfl

/-! ## The discipline of the driver -/

/-- `masked`: only the `PAR` bit stands in `IMR`; `waiting`: a transmission has been requested and
its end not yet seen; `seen`: it has been seen and not yet cleared. -/
inductive Phase
  | opened
  | masked
  | waiting
  | seen
  deriving DecidableEq

structure Discipline where
  sel : Option U16
  phase : Phase

namespace Discipline

def write (d : Discipline) (data : U16) : Phase :=
  if d.sel = some Reg.IMR then if data = imrPar.setWidth 16 then .masked else .opened
  else if d.sel = some Reg.TCR ∧ data &&& 0x01 ≠ 0 then .waiting
  else if d.sel = some Reg.ISR ∧ d.phase = .seen then .masked
  else d.phase

def read (d : Discipline) (word : U16) : Phase :=
  if d.sel = some Reg.ISR ∧ d.phase = .waiting ∧ word &&& 0x02 ≠ 0 then .seen else d.phase

def next (d : Discipline) : (op : Access) → Access.Reply op → Discipline
  | .setReg reg, _ => { d with sel := some reg }
  | .putData data, _ => { d with phase := d.write data }
  | .getData, word => { d with phase := d.read word }
  | _, _ => d

def Idle (d : Discipline) : Prop := d.phase = .opened ∨ d.phase = .masked

structure MayWrite (d : Discipline) (data : U16) : Prop where
  selected : d.sel ≠ none
  imr : d.sel = some Reg.IMR → d.Idle
  tcr : d.sel = some Reg.TCR → data &&& 0x01 ≠ 0 → d.phase = .masked
  isr : d.sel = some Reg.ISR → d.phase ≠ .waiting ∧ (d.phase = .seen → data = 0x02)

/-- The main thread never reads `REG`. -/
def allowed (d : Discipline) : Access → Prop
  | .putData data => d.MayWrite data
  | .getData => d.sel ≠ none
  | .getReg => False
  | _ => True

/-- Of `ISR` only bit 1 matters. -/
def AlikeWords (d : Discipline) (word word' : U16) : Prop :=
  if d.sel = some Reg.ISR then word &&& 0x02 = word' &&& 0x02 else word = word'

def alike (d : Discipline) : (op : Access) → Access.Reply op → Access.Reply op → Prop
  | .getData, word, word' => d.AlikeWords word word'
  | _, r, r' => r = r'

end Discipline

abbrev discipline : Monitor Access Access.Reply Discipline where
  next := Discipline.next
  allowed := Discipline.allowed
  alike := Discipline.alike

section
variable {α : Type} {post : α → Discipline → Prop} {d : Discipline} {sel : Option U16}
  {phase : Phase}

theorem keeps_setReg {reg : U16} {f : Unit → Driver α}
    (h : Obeys discipline post (f ()) { d with sel := some reg }) :
    Obeys discipline post (setReg reg >>= f) d :=
  ⟨trivial, fun _ _ _ => rfl, fun _ => h⟩

theorem keeps_putData {data : U16} {f : Unit → Driver α} (hmay : d.MayWrite data)
    (h : Obeys discipline post (f ()) { d with phase := d.write data }) :
    Obeys discipline post (putData data >>= f) d :=
  ⟨hmay, fun _ _ _ => rfl, fun _ => h⟩

theorem alikeWords_iff (h : ¬ d.sel = some Reg.ISR) {word word' : U16} :
    d.AlikeWords word word' ↔ word = word' := by
  simp only [Discipline.AlikeWords, if_neg h]

theorem alikeWords_isr (h : d.sel = some Reg.ISR) {word word' : U16} :
    d.AlikeWords word word' ↔ word &&& 0x02 = word' &&& 0x02 := by
  simp only [Discipline.AlikeWords, if_pos h]

theorem keeps_getData {reg : U16} {f : U16 → Driver α} (hsel : d.sel = some reg)
    (hreg : reg ≠ Reg.ISR) (h : ∀ word, Obeys discipline post (f word) d) :
    Obeys discipline post (getData >>= f) d := by
  have hisr : ¬ d.sel = some Reg.ISR := fun hs => hreg (Option.some.inj (hsel.symm.trans hs))
  refine ⟨Option.ne_none_iff_exists'.mpr ⟨reg, hsel⟩, fun word word' hr => ?_, fun word => ?_⟩
  · rw [(alikeWords_iff hisr).mp hr]
  · have hnext : d.read word = d.phase := if_neg fun hs => hisr hs.1
    change Obeys discipline post (f word) { d with phase := d.read word }
    rw [hnext]
    exact h word

theorem keeps_writeReg {reg data : U16} {f : Unit → Driver α}
    (hmay : ({ d with sel := some reg } : Discipline).MayWrite data)
    (h : Obeys discipline post (f ())
      ⟨some reg, ({ d with sel := some reg } : Discipline).write data⟩) :
    Obeys discipline post (dm9000WriteReg reg data >>= f) d :=
  keeps_setReg (keeps_putData hmay h)

/-- While no transmission is under way everything but a request may be written. -/
theorem idle_writeReg (hidle : d.Idle) {reg data : U16} (hreg : reg ≠ Reg.TCR)
    {f : Unit → Driver α}
    (h : ∀ d : Discipline, d.Idle → Obeys discipline post (f ()) d) :
    Obeys discipline post (dm9000WriteReg reg data >>= f) d := by
  have hphase : d.phase ≠ .waiting ∧ d.phase ≠ .seen := by
    rcases hidle with hp | hp <;> simp [hp]
  have htcr : ¬ some reg = some Reg.TCR := fun hs => hreg (Option.some.inj hs)
  refine keeps_writeReg ⟨by simp, fun _ => hidle, fun hs => absurd hs htcr,
    fun _ => ⟨hphase.1, fun hs => absurd hs hphase.2⟩⟩ (h _ ?_)
  rw [Discipline.Idle, Discipline.write]
  split_ifs with himr hdata hreq hisr
  · exact Or.inr rfl
  · exact Or.inl rfl
  · exact absurd hreq.1 htcr
  · exact absurd hisr.2 hphase.2
  · exact hidle

theorem keeps_readReg {reg : U16} (hreg : reg ≠ Reg.ISR) {f : U16 → Driver α}
    (h : ∀ word, Obeys discipline post (f word) ⟨some reg, d.phase⟩) :
    Obeys discipline post (dm9000ReadReg reg >>= f) d :=
  keeps_setReg (keeps_getData rfl hreg h)

end

/-! ## Receiving -/

section
variable {d : Discipline} {reg : U16}

theorem copyWords_keeps (hsel : d.sel = some reg) (hreg : reg ≠ Reg.ISR) (len : ℕ) :
    Obeys discipline (fun _ d' => d' = d) (copyWords len) d := by
  induction len using copyWords.induct with
  | case1 => exact rfl
  | case2 => exact keeps_getData hsel hreg fun word => rfl
  | case3 len ih =>
    refine keeps_getData hsel hreg fun word => ?_
    exact obeys_bind (obeys_mono ih fun words d' hd => hd)

theorem copySegments_keeps (hsel : d.sel = some reg) (hreg : reg ≠ Reg.ISR) (lens : List ℕ) :
    Obeys discipline (fun _ d' => d' = d) (copySegments lens) d := by
  induction lens with
  | nil => exact rfl
  | cons len lens ih =>
    refine obeys_bind (obeys_mono (copyWords_keeps hsel hreg len) fun words d' hd => ?_)
    rw [hd]
    exact obeys_bind (obeys_mono ih fun segments d' hd => hd)

theorem drain_keeps (hsel : d.sel = some reg) (hreg : reg ≠ Reg.ISR) (fuel : ℕ) (len : ℤ) :
    Obeys discipline (fun _ d' => d' = d) (drain fuel len) d := by
  induction fuel generalizing len with
  | zero => trivial
  | succ fuel ih =>
    rw [drain]
    split_ifs
    · exact rfl
    · exact keeps_getData hsel hreg fun word => ih _

theorem fillPbuf_keeps (hsel : d.sel = some reg) (hreg : reg ≠ Reg.ISR) (fuel : ℕ)
    (rxLength : U16) (granted : Option ℕ) :
    Obeys discipline (fun _ d' => d' = d) (fillPbuf fuel rxLength granted) d := by
  cases granted with
  | some id =>
    exact obeys_bind (obeys_mono (copySegments_keeps hsel hreg _) fun segments d' hd => hd)
  | none => exact obeys_bind (obeys_mono (drain_keeps hsel hreg fuel _) fun _ d' hd => hd)

theorem readHeader_keeps (d : Discipline) :
    Obeys discipline (fun _ d' => d' = ⟨some Reg.MRCMD, d.phase⟩) readHeader d := by
  refine keeps_setReg (keeps_getData rfl (by decide) fun rxStatus => ?_)
  refine keeps_getData rfl (by decide) fun rxLength => ?_
  exact ⟨trivial, fun r r' hr => by rw [show r = r' from hr], fun granted => rfl⟩

theorem resetIfTooBig_idle (hidle : d.Idle) (rxLength : U16) :
    Obeys discipline (fun _ d => d.Idle) (resetIfTooBig rxLength) d := by
  rw [resetIfTooBig]
  split_ifs
  · rw [← bind_pure (dm9000WriteReg Reg.NCR ncrRst)]
    exact idle_writeReg hidle (by decide) fun d hd => hd
  · exact hidle

theorem pbufFree_idle (hidle : d.Idle) (p : Option RxPbuf) :
    Obeys discipline (fun _ d => d.Idle) (pbufFree p) d := by
  cases p with
  | none => exact hidle
  | some p => exact ⟨trivial, fun _ _ _ => rfl, fun _ => hidle⟩

theorem receive_idle (hidle : d.Idle) (fuel : ℕ) :
    Obeys discipline (fun _ d => d.Idle) (dm9000ReceivePacket fuel) d := by
  induction fuel generalizing d with
  | zero => trivial
  | succ fuel ih =>
    refine keeps_readReg (by decide) fun _ => keeps_getData rfl (by decide) fun word => ?_
    dsimp only
    split_ifs
    · exact idle_writeReg hidle (by decide) fun d hd =>
        idle_writeReg hd (by decide) fun d hd => hd
    · refine obeys_bind (obeys_mono (readHeader_keeps _) fun header d' hd' => ?_)
      obtain ⟨rxStatus, rxLength, granted⟩ := header
      rw [hd']
      refine obeys_bind (obeys_mono (fillPbuf_keeps rfl (by decide) fuel rxLength granted)
        fun p d' hd' => ?_)
      rw [hd']
      have hd : Discipline.Idle ⟨some Reg.MRCMD, d.phase⟩ := hidle
      split_ifs
      · refine obeys_bind (obeys_mono (resetIfTooBig_idle hd rxLength) fun _ d hd => ?_)
        exact obeys_bind (obeys_mono (pbufFree_idle hd p) fun _ d hd => ih hd)
      · exact hidle
    · exact idle_writeReg hidle (by decide) fun d hd =>
        idle_writeReg hd (by decide) fun d hd => hd

end

/-! ## Sending -/

theorem keeps_performAll {op : Access} {ops : List Access} {d : Discipline}
    {post : Unit → Discipline → Prop} (hmay : d.allowed op)
    (h : ∀ r, Obeys discipline post (performAll ops) (d.next op r)) :
    Obeys discipline post (performAll (op :: ops)) d :=
  ⟨hmay, fun _ _ _ => rfl, h⟩

theorem mayWrite_plain {reg : U16} {phase : Phase} {data : U16}
    (hreg : reg ≠ Reg.IMR ∧ reg ≠ Reg.TCR ∧ reg ≠ Reg.ISR) :
    Discipline.MayWrite ⟨some reg, phase⟩ data :=
  ⟨by simp, fun h => absurd (Option.some.inj h) hreg.1, fun h => absurd (Option.some.inj h) hreg.2.1,
    fun h => absurd (Option.some.inj h) hreg.2.2⟩

theorem write_plain_phase {reg : U16} {phase : Phase} {data : U16}
    (hreg : reg ≠ Reg.IMR ∧ reg ≠ Reg.TCR ∧ reg ≠ Reg.ISR) :
    Discipline.write ⟨some reg, phase⟩ data = phase := by
  rw [Discipline.write, if_neg fun h => hreg.1 (Option.some.inj h),
    if_neg fun h => hreg.2.1 (Option.some.inj h.1), if_neg fun h => hreg.2.2 (Option.some.inj h.1)]

theorem request_waits (p : PbufChain) {d : Discipline} (hidle : d.Idle) :
    Obeys discipline (fun _ d => d.phase = .waiting) (performAll (request p)) d := by
  have hselect : Obeys discipline (fun _ d => d = ⟨some Reg.MWCMD, .masked⟩)
      (performAll selectTx) d := by
    refine keeps_performAll trivial fun _ => keeps_performAll ?_ fun _ =>
      keeps_performAll trivial fun _ => rfl
    exact ⟨by simp [Discipline.next], fun _ => hidle, fun h => absurd (Option.some.inj h) (by decide),
      fun h => absurd (Option.some.inj h) (by decide)⟩
  have hplain (reg : U16) (h : reg ≠ Reg.IMR ∧ reg ≠ Reg.TCR ∧ reg ≠ Reg.ISR) (data : U16) :
      Discipline.allowed ⟨some reg, .masked⟩ (.putData data) ∧ ∀ r,
        Discipline.next ⟨some reg, .masked⟩ (.putData data) r = ⟨some reg, .masked⟩ :=
    ⟨mayWrite_plain h, fun _ => by rw [Discipline.next, write_plain_phase h]⟩
  have hdata : Obeys discipline (fun _ d => d = ⟨some Reg.MWCMD, .masked⟩)
      (performAll (p.words.map .putData)) ⟨some Reg.MWCMD, .masked⟩ := by
    refine obeys_performAll (I := fun d : Discipline => d = ⟨some Reg.MWCMD, .masked⟩)
      (fun op hop d hd => ?_) rfl
    obtain ⟨word, -, rfl⟩ := List.mem_map.mp hop
    rw [hd]
    exact hplain Reg.MWCMD (by decide) word
  have hlength : Obeys discipline (fun _ d => d.phase = .masked) (performAll (setLength p))
      ⟨some Reg.MWCMD, .masked⟩ := by
    refine keeps_performAll trivial fun _ => keeps_performAll (hplain Reg.TXPLL (by decide) _).1
      fun r => ?_
    rw [Discipline.next, (hplain Reg.TXPLL (by decide) _).2]
    refine keeps_performAll trivial fun _ => keeps_performAll (hplain Reg.TXPLH (by decide) _).1
      fun r => ?_
    rw [Discipline.next, (hplain Reg.TXPLH (by decide) _).2]
    rfl
  rw [request, performAll_append, performAll_append, performAll_append]
  refine obeys_bind (obeys_bind (obeys_mono hselect fun _ d hd => ?_))
  rw [hd]
  refine obeys_bind (obeys_mono hdata fun _ d hd => ?_)
  rw [hd]
  refine obeys_mono hlength fun _ d hd => ?_
  refine keeps_performAll trivial fun _ => keeps_performAll ?_ fun _ => ?_
  · exact ⟨by simp [Discipline.next], fun h => absurd (Option.some.inj h) (by decide), fun _ _ => hd,
      fun h => absurd (Option.some.inj h) (by decide)⟩
  · change Discipline.write ⟨some Reg.TCR, d.phase⟩ 0x01 = .waiting
    simp [Discipline.write]

theorem keeps_getIsr {α : Type} {post : α → Discipline → Prop} {f : U16 → Driver α} {phase : Phase}
    (halike : ∀ word word' : U16, word &&& 0x02 = word' &&& 0x02 → f word = f word')
    (h : ∀ word, Obeys discipline post (f word)
      ⟨some Reg.ISR, Discipline.read ⟨some Reg.ISR, phase⟩ word⟩) :
    Obeys discipline post (getData >>= f) ⟨some Reg.ISR, phase⟩ := by
  refine ⟨Option.some_ne_none _, fun word word' hr => halike word word' ?_, h⟩
  exact (alikeWords_isr (d := ⟨some Reg.ISR, phase⟩) rfl).mp hr

theorem waitSent_seen (fuel : ℕ) {d : Discipline} (h : d.phase = .waiting) :
    Obeys discipline (fun _ d => d.phase = .seen) (waitSent fuel) d := by
  induction fuel generalizing d with
  | zero => trivial
  | succ fuel ih =>
    rw [waitSent_succ]
    refine keeps_setReg (keeps_getIsr (fun word word' hword => by rw [hword]) fun word => ?_)
    split_ifs with hclear
    · refine ih ?_
      rw [← h]
      exact if_neg fun hs => hs.2.2 hclear
    · exact if_pos ⟨rfl, h, hclear⟩

theorem finish_idle (imr : U8) {d : Discipline} (h : d.phase = .seen) :
    Obeys discipline (fun _ d => d.Idle) (performAll (finish imr)) d := by
  have hisr : Discipline.write ⟨some Reg.ISR, d.phase⟩ 0x02 = .masked := by
    simp [Discipline.write, h]
  have hmay : Discipline.MayWrite ⟨some Reg.ISR, d.phase⟩ 0x02 :=
    ⟨Option.some_ne_none _, fun h => absurd (Option.some.inj h) (by decide),
      fun h => absurd (Option.some.inj h) (by decide), fun _ => ⟨by simp [h], fun _ => rfl⟩⟩
  refine keeps_performAll trivial fun _ => keeps_performAll hmay fun _ => ?_
  change Obeys discipline _ _ ⟨some Reg.ISR, Discipline.write ⟨some Reg.ISR, d.phase⟩ 0x02⟩
  rw [hisr]
  -- the last write asks for the interrupts again
  refine keeps_performAll trivial fun _ => keeps_performAll ?_ fun _ => ?_
  · exact ⟨Option.some_ne_none _, fun _ => Or.inr rfl, fun h => absurd (Option.some.inj h) (by decide),
      fun h => absurd (Option.some.inj h) (by decide)⟩
  · change Discipline.Idle ⟨some Reg.IMR, Discipline.write ⟨some Reg.IMR, .masked⟩ (imr.setWidth 16)⟩
    rw [Discipline.write, if_pos rfl]
    split_ifs
    · exact Or.inr rfl
    · exact Or.inl rfl

theorem send_idle {d : Discipline} (hidle : d.Idle) (imr : U8) (fuel : ℕ) (p : PbufChain) :
    Obeys discipline (fun _ d => d.Idle) (dm9000SendPacket imr fuel p) d := by
  rw [dm9000SendPacket_eq]
  refine obeys_bind (obeys_mono (request_waits p hidle) fun _ d hd => ?_)
  refine obeys_bind (obeys_mono (waitSent_seen fuel hd) fun _ d hd => ?_)
  exact finish_idle imr hd

theorem transfers_idle {d : Discipline} (hidle : d.Idle) (fuel : ℕ) (ts : List Transfer) :
    Obeys discipline (fun _ d => d.Idle) (transfers fuel ts) d := by
  induction ts generalizing d with
  | nil => exact hidle
  | cons t ts ih =>
    cases t with
    | receive =>
      exact obeys_bind (obeys_bind (obeys_mono (receive_idle hidle fuel) fun _ d hd => ih hd))
    | send p => exact obeys_bind (obeys_mono (send_idle hidle imrAll fuel p) fun _ d hd => ih hd)

/-! ## The chip under the discipline -/

theorem or_and_mask {x y mask : U16} (h : y &&& mask = 0) : (x ||| y) &&& mask = x &&& mask := by
  rw [BitVec.and_or_distrib_right, h]
  exact BitVec.or_zero

theorem and_and_mask {x mask : U16} (h : x &&& mask = 0) (y : U16) : (x &&& y) &&& mask = 0 := by
  rw [BitVec.and_assoc, BitVec.and_comm y, ← BitVec.and_assoc, h]
  exact BitVec.zero_and

section
variable (n : Nic) (data isr : U16)

theorem write_index : (n.write data).board.index = n.board.index := by
  simp only [Nic.write, Nic.withIsr, Board.transmit, Board.write]
  split_ifs <;> rfl

theorem write_busy :
    (n.write data).busy = (n.busy || decide (n.board.index = Reg.TCR ∧ data &&& 0x01 ≠ 0)) := by
  rw [Nic.write]
  split_ifs with h
  · rw [decide_eq_true h, Bool.or_true]
    rfl
  · rw [decide_eq_false h, Bool.or_false]

theorem write_isr :
    (n.write data).isr = if n.board.index = Reg.ISR then n.isr &&& ~~~data else n.isr := by
  rw [Nic.write]
  split_ifs with htcr hisr hisr
  · exact absurd (htcr.1.symm.trans hisr) (by decide)
  · exact withIsr_isr ..
  · simp [Nic.isr, Board.write, hisr]
  · rw [Nic.isr, Board.write, if_neg hisr, if_neg htcr]
    split_ifs
    · rfl
    · exact Function.update_of_ne (Ne.symm hisr) ..

theorem write_imr : (n.write data).board.regs Reg.IMR =
    if n.board.index = Reg.IMR then data else n.board.regs Reg.IMR := by
  rw [Nic.write]
  split_ifs with htcr himr himr
  · exact absurd (htcr.1.symm.trans himr) (by decide)
  · rw [withIsr_imr]
    simp [Board.transmit]
  · simp [Board.write, himr]
  · rw [Board.write, if_neg htcr]
    split_ifs
    · rfl
    · exact withIsr_imr n (n.isr &&& ~~~data)
    · exact Function.update_of_ne (Ne.symm himr) ..

theorem write_withIsr : (n.withIsr isr).write data =
    (n.write data).withIsr (if n.board.index = Reg.ISR then isr &&& ~~~data else isr) := by
  have hindex : (n.withIsr isr).board.index = n.board.index := rfl
  rw [Nic.write, Nic.write, hindex]
  split_ifs with htcr hisr hisr
  · exact absurd (htcr.1.symm.trans hisr) (by decide)
  · have hcomm (v : U16) := Function.update_comm (show Reg.ISR ≠ Reg.TCR by decide) isr v n.board.regs
    have hlow : Reg.TXPLL ≠ Reg.ISR := by decide
    have hhigh : Reg.TXPLH ≠ Reg.ISR := by decide
    simp only [Nic.withIsr, Board.transmit, Function.update_idem, Function.update_self,
      Function.update_of_ne hlow, Function.update_of_ne hhigh, hcomm, Nic.isr]
  · simp [Nic.withIsr, Board.write, hisr]
  · by_cases hmwcmd : n.board.index = Reg.MWCMD
    · have hwrite (b : Board) (hb : b.index = n.board.index) :
          b.write data = { b with tx := b.tx ++ [data] } := by
        rw [Board.write, if_pos (hb.trans hmwcmd)]
      rw [hwrite n.board rfl, hwrite (n.withIsr isr).board rfl]
      rfl
    · have hwrite (b : Board) (hb : b.index = n.board.index) :
          b.write data = { b with regs := Function.update b.regs n.board.index data } := by
        rw [Board.write, hb, if_neg hmwcmd, if_neg hisr, if_neg htcr]
      rw [hwrite n.board rfl, hwrite (n.withIsr isr).board rfl]
      simp only [Nic.withIsr, Function.update_comm hisr]

end

/-- The chip of the run without the handler: only `ISR` may differ, and not in bit 1. -/
structure Nic.Agree (n n' : Nic) : Prop where
  rest : n' = n.withIsr n'.isr
  pts : n'.isr &&& 0x02 = n.isr &&& 0x02

structure Linked (n : Nic) (d : Discipline) : Prop where
  sel : ∀ reg, d.sel = some reg → n.board.index = reg
  par : n.isr &&& 0x80 = 0
  pending : n.busy = true → n.isr &&& 0x02 = 0
  masked : d.phase ≠ .opened → n.board.regs Reg.IMR = imrPar.setWidth 16
  idle : d.Idle → n.busy = false ∧ n.isr &&& 0x02 = 0
  seen : d.phase = .seen → n.busy = false

section
variable {n n' : Nic} {d : Discipline}

/-- The handler runs only while no transmission is under way. -/
theorem Linked.opened (h : Linked n d) (hlow : n.IntLow) : d.phase = .opened := by
  by_contra hp
  have hzero : n.isr &&& n.board.regs Reg.IMR = 0 := (congrArg _ (h.masked hp)).trans h.par
  exact hlow hzero

theorem irq_linked (h : Linked n d) (ha : n.Agree n') :
    Linked (if n.IntLow then n.withIsr 0 else n) d ∧
      (if n.IntLow then n.withIsr 0 else n).Agree n' ∧
      (if n.IntLow then n.withIsr 0 else n).isr &&& 0x02 = n.isr &&& 0x02 := by
  split_ifs with hlow
  · obtain ⟨hbusy, hpts⟩ := h.idle (Or.inl (h.opened hlow))
    have hzero (mask : U16) : (n.withIsr 0).isr &&& mask = 0 := by
      rw [withIsr_isr]
      exact BitVec.zero_and
    refine ⟨⟨h.sel, hzero _, fun _ => hzero _, fun hp => absurd (h.opened hlow) hp,
      fun _ => ⟨hbusy, hzero _⟩, fun _ => hbusy⟩, ⟨?_, ?_⟩, ?_⟩
    · rw [withIsr_withIsr]
      exact ha.rest
    · rw [ha.pts, hpts, hzero]
    · rw [hpts, hzero]
  · exact ⟨h, ha, rfl⟩

theorem Linked.withIsr (h : Linked n d) {isr : U16} (hpar : isr &&& 0x80 = 0)
    (hpts : isr &&& 0x02 = n.isr &&& 0x02) : Linked (n.withIsr isr) d := by
  refine ⟨h.sel, ?_, fun hb => ?_, fun hp => ?_, fun hi => ⟨(h.idle hi).1, ?_⟩, h.seen⟩
  · rw [withIsr_isr, hpar]
  · rw [withIsr_isr, hpts, h.pending hb]
  · rw [withIsr_imr, h.masked hp]
  · rw [withIsr_isr, hpts, (h.idle hi).2]

theorem chip_linked (h : Linked n d) (ha : n.Agree n') (e : ChipEvent) :
    Linked (e.apply n) d ∧ (e.apply n).Agree (e.apply n') := by
  cases e with
  | raise bits =>
    have hbits (mask : U16) (hm : (0x3D : U16) &&& mask = 0) : (bits &&& 0x3D) &&& mask = 0 := by
      rw [BitVec.and_assoc, hm]
      exact BitVec.and_zero
    have hpts (isr : U16) : (isr ||| bits &&& 0x3D) &&& 0x02 = isr &&& 0x02 :=
      or_and_mask (hbits 0x02 (by decide))
    refine ⟨h.withIsr ?_ (hpts _), ?_, ?_⟩
    · rw [or_and_mask (hbits 0x80 (by decide)), h.par]
    · simp only [ChipEvent.apply, withIsr_isr, withIsr_withIsr]
      rw [ha.rest, withIsr_withIsr, withIsr_isr]
    · simp only [ChipEvent.apply, withIsr_isr, hpts, ha.pts]
  | complete =>
    have hbusy' : n'.busy = n.busy := by rw [ha.rest]; rfl
    simp only [ChipEvent.apply, hbusy']
    split_ifs with hbusy
    · refine ⟨⟨h.sel, ?_, fun hb => absurd hb Bool.false_ne_true, fun hp => ?_, fun hi => ?_,
        fun _ => rfl⟩, ?_, ?_⟩
      · rw [withIsr_isr, or_and_mask (by decide), h.par]
      · rw [withIsr_imr]
        exact h.masked hp
      · exact absurd ((h.idle hi).1.symm.trans hbusy) Bool.false_ne_true
      · have hrest : ({ n' with busy := false } : Nic) =
            Nic.withIsr { n with busy := false } n'.isr :=
          congrArg (fun m : Nic => { m with busy := false }) ha.rest
        rw [withIsr_isr, withIsr_withIsr, hrest, withIsr_withIsr]
      · rw [withIsr_isr, withIsr_isr, BitVec.and_or_distrib_right, BitVec.and_or_distrib_right, ha.pts]
    · exact ⟨h, ha⟩
  | arrive rxReady rxWord =>
    refine ⟨⟨h.sel, h.par, h.pending, h.masked, h.idle, h.seen⟩, ?_, ha.pts⟩
    rw [ha.rest]
    rfl

theorem isr_write_mask {mask : U16} (hm : n.isr &&& mask = 0) (data : U16) :
    (n.write data).isr &&& mask = 0 := by
  rw [write_isr]
  split_ifs
  · exact and_and_mask hm _
  · exact hm

section
variable (h : Linked n d) {data : U16} (hmay : d.MayWrite data)
include h hmay

theorem Linked.index_iff (r : U16) : n.board.index = r ↔ d.sel = some r := by
  obtain ⟨reg, hreg⟩ := Option.ne_none_iff_exists'.mp hmay.selected
  rw [h.sel reg hreg, hreg, Option.some.injEq]

theorem Linked.busy_write (hreq : ¬ (d.sel = some Reg.TCR ∧ data &&& 0x01 ≠ 0)) :
    (n.write data).busy = n.busy := by
  rw [write_busy, decide_eq_false fun hr => hreq ⟨(h.index_iff hmay _).mp hr.1, hr.2⟩, Bool.or_false]

theorem Linked.imr_write (hr : ¬ d.sel = some Reg.IMR) (hp : d.phase ≠ .opened) :
    (n.write data).board.regs Reg.IMR = imrPar.setWidth 16 := by
  rw [write_imr, if_neg fun hi => hr ((h.index_iff hmay _).mp hi), h.masked hp]

/-- `PTS` is cleared when a request is written, and not set by a write. -/
theorem Linked.pending_write (hb : (n.write data).busy = true) : (n.write data).isr &&& 0x02 = 0 := by
  by_cases hreq : d.sel = some Reg.TCR ∧ data &&& 0x01 ≠ 0
  · exact isr_write_mask (h.idle (Or.inr (hmay.tcr hreq.1 hreq.2))).2 data
  · rw [h.busy_write hmay hreq] at hb
    exact isr_write_mask (h.pending hb) data

end

theorem putData_linked (h : Linked n d) {data : U16} (hmay : d.MayWrite data) :
    Linked (n.write data) { d with phase := d.write data } := by
  have hsel : ∀ r, d.sel = some r → (n.write data).board.index = r := fun r hr => by
    rw [write_index, h.sel r hr]
  have hindex := h.index_iff hmay
  have hbusy := h.busy_write hmay
  have himr' := h.imr_write hmay
  have hpending := h.pending_write hmay
  have hpar := isr_write_mask h.par data
  rw [Discipline.write]
  split_ifs with himr hmask htcr hisr
  -- the interrupt mask, which may change only while no transmission is under way
  · have hother : ¬ (d.sel = some Reg.TCR ∧ data &&& 0x01 ≠ 0) := by rw [himr]; simp
    obtain ⟨hb, hp⟩ := h.idle (hmay.imr himr)
    refine ⟨hsel, hpar, hpending, fun _ => ?_,
      fun _ => ⟨(hbusy hother).trans hb, isr_write_mask hp data⟩,
      fun hs => absurd hs (show Phase.masked ≠ .seen by decide)⟩
    rw [write_imr, if_pos ((hindex _).mpr himr), hmask]
  · have hother : ¬ (d.sel = some Reg.TCR ∧ data &&& 0x01 ≠ 0) := by rw [himr]; simp
    obtain ⟨hb, hp⟩ := h.idle (hmay.imr himr)
    exact ⟨hsel, hpar, hpending, fun hs => absurd rfl hs,
      fun _ => ⟨(hbusy hother).trans hb, isr_write_mask hp data⟩,
      fun hs => absurd hs (show Phase.opened ≠ .seen by decide)⟩
  -- the request
  · have hphase := hmay.tcr htcr.1 htcr.2
    exact ⟨hsel, hpar, hpending, fun _ => himr' himr (by rw [hphase]; decide),
      fun hi => absurd hi (by simp [Discipline.Idle]),
      fun hs => absurd hs (show Phase.waiting ≠ .seen by decide)⟩
  -- the end of the transmission, which has been seen, is cleared
  · have hdata := (hmay.isr hisr.1).2 hisr.2
    refine ⟨hsel, hpar, hpending, fun _ => himr' himr (by rw [hisr.2]; decide),
      fun _ => ⟨(hbusy htcr).trans (h.seen hisr.2), ?_⟩,
      fun hs => absurd hs (show Phase.masked ≠ .seen by decide)⟩
    rw [write_isr, if_pos ((hindex _).mpr hisr.1), hdata, BitVec.and_assoc]
    exact BitVec.and_zero
  · exact ⟨hsel, hpar, hpending, himr' himr,
      fun hi => ⟨(hbusy htcr).trans (h.idle hi).1, isr_write_mask (h.idle hi).2 data⟩,
      fun hs => (hbusy htcr).trans (h.seen hs)⟩

theorem read_of_isr {b : Board} (h : b.index = Reg.ISR) : b.read = b.regs Reg.ISR := by
  simp [Board.read, h]

theorem afterRead_eq (b : Board) : b.afterRead =
    { b with rxPtr := if b.index = Reg.MRCMD then b.rxPtr + 1 else b.rxPtr } := by
  rw [Board.afterRead]
  split_ifs <;> rfl

theorem afterRead_kept (b : Board) : b.afterRead.index = b.index ∧ b.afterRead.regs = b.regs := by
  rw [afterRead_eq]
  exact ⟨rfl, rfl⟩

theorem getData_linked (h : Linked n d) :
    Linked (nic .getData n).2 (d.next .getData n.board.read) := by
  obtain ⟨hindex, hregs⟩ := afterRead_kept n.board
  have hisr : (nic .getData n).2.isr = n.isr := congrFun hregs Reg.ISR
  have hkept : Linked (nic .getData n).2 d := by
    refine ⟨fun reg hreg => hindex.trans (h.sel reg hreg), hisr ▸ h.par, hisr ▸ h.pending, fun hp => ?_,
      hisr ▸ h.idle, h.seen⟩
    exact (congrFun hregs Reg.IMR).trans (h.masked hp)
  change Linked _ { d with phase := d.read n.board.read }
  rw [Discipline.read]
  split_ifs with hseen
  -- bit 1 shows only once the transmission is over
  · obtain ⟨hsel, hwaiting, hbit⟩ := hseen
    rw [read_of_isr (h.sel _ hsel)] at hbit
    have hbusy : n.busy = false := by
      by_contra hb
      exact hbit (h.pending (Bool.eq_true_of_not_eq_false hb))
    exact ⟨hkept.sel, hkept.par, hkept.pending, fun _ => hkept.masked (by rw [hwaiting]; decide),
      fun hi => absurd hi (by simp [Discipline.Idle]), fun _ => hbusy⟩
  · exact hkept

theorem agree_withIsr {isr : U16} (h : isr &&& 0x02 = n.isr &&& 0x02) : n.Agree (n.withIsr isr) :=
  ⟨by rw [withIsr_isr], by rw [withIsr_isr, h]⟩

theorem read_withIsr {isr : U16} (h : n.board.index ≠ Reg.ISR) :
    (n.withIsr isr).board.read = n.board.read := by
  simp only [Board.read, Nic.withIsr, Function.update_of_ne h]

theorem and_right_comm (x y z : U16) : (x &&& y) &&& z = (x &&& z) &&& y := by
  rw [BitVec.and_assoc, BitVec.and_comm y, ← BitVec.and_assoc]

theorem access_linked (h : Linked n d) (ha : n.Agree n') {op : Access} (hop : d.allowed op) :
    Linked (nic op n).2 (d.next op (nic op n).1) ∧ (nic op n).2.Agree (nic op n').2 ∧
      d.alike op (nic op n).1 (nic op n').1 ∧
      ((nic op n).1 = (nic op n').1 ∨ op = .getData ∧ n.board.index = Reg.ISR) := by
  obtain ⟨isr, rfl⟩ : ∃ isr, n' = n.withIsr isr := ⟨_, ha.rest⟩
  have hpts : isr &&& 0x02 = n.isr &&& 0x02 := (withIsr_isr n isr) ▸ ha.pts
  cases op with
  | setReg reg =>
    refine ⟨⟨fun r hr => Option.some.inj hr, h.par, h.pending, h.masked, h.idle, h.seen⟩, ?_, rfl,
      Or.inl rfl⟩
    exact agree_withIsr hpts
  | getReg => exact hop.elim
  | putData data =>
    refine ⟨putData_linked h hop, ?_, rfl, Or.inl rfl⟩
    change (n.write data).Agree ((n.withIsr isr).write data)
    rw [write_withIsr]
    refine agree_withIsr ?_
    rw [write_isr]
    split_ifs
    · rw [and_right_comm, hpts, and_right_comm]
    · exact hpts
  | getData =>
    have hafter : (nic .getData (n.withIsr isr)).2 = (nic .getData n).2.withIsr isr := by
      simp only [nic, board, afterRead_eq]
      rfl
    have hisr : (nic .getData n).2.isr = n.isr := congrFun (afterRead_kept n.board).2 Reg.ISR
    refine ⟨getData_linked h, ?_, ?_⟩
    · rw [hafter]
      exact agree_withIsr (hpts.trans (congrArg (· &&& 0x02) hisr.symm))
    · by_cases hindex : n.board.index = Reg.ISR
      · refine ⟨?_, Or.inr ⟨rfl, hindex⟩⟩
        obtain ⟨reg, hreg⟩ := Option.ne_none_iff_exists'.mp (show d.sel ≠ none from hop)
        have hsel : d.sel = some Reg.ISR := by rw [hreg, ← h.sel reg hreg, hindex]
        have hread : (n.withIsr isr).board.read = isr :=
          (read_of_isr (b := (n.withIsr isr).board) hindex).trans (withIsr_isr n isr)
        change d.AlikeWords n.board.read (n.withIsr isr).board.read
        rw [hread, read_of_isr hindex, alikeWords_isr hsel, hpts]
      · have hread : n.board.read = (n.withIsr isr).board.read := (read_withIsr hindex).symm
        refine ⟨?_, Or.inl hread⟩
        have hsel : ¬ d.sel = some Reg.ISR := fun hs => hindex (h.sel _ hs)
        exact (alikeWords_iff hsel).mpr hread
  | pbufAlloc len => exact ⟨⟨h.sel, h.par, h.pending, h.masked, h.idle, h.seen⟩, agree_withIsr hpts,
      rfl, Or.inl rfl⟩
  | pbufFree p => exact ⟨⟨h.sel, h.par, h.pending, h.masked, h.idle, h.seen⟩, agree_withIsr hpts,
      rfl, Or.inl rfl⟩

end

/-! ## The two runs -/

namespace Done

def IsData (x : Done) : Prop := x.op = .getData ∨ ∃ data, x.op = .putData data

def IsRequest : Done → Prop
  | ⟨.putData data, _, reached, _⟩ => reached = Reg.TCR ∧ data &&& 0x01 ≠ 0
  | _ => False

def SeesEnd : Done → Prop
  | ⟨.getData, _, reached, word⟩ => reached = Reg.ISR ∧ BitVec.and word 0x02 ≠ 0
  | _ => False

def SameButIsr (x y : Done) : Prop :=
  x = y ∨ x.op = .getData ∧ y.op = .getData ∧ x.reached = Reg.ISR ∧ y.reached = Reg.ISR

end Done

/-- The log ends between a request and the poll that sees the end of its transmission. -/
def Awaiting : List Done → Prop
  | [] => False
  | x :: log => x.IsRequest ∨ ¬ x.SeesEnd ∧ Awaiting log

/-- `t` with the handler, `t'` without. -/
structure Undisturbed (fuel : ℕ) (t t' : Thread) : Prop where
  prog : t'.prog = t.prog
  reaches : ∀ x ∈ t.log, x.IsData → x.sel = some x.reached
  same : List.Forall₂ Done.SameButIsr t.log t'.log
  kept : Awaiting t.log → ∀ u, slot fuel t .irq = some u →
    u.nic.isr &&& 0x02 = t.nic.isr &&& 0x02

structure Simulates (t t' : Thread) (d : Discipline) : Prop where
  obeys : Obeys discipline (fun _ _ => True) t.prog d
  prog : t'.prog = t.prog
  sel : t.sel = d.sel
  sel' : t'.sel = d.sel
  linked : Linked t.nic d
  agree : t.nic.Agree t'.nic
  awaiting : Awaiting t.log → d.phase = .waiting
  reaches : ∀ x ∈ t.log, x.IsData → x.sel = some x.reached
  same : List.Forall₂ Done.SameButIsr t.log t'.log

theorem next_sel (d : Discipline) (op : Access) (r : Access.Reply op) :
    (d.next op r).sel = selects d.sel op := by
  cases op <;> rfl

theorem awaiting_next {n : Nic} {d : Discipline} (h : Linked n d) {op : Access}
    (hop : d.allowed op) {log : List Done} (hlog : Awaiting log → d.phase = .waiting)
    (hawait : Awaiting (⟨op, d.sel, n.board.index, (nic op n).1⟩ :: log)) :
    (d.next op (nic op n).1).phase = .waiting := by
  cases op with
  | setReg reg => exact hlog (hawait.elim (fun h => h.elim) And.right)
  | getReg => exact hop.elim
  | putData data =>
    obtain ⟨reg, hreg⟩ := Option.ne_none_iff_exists'.mp (show d.sel ≠ none from hop.selected)
    rw [h.sel reg hreg] at hawait
    change d.write data = .waiting
    rw [Discipline.write, hreg]
    rcases hawait with ⟨hreached, hbit⟩ | ⟨-, hrest⟩
    · rw [show reg = Reg.TCR from hreached, if_neg (by decide), if_pos ⟨rfl, hbit⟩]
    · have hwaiting := hlog hrest
      have himr : ¬ some reg = some Reg.IMR := fun hs => by
        have hidle := hop.imr (hreg.trans hs)
        simp [Discipline.Idle, hwaiting] at hidle
      rw [if_neg himr, hwaiting]
      split_ifs with hreq hisr
      · rfl
      · exact absurd hisr.2 (by decide)
      · rfl
  | getData =>
    rcases hawait with hreq | ⟨hnot, hrest⟩
    · exact hreq.elim
    · have hwaiting := hlog hrest
      exact (if_neg fun hs => hnot ⟨h.sel _ hs.1, hs.2.2⟩).trans hwaiting
  | pbufAlloc len => exact hlog (hawait.elim (fun h => h.elim) And.right)
  | pbufFree p => exact hlog (hawait.elim (fun h => h.elim) And.right)

theorem data_reaches {n : Nic} {d : Discipline} (h : Linked n d) {op : Access} (hop : d.allowed op)
    (hdata : op = .getData ∨ ∃ data, op = .putData data) : d.sel = some n.board.index := by
  have hsel : d.sel ≠ none := by
    rcases hdata with rfl | ⟨data, rfl⟩
    · exact hop
    · exact Discipline.MayWrite.selected hop
  obtain ⟨reg, hreg⟩ := Option.ne_none_iff_exists'.mp hsel
  rw [hreg, h.sel reg hreg]

theorem access_simulates {t t' : Thread} {d : Discipline} (h : Simulates t t' d) :
    ∃ d, Simulates t.access t'.access d := by
  obtain ⟨prog, n, sel, log⟩ := t
  obtain ⟨prog', n', sel', log'⟩ := t'
  obtain ⟨hobeys, rfl, rfl, rfl, hlinked, hagree, hawaiting, hreaches, hsame⟩ := h
  cases prog' with
  | ret a => exact ⟨d, hobeys, rfl, rfl, rfl, hlinked, hagree, hawaiting, hreaches, hsame⟩
  | spin => exact ⟨d, hobeys, rfl, rfl, rfl, hlinked, hagree, hawaiting, hreaches, hsame⟩
  | act op next =>
    obtain ⟨hallowed, halike, hnext⟩ := hobeys
    obtain ⟨hlinked', hagree', hreply, hword⟩ := access_linked hlinked hagree hallowed
    have hindex : n'.board.index = n.board.index := congrArg (fun n => n.board.index) hagree.rest
    refine ⟨d.next op (nic op n).1, hnext _, (halike _ _ hreply).symm, (next_sel ..).symm,
      (next_sel ..).symm, hlinked', hagree', awaiting_next hlinked hallowed hawaiting, ?_, ?_⟩
    · intro x hx hdata
      rcases List.mem_cons.mp hx with rfl | hx
      · exact data_reaches hlinked hallowed hdata
      · exact hreaches x hx hdata
    · refine List.Forall₂.cons ?_ hsame
      rcases hword with hword | ⟨rfl, hisr⟩
      · exact Or.inl (by rw [hindex, hword])
      · exact Or.inr ⟨rfl, rfl, hisr, hindex.trans hisr⟩

theorem slot_irq (fuel : ℕ) (t : Thread) : slot (fuel + 2) t .irq =
    some { t with nic := if t.nic.IntLow then t.nic.withIsr 0 else t.nic } := by
  rw [slot, exti_eq, Option.map_some]

/-- One slot; the run without the handler leaves its slots out. -/
theorem slot_simulates (fuel : ℕ) {t t' : Thread} {d : Discipline} (h : Simulates t t' d) (e : Slot) :
    ∃ u, slot (fuel + 2) t e = some u ∧
      (e.isIrq = true → ∃ d, Simulates u t' d) ∧
      (e.isIrq = false → ∃ u' d, slot (fuel + 2) t' e = some u' ∧ Simulates u u' d) := by
  cases e with
  | main =>
    obtain ⟨d', h'⟩ := access_simulates h
    exact ⟨_, rfl, fun hirq => absurd hirq (by decide), fun _ => ⟨_, d', rfl, h'⟩⟩
  | irq =>
    obtain ⟨hlinked, hagree, -⟩ := irq_linked h.linked h.agree
    refine ⟨_, slot_irq fuel t, fun _ => ⟨d, h.obeys, h.prog, h.sel, h.sel', hlinked, hagree,
      h.awaiting, h.reaches, h.same⟩, fun hirq => absurd hirq (by decide)⟩
  | chip e =>
    obtain ⟨hlinked, hagree⟩ := chip_linked h.linked h.agree e
    exact ⟨_, rfl, fun hirq => absurd hirq (by simp [Slot.isIrq]), fun _ => ⟨_, d, rfl, h.obeys,
      h.prog, h.sel, h.sel', hlinked, hagree, h.awaiting, h.reaches, h.same⟩⟩

theorem slots_simulate (fuel : ℕ) {t t' : Thread} {d : Discipline} (h : Simulates t t' d)
    (es : List Slot) : ∃ u u' d, exec (slot (fuel + 2)) t es = some u ∧
      exec (slot (fuel + 2)) t' (es.filter fun e => !e.isIrq) = some u' ∧ Simulates u u' d := by
  induction es generalizing t t' d with
  | nil => exact ⟨t, t', d, rfl, rfl, h⟩
  | cons e es ih =>
    obtain ⟨u, hu, hirq, hother⟩ := slot_simulates fuel h e
    have hexec : exec (slot (fuel + 2)) t (e :: es) = exec (slot (fuel + 2)) u es := by
      rw [exec, hu, Option.bind_some]
    cases he : e.isIrq with
    | true =>
      obtain ⟨d, h⟩ := hirq he
      rw [hexec, List.filter_cons_of_neg (by simp [he])]
      exact ih h
    | false =>
      obtain ⟨u', d, hu', h⟩ := hother he
      have hexec' : exec (slot (fuel + 2)) t' (e :: es.filter fun e => !e.isIrq) =
          exec (slot (fuel + 2)) u' (es.filter fun e => !e.isIrq) := by
        rw [exec, hu', Option.bind_some]
      rw [hexec, List.filter_cons_of_pos (by simp [he]), hexec']
      exact ih h

theorem Simulates.undisturbed {t t' : Thread} {d : Discipline} (h : Simulates t t' d) (fuel : ℕ) :
    Undisturbed (fuel + 2) t t' := by
  refine ⟨h.prog, h.reaches, h.same, fun _ u hu => ?_⟩
  rw [slot_irq] at hu
  obtain rfl := Option.some.inj hu
  exact (irq_linked h.linked h.agree).2.2

/-- The chip as `DM9000_Init` leaves it: `ISR` bit 1 clear, no transmission requested. Bit 7 of
`ISR` is no interrupt. -/
structure Nic.Ready (n : Nic) : Prop where
  isr : n.isr &&& 0x82 = 0
  idle : n.busy = false

theorem Nic.Ready.linked {n : Nic} (h : n.Ready) : Linked n ⟨none, .opened⟩ := by
  have hbits {mask : U16} (hm : (0x82 : U16) &&& mask = mask) : n.isr &&& mask = 0 := by
    rw [← hm, ← BitVec.and_assoc, h.isr]
    exact BitVec.zero_and
  exact ⟨fun reg hreg => by simp at hreg, hbits (by decide), fun _ => hbits (by decide),
    fun hp => absurd rfl hp, fun _ => ⟨h.idle, hbits (by decide)⟩, fun _ => h.idle⟩

/-- Every run with the handler, against the run with its slots left out. -/
theorem handler_undisturbing {n : Nic} (h : n.Ready) (fuel handlerFuel : ℕ) (ts : List Transfer)
    (es : List Slot) : ∃ t t', exec (slot (handlerFuel + 2)) (Thread.start fuel ts n) es = some t ∧
      exec (slot (handlerFuel + 2)) (Thread.start fuel ts n) (es.filter fun e => !e.isIrq) =
        some t' ∧ Undisturbed (handlerFuel + 2) t t' := by
  have hobeys : Obeys discipline (fun _ _ => True) (transfers fuel ts) ⟨none, .opened⟩ :=
    obeys_mono (transfers_idle (Or.inl rfl) fuel ts) fun _ _ _ => trivial
  have hself : n.Agree n := ⟨(withIsr_self n).symm, rfl⟩
  have hsim : Simulates (Thread.start fuel ts n) (Thread.start fuel ts n) ⟨none, .opened⟩ :=
    ⟨hobeys, rfl, rfl, rfl, h.linked, hself, fun h => h.elim, fun x hx => by simp [Thread.start] at hx,
      List.Forall₂.nil⟩
  obtain ⟨t, t', d, hrun, hrun', hsim⟩ := slots_simulate handlerFuel hsim es
  exact ⟨t, t', hrun, hrun', hsim.undisturbed handlerFuel⟩

def initialNic : Nic where
  board := {
    index := 0
    regs := fun reg => if reg = Reg.IMR then 0x81 else 0
    tx := []
    sent := []
    rxReady := fun _ => 0
    rxWord := fun _ => 0
    rxPtr := 0
    granted := fun _ => true
    allocs := 0
    freed := [] }
  busy := false

theorem handler_undisturbing_sample : ∃ t t',
    exec (slot 2) (Thread.start 1 [.receive, .send sampleChain] initialNic)
      [.main, .chip (.raise 0x01), .irq, .main] = some t ∧
    exec (slot 2) (Thread.start 1 [.receive, .send sampleChain] initialNic)
      [.main, .chip (.raise 0x01), .main] = some t' ∧ Undisturbed 2 t t' :=
  handler_undisturbing ⟨by decide, rfl⟩ 1 0 [.receive, .send sampleChain]
    [.main, .chip (.raise 0x01), .irq, .main]

end EnvirMonitor.Ethernet
