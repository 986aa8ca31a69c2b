import EnvirMonitor.Machine.AccessProgram
import EnvirMonitor.Machine.LittleEndian

/-! The DM9000 driver of `DM9000.c`: programs over the two bus addresses `REG` and `DATA` of
the chip and over lwIP's pbuf pool. `printf` and `Delay_ms` calls are left out. -/

namespace EnvirMonitor.Ethernet
open Machine

inductive Access
  | setReg (reg : U16)
  | getReg
  | putData (data : U16)
  | getData
  | pbufAlloc (len : U16)
  | pbufFree (p : ℕ)
  deriving DecidableEq

def Access.Reply : Access → Type
  | getReg => U16
  | getData => U16
  | pbufAlloc _ => Option ℕ
  | _ => Unit

abbrev Driver := Prog Access Access.Reply

namespace Reg

abbrev NCR : U16 := 0x00
abbrev TCR : U16 := 0x02
abbrev RCR : U16 := 0x05
abbrev MRCMDX : U16 := 0xF0
abbrev MRCMD : U16 := 0xF2
abbrev MWCMD : U16 := 0xF8
abbrev TXPLL : U16 := 0xFC
abbrev TXPLH : U16 := 0xFD
abbrev ISR : U16 := 0xFE
abbrev IMR : U16 := 0xFF

end Reg

def ncrRst : U16 := 0x01
def imrPar : U8 := 0x80
def imrPri : U8 := 0x01
def isrPts : U16 := 0x02

/-- The only value that `DM9000_Init` and `DM9000_Receive_Packet` give `DM9000Cfg.imr_all`. -/
def imrAll : U8 := imrPar ||| imrPri

def dm9000PktMax : ℕ := 1536

def setReg (reg : U16) : Driver Unit := Prog.perform (Access.setReg reg)

def putData (data : U16) : Driver Unit := Prog.perform (Access.putData data)

def getData : Driver U16 := Prog.perform Access.getData

section
variable {σ α : Type} (dev : Device Access Access.Reply σ) (s : σ)

@[simp] theorem run_setReg (reg : U16) (f : Unit → Driver α) :
    (setReg reg >>= f).run dev s = (f ()).run dev (dev (.setReg reg) s).2 := rfl

@[simp] theorem run_putData (data : U16) (f : Unit → Driver α) :
    (putData data >>= f).run dev s = (f ()).run dev (dev (.putData data) s).2 := rfl

@[simp] theorem run_getData (f : U16 → Driver α) :
    (getData >>= f).run dev s = (f (dev .getData s).1).run dev (dev .getData s).2 := rfl

end

def dm9000ReadReg (reg : U16) : Driver U16 := do
  setReg reg
  getData

def dm9000WriteReg (reg data : U16) : Driver Unit := do
  setReg reg
  putData data

/-! ## Sending -/

/-- A pbuf chain, whose head's `tot_len` is the sum of the `len` fields. -/
structure PbufChain where
  segments : List (List U8)
  totLen : U16
  totLen_eq : totLen.toNat = (segments.map List.length).sum

/-- The inner loop over one payload. The buffered byte is `word[0]` when `i` is 1. -/
def sendSegment : List U8 → Option U8 → Driver (Option U8)
  | [], word => pure word
  | byte :: payload, none => sendSegment payload (some byte)
  | byte :: payload, some first => do
    putData (ofBytes first byte)
    sendSegment payload none

def sendSegments : List (List U8) → Option U8 → Driver (Option U8)
  | [], word => pure word
  | payload :: next, word => do
    let word ← sendSegment payload word
    sendSegments next word

def sendLast : Option U8 → Driver Unit
  | none => pure ()
  | some first => putData (first.setWidth 16)

def waitSent : ℕ → Driver Unit
  | 0 => .spin
  | fuel + 1 => do
    let status ← dm9000ReadReg Reg.ISR
    if status &&& 0x02 = 0 then waitSent fuel

/-- `imr` is the value of `DM9000Cfg.imr_all`. -/
def dm9000SendPacket (imr : U8) (fuel : ℕ) (p : PbufChain) : Driver Unit := do
  dm9000WriteReg Reg.IMR (imrPar.setWidth 16)
  setReg Reg.MWCMD
  let word ← sendSegments p.segments none
  sendLast word
  dm9000WriteReg Reg.TXPLL (p.totLen &&& 0xFF)
  dm9000WriteReg Reg.TXPLH (p.totLen >>> 8 &&& 0xFF)
  dm9000WriteReg Reg.TCR 0x01
  waitSent fuel
  dm9000WriteReg Reg.ISR 0x02
  dm9000WriteReg Reg.IMR (imr.setWidth 16)

/-! ## Receiving -/

def pbufPoolBufsize : ℕ := 1500

/-- The loop of `pbuf_alloc` that chains further pool buffers while `rem_len > 0`. -/
def poolTail : ℕ → ℕ → List ℕ
  | 0, _ => []
  | fuel + 1, remLen =>
    if 0 < remLen then
      min remLen pbufPoolBufsize :: poolTail fuel (remLen - min remLen pbufPoolBufsize)
    else []

/-- The `len` fields of the chain that `pbuf_alloc(PBUF_RAW, length, PBUF_POOL)` returns. -/
def poolSegments (length : ℕ) : List ℕ :=
  min length pbufPoolBufsize :: poolTail length (length - min length pbufPoolBufsize)

/-- One pool buffer after the copy loop: the 16-bit words stored into its payload. -/
structure RxSegment where
  len : ℕ
  words : List U16
  words_length : words.length = (len + 1) / 2

structure RxPbuf where
  id : ℕ
  segments : List RxSegment

/-- `while(len>0) { *data = DM9000->DATA; len-=2; data++; }` -/
def copyWords : (len : ℕ) → Driver { words : List U16 // words.length = (len + 1) / 2 }
  | 0 => pure ⟨[], rfl⟩
  | 1 => do
    let word ← getData
    pure ⟨[word], rfl⟩
  | len + 2 => do
    let word ← getData
    let words ← copyWords len
    pure ⟨word :: words.1, by rw [List.length_cons, words.2]; omega⟩

def copySegments : List ℕ → Driver (List RxSegment)
  | [] => pure []
  | len :: lens => do
    let words ← copyWords len
    let segments ← copySegments lens
    pure (⟨len, words.1, words.2⟩ :: segments)

/-- `while(len) { *data = DM9000->DATA; len-=2; }`, where `len` is an `int`. -/
def drain : ℕ → ℤ → Driver Unit
  | 0, _ => .spin
  | fuel + 1, len =>
    if len = 0 then pure ()
    else do
      let _ ← getData
      drain fuel (len - 2)

def pbufAlloc (len : U16) : Driver (Option ℕ) := Prog.perform (Access.pbufAlloc len)

def fillPbuf (fuel : ℕ) (rxLength : U16) : Option ℕ → Driver (Option RxPbuf)
  | some id => do
    let segments ← copySegments (poolSegments rxLength.toNat)
    pure (some ⟨id, segments⟩)
  | none => do
    drain fuel rxLength.toNat
    pure none

def pbufFree : Option RxPbuf → Driver Unit
  | some p => Prog.perform (Access.pbufFree p.id)
  | none => pure ()

def readHeader : Driver (U16 × U16 × Option ℕ) := do
  setReg Reg.MRCMD
  let rxStatus ← getData
  let rxLength ← getData
  let granted ← pbufAlloc rxLength
  pure (rxStatus, rxLength, granted)

def BadFrame (rxStatus rxLength : U16) : Prop :=
  rxStatus &&& 0xBF00 ≠ 0 ∨ rxLength.toNat < 0x40 ∨ dm9000PktMax < rxLength.toNat

instance (rxStatus rxLength : U16) : Decidable (BadFrame rxStatus rxLength) :=
  inferInstanceAs (Decidable (_ ∨ _))

def resetIfTooBig (rxLength : U16) : Driver Unit :=
  if dm9000PktMax < rxLength.toNat then dm9000WriteReg Reg.NCR ncrRst else pure ()

/-- One unit of fuel is one pass through `__error_retry`. -/
def dm9000ReceivePacket : ℕ → Driver (Option RxPbuf)
  | 0 => .spin
  | fuel + 1 => do
    let _ ← dm9000ReadReg Reg.MRCMDX
    let word ← getData
    let rxbyte := lowByte word
    if rxbyte ≠ 0 then
      if 1 < rxbyte.toNat then
        dm9000WriteReg Reg.RCR 0x00
        dm9000WriteReg Reg.ISR 0x80
        pure none
      else
        let (rxStatus, rxLength, granted) ← readHeader
        let p ← fillPbuf fuel rxLength granted
        if BadFrame rxStatus rxLength then
          resetIfTooBig rxLength
          pbufFree p
          dm9000ReceivePacket fuel
        else pure p
    else
      dm9000WriteReg Reg.ISR isrPts
      dm9000WriteReg Reg.IMR (imrAll.setWidth 16)
      pure none

end EnvirMonitor.Ethernet
