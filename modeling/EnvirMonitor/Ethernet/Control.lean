import EnvirMonitor.Ethernet.Driver

/-! The rest of `DM9000.c`: initialisation with the PHY, and the interrupt handler. The GPIO,
FSMC and NVIC set-up, the hardware reset pin and the delays are left out. -/

namespace EnvirMonitor.Ethernet
open Machine

namespace Reg

abbrev NSR : U16 := 0x01
abbrev BPTR : U16 := 0x08
abbrev FCTR : U16 := 0x09
abbrev FCR : U16 := 0x0A
abbrev EPCR : U16 := 0x0B
abbrev EPAR : U16 := 0x0C
abbrev EPDRL : U16 := 0x0D
abbrev EPDRH : U16 := 0x0E
abbrev PAR : U16 := 0x10
abbrev MAR : U16 := 0x16
abbrev GPCR : U16 := 0x1E
abbrev GPR : U16 := 0x1F
abbrev VIDL : U16 := 0x28
abbrev VIDH : U16 := 0x29
abbrev PIDL : U16 := 0x2A
abbrev PIDH : U16 := 0x2B
abbrev TCR2 : U16 := 0x2D
abbrev SMCR : U16 := 0x2F

end Reg

def dm9000Id : U32 := 0x90000A46
def dm9000Phy : U16 := 0x40
def phyBmcr : U16 := 0x00
def phyBmsr : U16 := 0x01
def phyAnar : U16 := 0x04

def rcrRxen : U16 := 0x01
def rcrDisCrc : U16 := 0x10
def rcrDisLong : U16 := 0x20
def nsrTx1end : U16 := 0x04
def nsrTx2end : U16 := 0x08
def nsrWakest : U16 := 0x20

/-! ## Reset and PHY -/

/-- `do { Delay_ms(25); } while(DM9000_ReadReg(DM9000_NCR)&1);` -/
def waitReset : ℕ → Driver Unit
  | 0 => .spin
  | fuel + 1 => do
    let status ← dm9000ReadReg Reg.NCR
    if status &&& 1 ≠ 0 then waitReset fuel

def dm9000Reset (fuel : ℕ) : Driver Unit := do
  dm9000WriteReg Reg.GPCR 0x01
  dm9000WriteReg Reg.GPR 0
  dm9000WriteReg Reg.NCR (0x02 ||| ncrRst)
  waitReset fuel
  dm9000WriteReg Reg.NCR 0
  dm9000WriteReg Reg.NCR (0x02 ||| ncrRst)
  waitReset fuel

def dm9000PHYReadReg (reg : U16) : Driver U16 := do
  dm9000WriteReg Reg.EPAR (dm9000Phy ||| reg)
  dm9000WriteReg Reg.EPCR 0x0C
  dm9000WriteReg Reg.EPCR 0x00
  let high ← dm9000ReadReg Reg.EPDRH
  let low ← dm9000ReadReg Reg.EPDRL
  pure (high <<< 8 ||| low)

def dm9000PHYWriteReg (reg value : U16) : Driver Unit := do
  dm9000WriteReg Reg.EPAR (dm9000Phy ||| reg)
  dm9000WriteReg Reg.EPDRL (value &&& 0xFF)
  dm9000WriteReg Reg.EPDRH (value >>> 8 &&& 0xFF)
  dm9000WriteReg Reg.EPCR 0x0A
  dm9000WriteReg Reg.EPCR 0x00

def dm9000GetDeiviceID : Driver U32 := do
  let vidl ← dm9000ReadReg Reg.VIDL
  let vidh ← dm9000ReadReg Reg.VIDH
  let pidl ← dm9000ReadReg Reg.PIDL
  let pidh ← dm9000ReadReg Reg.PIDH
  pure (vidl.setWidth 32 ||| vidh.setWidth 32 <<< 8 ||| pidl.setWidth 32 <<< 16 |||
    pidh.setWidth 32 <<< 24)

/-- `DM9000_Init` sets `DM9000Cfg.mode` to `DM9000_AUTO`; the other modes are never used. -/
def dm9000SetPHYMode : Driver Unit := do
  dm9000PHYWriteReg phyBmcr 0x1000
  dm9000PHYWriteReg phyAnar 0x01E1
  dm9000WriteReg Reg.GPR 0x00

/-- Polls at most `retries + 1` times; `i > 100` gives up after the 101st poll. -/
def waitNegotiated : (retries : ℕ) → Driver Bool
  | 0 => do
    let bmsr ← dm9000PHYReadReg phyBmsr
    pure (bmsr &&& 0x0020 ≠ 0)
  | retries + 1 => do
    let bmsr ← dm9000PHYReadReg phyBmsr
    if bmsr &&& 0x0020 = 0 then waitNegotiated retries else pure true

def dm9000GetSpeedAndDuplex : Driver U8 := do
  if ← waitNegotiated 100 then
    let nsr ← dm9000ReadReg Reg.NSR
    let ncr ← dm9000ReadReg Reg.NCR
    pure ((nsr >>> 6 &&& 0x02).setWidth 8 ||| (ncr >>> 3 &&& 0x01).setWidth 8)
  else pure 0xFF

/-! ## Initialisation -/

/-- The loops over `DM9000_PAR+i` and `DM9000_MAR+i`. -/
def writeAddress (reg : U16) : List U8 → Driver Unit
  | [] => pure ()
  | byte :: bytes => do
    dm9000WriteReg reg (byte.setWidth 16)
    writeAddress (reg + 1) bytes

/-- `uid` is the word of the chip's unique number at `0x1FFFF7E8`. -/
def macAddr (uid : U32) : List U8 :=
  [2, 0, 0, (uid >>> 16 &&& 0xFF).setWidth 8, (uid >>> 8 &&& 0xFFF).setWidth 8,
    (uid &&& 0xFF).setWidth 8]

def multicaseAddr : List U8 := List.replicate 8 0xFF

def dm9000Init (fuel : ℕ) (uid : U32) : Driver U8 := do
  dm9000Reset fuel
  let id ← dm9000GetDeiviceID
  if id ≠ dm9000Id then pure 1
  else
    dm9000SetPHYMode
    dm9000WriteReg Reg.NCR 0x00
    dm9000WriteReg Reg.TCR 0x00
    dm9000WriteReg Reg.BPTR 0x3F
    dm9000WriteReg Reg.FCTR 0x38
    dm9000WriteReg Reg.FCR 0x00
    dm9000WriteReg Reg.SMCR 0x00
    dm9000WriteReg Reg.NSR (nsrWakest ||| nsrTx2end ||| nsrTx1end)
    dm9000WriteReg Reg.ISR 0x0F
    dm9000WriteReg Reg.TCR2 0x80
    writeAddress Reg.PAR (macAddr uid)
    writeAddress Reg.MAR multicaseAddr
    dm9000WriteReg Reg.RCR (rcrDisLong ||| rcrDisCrc ||| rcrRxen)
    dm9000WriteReg Reg.IMR (imrPar.setWidth 16)
    let _ ← dm9000GetSpeedAndDuplex
    dm9000WriteReg Reg.IMR (imrAll.setWidth 16)
    pure 0

/-! ## The interrupt handler -/

/-- The tests of `int_status` guard empty bodies. -/
def dma9000ISRHandler : Driver Unit := do
  let lastIo ← Prog.perform Access.getReg
  let intStatus ← dm9000ReadReg Reg.ISR
  dm9000WriteReg Reg.ISR intStatus
  setReg lastIo

/-! ## The main thread -/

inductive Transfer
  | receive
  | send (p : PbufChain)

def Transfer.driver (fuel : ℕ) : Transfer → Driver Unit
  | receive => do
    let _ ← dm9000ReceivePacket fuel
  | send p => dm9000SendPacket imrAll fuel p

def transfers (fuel : ℕ) : List Transfer → Driver Unit
  | [] => pure ()
  | t :: ts => do
    t.driver fuel
    transfers fuel ts

end EnvirMonitor.Ethernet
