import EnvirMonitor.Machine.Words
import EnvirMonitor.Machine.BoundedWait

/-! `DHT11.c` reads a reply of five bytes from a line that it samples: the waits of
`DHT11_WaiteCheck` and `DHT11_ReadBit`, the bits and bytes, and what `DHT11_ReadTempHum` stores. -/

namespace EnvirMonitor.Sensor
open Machine

/-- `delaytime<=100` allows 101 turns. Returns 1 when the sensor does not answer. -/
def dht11WaiteCheck (line : Line) : U8 × Line :=
  let (delaytime, line) := waitWhile true 101 line
  if delaytime > 100 then (1, line)
  else
    let (delaytime, line) := waitWhile false 101 line
    (if delaytime > 100 then 1 else 0, line)

/-- Neither wait is checked. -/
def dht11ReadBit (line : Line) : U8 × Line :=
  let (_, line) := waitWhile true 100 line
  let (_, line) := waitWhile false 100 line
  (if line.head then 1 else 0, line.tail)

/-- `ret <<= 1; ret |= bit;` -/
def shiftIn (ret bit : U8) : U8 := ret <<< 1 ||| bit

def readBits : ℕ → U8 → Line → U8 × Line
  | 0, ret, line => (ret, line)
  | cnt + 1, ret, line =>
    let (bit, line) := dht11ReadBit line
    readBits cnt (shiftIn ret bit) line

def dht11ReadByte (line : Line) : U8 × Line := readBits 8 0 line

/-- `buf[5]` -/
abbrev Buf := Fin 5 → U8

def readBuf (line : Line) : Buf × Line :=
  let (b0, line) := dht11ReadByte line
  let (b1, line) := dht11ReadByte line
  let (b2, line) := dht11ReadByte line
  let (b3, line) := dht11ReadByte line
  let (b4, line) := dht11ReadByte line
  (![b0, b1, b2, b3, b4], line)

/-- An assignment to `*temp`, `*hum` or `TempHumiData_Ready`. -/
inductive Store (F : Type)
  | temp (value : F)
  | hum (value : F)
  | ready

/-- The sum of the first four bytes is taken in `int`. -/
def Buf.SumIs (buf : Buf) : Prop :=
  (buf 0).toNat + (buf 1).toNat + (buf 2).toNat + (buf 3).toNat = (buf 4).toNat

instance (buf : Buf) : Decidable buf.SumIs := inferInstanceAs (Decidable (_ = _))

def Buf.ChecksumRight (buf : Buf) : Prop := buf 4 = buf 0 + buf 1 + buf 2 + buf 3

instance (buf : Buf) : Decidable buf.ChecksumRight := inferInstanceAs (Decidable (_ = _))

section
variable {F : Type} (value : U8 → U8 → F)

/-- `value` is the number made of its whole and its fractional byte. -/
def Buf.stores (buf : Buf) : List (Store F) :=
  [.temp (value (buf 0) (buf 1)), .hum (value (buf 2) (buf 3)), .ready]

/-- The return value, the assignments made, and the rest of the line. -/
def dht11ReadTempHum (line : Line) : U8 × List (Store F) × Line :=
  let (answer, line) := dht11WaiteCheck line
  if answer = 0 then
    let (buf, line) := readBuf line
    (0, if buf.SumIs then buf.stores value else [], line)
  else (1, [], line)

end

/-! ## The samples of one bit -/

structure Cell where
  high : Wait 100
  low : Wait 100
  level : Bool
  deriving DecidableEq

namespace Cell

def samples (c : Cell) : List Bool := c.high.levels true ++ (c.low.levels false ++ [c.level])

def TimesOut (c : Cell) : Prop := c.high = .expires ∨ c.low = .expires

def bit (c : Cell) : U8 := if c.level then 1 else 0

end Cell

theorem readBit_samples (c : Cell) (rest : Line) :
    dht11ReadBit (c.samples ++ₛ rest) = (c.bit, rest) := by
  unfold dht11ReadBit Cell.samples
  rw [Stream'.append_append_stream, Stream'.append_append_stream, waitWhile_levels]
  simp only [waitWhile_levels]
  rfl

theorem exists_cell (line : Line) : ∃ (c : Cell) (rest : Line), line = c.samples ++ₛ rest := by
  obtain ⟨high, line, rfl⟩ := exists_levels true 100 line
  obtain ⟨low, line, rfl⟩ := exists_levels false 100 line
  refine ⟨⟨high, low, line.head⟩, line.tail, ?_⟩
  unfold Cell.samples
  rw [Stream'.append_append_stream, Stream'.append_append_stream, Stream'.append_eq_cons, Stream'.eta]

def BitTimesOut (line : Line) : Prop :=
  Expires true 100 line ∨ Expires false 100 (waitWhile true 100 line).2

theorem bitTimesOut_samples (c : Cell) (rest : Line) :
    BitTimesOut (c.samples ++ₛ rest) ↔ c.TimesOut := by
  unfold BitTimesOut Cell.samples Cell.TimesOut
  rw [Stream'.append_append_stream, Stream'.append_append_stream, waitWhile_levels,
    expires_levels_iff, expires_levels_iff]

/-! ## Bytes -/

def cellSamples (cs : List Cell) : List Bool := cs.flatMap Cell.samples

def byteOf (bits : List Bool) : U8 := BitVec.ofNat 8 (bits.foldl (fun n bit => 2 * n + bit.toNat) 0)

theorem readBits_samples (cs : List Cell) (ret : U8) (rest : Line) :
    readBits cs.length ret (cellSamples cs ++ₛ rest) =
      (cs.foldl (fun ret c => shiftIn ret c.bit) ret, rest) := by
  induction cs generalizing ret with
  | nil => rfl
  | cons c cs ih =>
    have hcons : cellSamples (c :: cs) = c.samples ++ cellSamples cs := List.flatMap_cons
    rw [hcons, Stream'.append_append_stream, List.length_cons, readBits, readBit_samples]
    exact ih _

theorem shiftIn_toNat (ret : U8) (c : Cell) :
    (shiftIn ret c.bit).toNat = (2 * ret.toNat + c.level.toNat) % 2 ^ 8 := by
  have hall : ∀ (ret : U8) (level : Bool), (shiftIn ret (if level then 1 else 0)).toNat =
      (2 * ret.toNat + level.toNat) % 2 ^ 8 := by decide +kernel
  exact hall ret c.level

theorem foldl_shiftIn (cs : List Cell) :
    cs.foldl (fun ret c => shiftIn ret c.bit) 0 = byteOf (cs.map Cell.level) := by
  apply BitVec.eq_of_toNat_eq
  rw [byteOf, BitVec.toNat_ofNat]
  induction cs using List.reverseRecOn with
  | nil => rfl
  | append_singleton cs c ih =>
    rw [List.foldl_concat, shiftIn_toNat, ih, List.map_append, List.map_singleton, List.foldl_concat,
      Nat.add_mod, Nat.mul_mod_mod, ← Nat.add_mod]

theorem readByte_samples {cs : List Cell} (hcs : cs.length = 8) (rest : Line) :
    dht11ReadByte (cellSamples cs ++ₛ rest) = (byteOf (cs.map Cell.level), rest) := by
  unfold dht11ReadByte
  rw [← foldl_shiftIn, ← readBits_samples, hcs]

theorem exists_cells (n : ℕ) (line : Line) :
    ∃ (cs : List Cell) (rest : Line), cs.length = n ∧ line = cellSamples cs ++ₛ rest := by
  induction n generalizing line with
  | zero => exact ⟨[], line, rfl, rfl⟩
  | succ n ih =>
    obtain ⟨c, line, rfl⟩ := exists_cell line
    obtain ⟨cs, rest, hlen, rfl⟩ := ih line
    refine ⟨c :: cs, rest, congrArg Nat.succ hlen, ?_⟩
    rw [← Stream'.append_append_stream]
    rfl

end EnvirMonitor.Sensor
