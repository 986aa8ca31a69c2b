import EnvirMonitor.Machine.CounterLoop
import EnvirMonitor.Display.Refresh

/-! Areas, characters and lines of text in the picture memory. -/

namespace EnvirMonitor.Display
open Machine Prog

/-- Two corners. The loops end because a `u8` counter can pass the second one. -/
structure Area where
  x1 : U8
  y1 : U8
  x2 : U8
  y2 : U8
  x2_lt : x2.toNat < 255
  y2_lt : y2.toNat < 255

def fillPixels (area : Area) (mode : U8) : Oled Unit :=
  forEach (fun xt => forEach (fun yt => oledDrawPiont xt yt mode) (values area.y1 area.y2))
    (values area.x1 area.x2)

def oledFill (area : Area) (mode : U8) : Oled Unit :=
  if area.x1 > area.x2 ∨ area.y1 > area.y2 then pure ()
  else do
    fillPixels area mode
    oledRefreshGram

def oledClear : Oled Unit := do
  forEach (fun x => forEach (fun y => perform (Access.setGram x y 0)) (List.finRange 8))
    (List.finRange 128)
  oledRefreshGram

/-! ## Characters -/

structure Font where
  asc21206 : ℕ → ℕ → U8
  asc21608 : ℕ → ℕ → U8
  asc22412 : ℕ → ℕ → U8

def Font.byte (font : Font) (size chr : U8) (t : ℕ) : Option U8 :=
  if size = 12 then some (font.asc21206 chr.toNat t)
  else if size = 16 then some (font.asc21608 chr.toNat t)
  else if size = 24 then some (font.asc22412 chr.toNat t)
  else none

/-- The bits of one byte, downwards from `y`; the position of the next byte. -/
def showBits (mode size ysize : U8) : ℕ → U8 → U8 → U8 → Oled (U8 × U8)
  | 0, _, x, y => pure (x, y)
  | turns + 1, temp, x, y => do
    oledDrawPiont x y (if temp &&& 0x80 ≠ 0 then mode else if mode = 0 then 1 else 0)
    if (y + 1).toNat = ysize.toNat + size.toNat then pure (x + 1, ysize)
    else showBits mode size ysize turns (temp <<< 1) x (y + 1)

def showBytes (font : Font) (mode size ysize chr : U8) : ℕ → ℕ → U8 → U8 → Oled Unit
  | 0, _, _, _ => pure ()
  | turns + 1, t, x, y =>
    (font.byte size chr t).elim (pure ()) fun temp => do
      let next ← showBits mode size ysize 8 temp x y
      showBytes font mode size ysize chr turns (t + 1) next.1 next.2

def csize (size : U8) : U8 :=
  BitVec.ofNat 8 ((size.toNat / 8 + if size.toNat % 8 ≠ 0 then 1 else 0) * (size.toNat / 2))

def oledShowChar (font : Font) (x y mode size chr : U8) : Oled Unit :=
  showBytes font mode size y (chr - 0x20) (csize size).toNat 0 x y

/-- A character that does not fit on its line goes to the next one. -/
def lineBreak (x y size : U8) : U8 × U8 :=
  if 128 < x.toNat + size.toNat / 2 then (0, y + size) else (x, y)

def oledShowString (font : Font) (x y mode size : U8) : List U8 → Oled Unit
  | [] => pure ()
  | c :: p =>
    if 0x20 ≤ c ∧ c ≤ 0x7E then
      if 64 < (lineBreak x y size).2.toNat + size.toNat then do
        oledClear
        oledShowChar font 0 0 mode size c
        oledShowString font (0 + size / 2) 0 mode size p
      else do
        oledShowChar font (lineBreak x y size).1 (lineBreak x y size).2 mode size c
        oledShowString font ((lineBreak x y size).1 + size / 2) (lineBreak x y size).2 mode size p
    else pure ()

/-! ## What stays above the eighth row -/

/-- The accesses that leave the last page of the picture memory alone. -/
def Access.SparesTop : Access → Prop
  | setGram _ page _ => page ≠ lastPage
  | gram .. | wrByte .. => True
  | _ => False

def SparesTop (p : Oled Unit) : Prop := p.Only Access.SparesTop fun _ => True

theorem spares_drawPiont (x mode : U8) {y : U8} (hy : 8 ≤ y.toNat) :
    SparesTop (oledDrawPiont x y mode) := by
  rw [oledDrawPiont]
  split_ifs with hoff
  · exact .ret trivial
  · have hpage : pageOf y.toNat ≠ lastPage := by
      rw [pageOf, Ne, Fin.ext_iff]
      change ¬ 7 - y.toNat / 8 = 7
      omega
    exact .act trivial fun _ => .act hpage fun _ => .ret trivial

theorem spares_wrByte (dat cmd : U8) : SparesTop (oledWrByte dat cmd) :=
  .act trivial fun _ => .ret trivial

theorem spares_refreshGram : SparesTop oledRefreshGram := by
  refine Only.forEach fun i _ => Only.bind (Q := fun _ => True) ?_ fun _ _ => Only.forEach fun n _ => ?_
  · exact .act trivial fun _ => .act trivial fun _ => spares_wrByte 0x10 oledCmd
  · exact .act trivial fun dat => spares_wrByte dat oledData

theorem spares_fillPixels (area : Area) (mode : U8) (hy : 8 ≤ area.y1.toNat) :
    SparesTop (fillPixels area mode) :=
  Only.forEach fun xt _ => Only.forEach fun _ hyt =>
    spares_drawPiont xt mode (hy.trans (mem_values_iff.mp hyt).1)

def InRows (ysize size y : U8) : Prop := ysize.toNat ≤ y.toNat ∧ y.toNat < ysize.toNat + size.toNat

theorem spares_showBits (mode : U8) {size ysize : U8} (hrows : InRows ysize size ysize)
    (htop : 8 ≤ ysize.toNat) (hbottom : ysize.toNat + size.toNat ≤ 64) (turns : ℕ) (temp x : U8)
    {y : U8} (hy : InRows ysize size y) :
    (showBits mode size ysize turns temp x y).Only Access.SparesTop
      fun next => InRows ysize size next.2 := by
  induction turns generalizing temp y with
  | zero => exact .ret hy
  | succ turns ih =>
    refine Only.bind (spares_drawPiont x _ (htop.trans hy.1)) fun _ _ => ?_
    obtain ⟨hle, hlt⟩ := hy
    have hnext : (y + 1).toNat = y.toNat + 1 := toNat_add_one (by omega)
    split_ifs with hend
    · exact .ret hrows
    · exact ih _ ⟨by omega, by omega⟩

theorem spares_showBytes (font : Font) (mode chr : U8) {size ysize : U8}
    (hrows : InRows ysize size ysize) (htop : 8 ≤ ysize.toNat)
    (hbottom : ysize.toNat + size.toNat ≤ 64) (turns t : ℕ) (x : U8) {y : U8}
    (hy : InRows ysize size y) : SparesTop (showBytes font mode size ysize chr turns t x y) := by
  induction turns generalizing t x y with
  | zero => exact .ret trivial
  | succ turns ih =>
    rw [showBytes]
    cases font.byte size chr t with
    | none => exact .ret trivial
    | some temp =>
      exact Only.bind (spares_showBits mode hrows htop hbottom 8 temp x hy) fun next hnext =>
        ih (t + 1) next.1 hnext

theorem toNat_add_half {x size : U8} (h : x.toNat + size.toNat / 2 < 256) :
    (x + size / 2).toNat = x.toNat + size.toNat / 2 := BitVec.toNat_add_of_lt h

theorem spares_showString (font : Font) (mode : U8) {size y : U8} (hsize : 0 < size.toNat)
    (htop : 8 ≤ y.toNat) (hbottom : y.toNat + size.toNat ≤ 64) (p : List U8) {x : U8}
    (hfits : x.toNat + size.toNat / 2 * p.length ≤ 128) :
    SparesTop (oledShowString font x y mode size p) := by
  have hrows : InRows y size y := ⟨le_rfl, by omega⟩
  induction p generalizing x with
  | nil => exact .ret trivial
  | cons c p ih =>
    rw [List.length_cons, Nat.mul_succ] at hfits
    have hnext : (x + size / 2).toNat = x.toNat + size.toNat / 2 := toNat_add_half (by omega)
    have hline : lineBreak x y size = (x, y) := if_neg (by omega)
    have hscreen : ¬ 64 < y.toNat + size.toNat := by omega
    rw [oledShowString, hline, if_neg hscreen]
    split_ifs with hc
    · exact Only.bind (spares_showBytes font mode _ hrows htop hbottom _ 0 x hrows) fun _ _ =>
        ih (by rw [hnext]; omega)
    · exact .ret trivial

end EnvirMonitor.Display
