import EnvirMonitor.Machine.Words
import EnvirMonitor.Machine.AccessProgram
import EnvirMonitor.Machine.WriteLog

/-! The picture in `OLED_GRAM`: single pixels are set and cleared in bytes that eight of them share. -/

namespace EnvirMonitor.Display
open Machine Prog

abbrev Gram := Fin 128 → Fin 8 → U8

/-- A panel in page addressing mode. A counter that stops behind the last column is one with so
many columns that it never gets to their end. -/
structure Panel where
  columns : ℕ
  wide : 128 ≤ columns

structure Controller where
  page : Fin 8
  column : ℕ
  ram : Fin 8 × ℕ → U8

namespace Controller

/-- The commands that set the position; the others leave it and the memory. -/
def command (c : Controller) (dat : U8) : Controller :=
  if h : 0xB0 ≤ dat.toNat ∧ dat.toNat ≤ 0xB7 then
    { c with page := ⟨dat.toNat - 0xB0, by omega⟩ }
  else if dat.toNat ≤ 0x0F then { c with column := c.column / 16 * 16 + dat.toNat }
  else if dat.toNat ≤ 0x1F then { c with column := (dat.toNat - 0x10) * 16 + c.column % 16 }
  else c

end Controller

def Panel.data (panel : Panel) (c : Controller) (dat : U8) : Controller :=
  { c with
    column := (c.column + 1) % panel.columns
    ram := Function.update c.ram (c.page, c.column) dat }

/-! ## What the display code reaches -/

inductive Access
  | gram (x : Fin 128) (page : Fin 8)
  | setGram (x : Fin 128) (page : Fin 8) (dat : U8)
  | wrByte (dat cmd : U8)
  | key0
  | presscnt
  | setPresscnt (n : U8)
  | interfaceIndex
  | setInterfaceIndex (n : U8)

abbrev Access.Reply : Access → Type
  | gram .. | presscnt | interfaceIndex => U8
  | key0 => Bool
  | _ => Unit

abbrev Oled := Prog Access Access.Reply

structure Board where
  gram : Gram
  controller : Controller
  key0 : Bool
  presscnt : U8
  interfaceIndex : U8

def Board.setGram (b : Board) (x : Fin 128) (page : Fin 8) (dat : U8) : Board :=
  { b with gram := Function.update b.gram x (Function.update (b.gram x) page dat) }

def board (panel : Panel) : Device Access Access.Reply Board
  | .gram x page, b => (b.gram x page, b)
  | .setGram x page dat, b => ((), b.setGram x page dat)
  | .wrByte dat cmd, b =>
    ((), { b with
      controller := if cmd ≠ 0 then panel.data b.controller dat else b.controller.command dat })
  | .key0, b => (b.key0, b)
  | .presscnt, b => (b.presscnt, b)
  | .setPresscnt n, b => ((), { b with presscnt := n })
  | .interfaceIndex, b => (b.interfaceIndex, b)
  | .setInterfaceIndex n, b => ((), { b with interfaceIndex := n })

/-! ## Pixels -/

def pageOf (y : ℕ) : Fin 8 := ⟨7 - y / 8, by omega⟩

def masked (mode dat xdat : U8) : U8 := if mode ≠ 0 then dat ||| xdat else dat &&& ~~~xdat

def oledDrawPiont (x y mode : U8) : Oled Unit :=
  if h : x.toNat > 127 ∨ y.toNat > 63 then pure ()
  else do
    let page := pageOf y.toNat
    let xdat := 1#8 <<< (7 - y.toNat % 8)
    let dat : U8 ← perform (Access.gram ⟨x.toNat, by omega⟩ page)
    perform (Access.setGram ⟨x.toNat, by omega⟩ page (masked mode dat xdat))

structure DrawCall where
  x : U8
  y : U8
  mode : U8

def drawAll : List DrawCall → Oled Unit := forEach fun call => oledDrawPiont call.x call.y call.mode

abbrev Picture := Fin 128 × Fin 64 → Bool

def Gram.picture (g : Gram) : Picture := fun p =>
  (g p.1 (pageOf p.2)).getLsbD (7 - (p.2 : ℕ) % 8)

def DrawCall.pixel (call : DrawCall) : Option (Fin 128 × Fin 64) :=
  if h : call.x.toNat < 128 ∧ call.y.toNat < 64 then some (⟨call.x.toNat, h.1⟩, ⟨call.y.toNat, h.2⟩)
  else none

def DrawCall.lit (call : DrawCall) : Bool := decide (call.mode ≠ 0)

/-! ## One call -/

theorem pixel_eq_none_iff (call : DrawCall) :
    call.pixel = none ↔ call.x.toNat > 127 ∨ call.y.toNat > 63 := by
  rw [DrawCall.pixel]
  split_ifs with h
  · exact ⟨fun hnone => hnone.elim, fun hoff => by omega⟩
  · exact ⟨fun _ => by omega, fun _ => rfl⟩

theorem pixel_eq_some_iff (call : DrawCall) (p : Fin 128 × Fin 64) :
    call.pixel = some p ↔ call.x.toNat = p.1 ∧ call.y.toNat = p.2 := by
  rw [DrawCall.pixel]
  split_ifs with h
  · rw [Option.some_inj, Prod.ext_iff, Fin.ext_iff, Fin.ext_iff]
  · have hx := p.1.isLt
    have hy := p.2.isLt
    exact ⟨fun hnone => hnone.elim, fun hon => by omega⟩

theorem drawPiont_offScreen {call : DrawCall} (h : call.pixel = none) :
    oledDrawPiont call.x call.y call.mode = pure () := by
  rw [oledDrawPiont, dif_pos ((pixel_eq_none_iff call).mp h)]

theorem drawPiont_onScreen {call : DrawCall} {p : Fin 128 × Fin 64} (h : call.pixel = some p) :
    oledDrawPiont call.x call.y call.mode =
      .act (.gram p.1 (pageOf p.2)) fun dat : U8 =>
        .act (.setGram p.1 (pageOf p.2) (masked call.mode dat (1#8 <<< (7 - (p.2 : ℕ) % 8)))) .ret := by
  have hscreen : ¬ (call.x.toNat > 127 ∨ call.y.toNat > 63) := by
    rw [← pixel_eq_none_iff, h]
    exact Option.some_ne_none p
  obtain ⟨⟨x, hxlt⟩, ⟨y, hylt⟩⟩ := p
  obtain ⟨hx, hy⟩ := (pixel_eq_some_iff call _).mp h
  subst hx hy
  rw [oledDrawPiont, dif_neg hscreen]
  rfl

theorem getLsbD_masked (call : DrawCall) (dat : U8) {bit i : ℕ} (hi : i < 8) :
    (masked call.mode dat (1#8 <<< bit)).getLsbD i =
      if bit = i then call.lit else dat.getLsbD i := by
  have hmask : (1#8 <<< bit).getLsbD i = decide (bit = i) := by
    rw [BitVec.getLsbD_shiftLeft, BitVec.getLsbD_one, Bool.eq_iff_iff]
    simp only [Bool.and_eq_true, Bool.not_eq_true', decide_eq_true_eq, decide_eq_false_iff_not]
    omega
  rw [masked, DrawCall.lit]
  by_cases hmode : call.mode ≠ 0
  · rw [if_pos hmode, BitVec.getLsbD_or, hmask, decide_eq_true hmode]
    by_cases h : bit = i <;> simp [h]
  · rw [if_neg hmode, BitVec.getLsbD_and, BitVec.getLsbD_not, hmask, decide_eq_false hmode]
    by_cases h : bit = i <;> simp [h, hi]

theorem pageOf_inj {y y' : Fin 64} (hpage : pageOf y = pageOf y')
    (hbit : 7 - (y : ℕ) % 8 = 7 - (y' : ℕ) % 8) : y = y' := by
  rw [pageOf, pageOf, Fin.mk.injEq] at hpage
  omega

theorem picture_setGram (b : Board) (p : Fin 128 × Fin 64) (call : DrawCall) :
    (b.setGram p.1 (pageOf p.2) (masked call.mode (b.gram p.1 (pageOf p.2))
      (1#8 <<< (7 - (p.2 : ℕ) % 8)))).gram.picture = Function.update b.gram.picture p call.lit := by
  funext q
  rw [Function.update_apply]
  simp only [Board.setGram, Gram.picture]
  by_cases hx : q.1 = p.1
  · rw [hx, Function.update_self]
    by_cases hpage : pageOf q.2 = pageOf p.2
    · have hbit : 7 - (q.2 : ℕ) % 8 < 8 := by omega
      have hiff : 7 - (p.2 : ℕ) % 8 = 7 - (q.2 : ℕ) % 8 ↔ q = p :=
        ⟨fun h => Prod.ext hx (pageOf_inj hpage h.symm), fun h => by rw [h]⟩
      rw [hpage, Function.update_self, getLsbD_masked call _ hbit]
      exact if_congr hiff rfl rfl
    · rw [Function.update_of_ne hpage, if_neg fun h => hpage (by rw [h])]
  · rw [Function.update_of_ne hx, if_neg fun h => hx (by rw [h])]

theorem run_drawPiont (panel : Panel) (b : Board) (call : DrawCall) :
    ∃ g, (oledDrawPiont call.x call.y call.mode).run (board panel) b =
        some ((), { b with gram := g }) ∧
      g.picture = writeCell DrawCall.pixel DrawCall.lit b.gram.picture call := by
  cases hp : call.pixel with
  | none =>
    rw [drawPiont_offScreen hp, writeCell, hp]
    exact ⟨b.gram, rfl, rfl⟩
  | some p =>
    rw [drawPiont_onScreen hp, writeCell, hp]
    exact ⟨_, rfl, picture_setGram b p call⟩

theorem run_drawAll (panel : Panel) (b : Board) (calls : List DrawCall) :
    ∃ g, (drawAll calls).run (board panel) b = some ((), { b with gram := g }) ∧
      g.picture = writeCells DrawCall.pixel DrawCall.lit b.gram.picture calls := by
  induction calls generalizing b with
  | nil => exact ⟨b.gram, rfl, rfl⟩
  | cons call calls ih =>
    obtain ⟨g, hrun, hpicture⟩ := run_drawPiont panel b call
    obtain ⟨g', hrun', hpicture'⟩ := ih { b with gram := g }
    refine ⟨g', ?_, ?_⟩
    · rw [drawAll, forEach, run_bind_of hrun]
      exact hrun'
    · rw [hpicture', hpicture, writeCells_cons]

end EnvirMonitor.Display
