import EnvirMonitor.Display.Text

/-! `EXTI4_IRQHandler` between two accesses of a refresh: it redraws the screen with a refresh of
its own, and leaves the controller's position where that ended. -/

namespace EnvirMonitor.Display
open Machine Prog

def text (s : String) : List U8 := s.toList.map fun c => BitVec.ofNat 8 c.toNat

def localIPAddr : List U8 := [192, 168, 1, 30]

def decimal (n : U8) : List U8 := (Nat.toDigits 10 n.toNat).map fun c => BitVec.ofNat 8 c.toNat

def showlocalip : List U8 := text "LocalIP:" ++ (text ".").intercalate (localIPAddr.map decimal)

/-- Everything below the first two rows of text. -/
def frameArea : Area := ⟨0, 16, 127, 63, by decide, by decide⟩

def oledShowInterfaceFrame (font : Font) (index : U8) : Oled Unit := do
  oledFill frameArea 0
  if index = 0 then do
    oledShowString font 0 16 1 16 (text "CO2:       ppm")
    oledShowString font 0 32 1 16 (text "Temp:      C ")
    oledShowString font 0 48 1 16 (text "Hum:       % ")
    oledRefreshGram
  else if index = 1 then do
    oledShowString font 0 20 1 12 showlocalip
    oledRefreshGram
  else pure ()

def selectInterface (presscnt : U8) : Oled Unit := do
  (if presscnt = 1 then perform (Access.setInterfaceIndex 0) else pure ())
  if presscnt = 2 then do
    perform (Access.setInterfaceIndex 1)
    perform (Access.setPresscnt 0)
  else pure ()

/-- `KEY0` is low while the key is pressed. -/
def exti4IrqHandler (font : Font) : Oled Unit := do
  let level : Bool ← perform Access.key0
  if level then pure ()
  else do
    let presscnt : U8 ← perform Access.presscnt
    perform (Access.setPresscnt (presscnt + 1))
    selectInterface (presscnt + 1)
    let index : U8 ← perform Access.interfaceIndex
    oledShowInterfaceFrame font index

/-! ## The redraw -/

/-- The redraw keeps the last page and ends with a refresh. -/
structure Redrawn (panel : Panel) (b b' : Board) : Prop where
  top : ∀ n, b'.gram n lastPage = b.gram n lastPage
  refreshed : ∃ c, b'.controller = panel.refreshed b'.gram c

variable {panel : Panel}

theorem Redrawn.shown {b b' : Board} (h : Redrawn panel b b') : b'.Shown := by
  obtain ⟨c, hc⟩ := h.refreshed
  intro p n
  rw [hc, ram_refreshed]

theorem Redrawn.page {b b' : Board} (h : Redrawn panel b b') : b'.controller.page = lastPage := by
  obtain ⟨c, hc⟩ := h.refreshed
  rw [hc, (position_refreshed b'.gram c).1]

theorem Redrawn.column {b b' : Board} (h : Redrawn panel b b') :
    b'.controller.column = 128 % panel.columns := by
  obtain ⟨c, hc⟩ := h.refreshed
  rw [hc, (position_refreshed b'.gram c).2]

theorem top_of_sparesTop {g : Gram} (op : Access) (hop : op.SparesTop) (b : Board)
    (hb : ∀ n, b.gram n lastPage = g n lastPage) (n : Fin 128) :
    (board panel op b).2.gram n lastPage = g n lastPage := by
  cases op with
  | setGram x page dat =>
    have hpage : (b.setGram x page dat).gram n lastPage = b.gram n lastPage := by
      simp only [Board.setGram]
      by_cases hn : n = x
      · rw [hn, Function.update_self, Function.update_of_ne (Ne.symm hop)]
      · rw [Function.update_of_ne hn]
    exact hpage.trans (hb n)
  | gram x page => exact hb n
  | wrByte dat cmd => exact hb n
  | _ => exact hop.elim

theorem run_redraw (panel : Panel) {p : Oled Unit} (hp : SparesTop p) (b : Board) :
    ∃ b', (p >>= fun _ => oledRefreshGram).run (board panel) b = some ((), b') ∧
      Redrawn panel b b' := by
  obtain ⟨_, b', hrun, -, htop⟩ : ∃ a b', p.run (board panel) b = some (a, b') ∧ True ∧
      ∀ n, b'.gram n lastPage = b.gram n lastPage :=
    hp.run (I := fun s : Board => ∀ n, s.gram n lastPage = b.gram n lastPage) top_of_sparesTop fun _ => rfl
  refine ⟨{ b' with controller := panel.refreshed b'.gram b'.controller }, ?_, htop,
    b'.controller, rfl⟩
  rw [run_bind_of hrun, run_refreshGram]

theorem oledFill_frameArea : oledFill frameArea 0 =
    fillPixels frameArea 0 >>= fun _ => oledRefreshGram := if_neg (by decide)

theorem spares_fill : SparesTop (oledFill frameArea 0) := by
  rw [oledFill_frameArea]
  exact Only.bind (spares_fillPixels frameArea 0 (by decide)) fun _ _ => spares_refreshGram

/-- Whatever screen is selected, the frame is a drawing with a refresh behind it. -/
theorem frame_eq (font : Font) (index : U8) : ∃ p, SparesTop p ∧
    oledShowInterfaceFrame font index = p >>= fun _ => oledRefreshGram := by
  rw [oledShowInterfaceFrame]
  split_ifs
  · refine ⟨oledFill frameArea 0 >>= fun _ =>
      oledShowString font 0 16 1 16 (text "CO2:       ppm") >>= fun _ =>
      oledShowString font 0 32 1 16 (text "Temp:      C ") >>= fun _ =>
      oledShowString font 0 48 1 16 (text "Hum:       % "), ?_, ?_⟩
    · refine Only.bind spares_fill fun _ _ => Only.bind (Q := fun _ => True) ?_ fun _ _ =>
        Only.bind (Q := fun _ => True) ?_ fun _ _ => ?_
      · exact spares_showString font 1 (by decide) (by decide) (by decide) _ (by decide)
      · exact spares_showString font 1 (by decide) (by decide) (by decide) _ (by decide)
      · exact spares_showString font 1 (by decide) (by decide) (by decide) _ (by decide)
    · simp only [bind_assoc]
  · refine ⟨oledFill frameArea 0 >>= fun _ => oledShowString font 0 20 1 12 showlocalip, ?_, ?_⟩
    · exact Only.bind spares_fill fun _ _ =>
        spares_showString font 1 (by decide) (by decide) (by decide) _ (by decide)
    · simp only [bind_assoc]
  · refine ⟨fillPixels frameArea 0, spares_fillPixels frameArea 0 (by decide), ?_⟩
    rw [← oledFill_frameArea]
    exact bind_pure _

theorem run_selectInterface (panel : Panel) (presscnt : U8) (b : Board) :
    ∃ n index, (selectInterface presscnt).run (board panel) b =
      some ((), { b with presscnt := n, interfaceIndex := index }) := by
  rw [selectInterface]
  split_ifs <;> exact ⟨_, _, rfl⟩

theorem run_handler_pressed (panel : Panel) (font : Font) {b : Board} (hb : b.key0 = false) :
    ∃ b', (exti4IrqHandler font).run (board panel) b = some ((), b') ∧ Redrawn panel b b' := by
  obtain ⟨g, c, key0, presscnt, screen⟩ := b
  obtain rfl : key0 = false := hb
  obtain ⟨n, index, hselect⟩ := run_selectInterface panel (presscnt + 1)
    ⟨g, c, false, presscnt + 1, screen⟩
  obtain ⟨p, hp, heq⟩ := frame_eq font index
  obtain ⟨b', hrun, htop, hrefreshed⟩ := run_redraw panel hp ⟨g, c, false, n, index⟩
  refine ⟨b', ?_, htop, hrefreshed⟩
  simp only [exti4IrqHandler, perform_bind, run_act, board, Bool.false_eq_true, if_false]
  rw [run_bind_of hselect, run_act, ← hrun, ← heq]
  rfl

theorem run_handler_released (panel : Panel) (font : Font) {b : Board} (hb : b.key0 = true) :
    (exti4IrqHandler font).run (board panel) b = some ((), b) := by
  simp only [exti4IrqHandler, perform_bind, run_act, board, hb, if_true, run_pure]

end EnvirMonitor.Display
