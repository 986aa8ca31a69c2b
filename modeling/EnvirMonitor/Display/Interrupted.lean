import EnvirMonitor.Display.KeyInterrupt

/-! A refresh that the key interrupt splits. The pages behind the split are sent whole, each with
its position; only the last one has no page behind it. -/

namespace EnvirMonitor.Display
open Machine Prog

theorem makes_pageCommands (i : Fin 8) : Makes 3 (pageCommands i) :=
  .act fun _ => .act fun _ => .act fun _ => .ret ()

theorem makes_sendByte (i : Fin 8) (n : Fin 128) : Makes 2 (sendByte i n) :=
  .act fun _ => .act fun _ => .ret ()

theorem makes_row (i : Fin 8) : Makes 256 (forEach (sendByte i) (List.finRange 128)) := by
  simpa only [List.length_finRange] using Makes.forEach (makes_sendByte i) (List.finRange 128)

theorem makes_refreshPage (i : Fin 8) : Makes 259 (refreshPage i) :=
  (makes_pageCommands i).bind fun _ => makes_row i

theorem makes_refreshGram : Makes 2072 oledRefreshGram := by
  rw [oledRefreshGram]
  simpa only [List.length_finRange] using Makes.forEach makes_refreshPage (List.finRange 8)

/-! ## Behind the command that selects a page -/

/-- What follows the selection of a page: bytes and the commands for the column. -/
def Access.Streams : Access → Prop
  | gram .. => True
  | wrByte dat cmd => cmd = oledData ∨ cmd = oledCmd ∧ dat.toNat ≤ 0x1F
  | _ => False

def pageRest (i : Fin 8) : Oled Unit := do
  oledWrByte 0x00 oledCmd
  oledWrByte 0x10 oledCmd
  forEach (sendByte i) (List.finRange 128)

theorem streams_pageRest (i : Fin 8) : (pageRest i).Only Access.Streams fun _ => True :=
  .act (.inr ⟨rfl, by decide⟩) fun _ => .act (.inr ⟨rfl, by decide⟩) fun _ =>
    Only.forEach fun _ _ => .act trivial fun _ => .act (.inl rfl) fun _ => .ret trivial

def Board.LowerShown (b : Board) : Prop :=
  ∀ p : Fin 8, p ≠ lastPage → ∀ n : Fin 128, b.controller.ram (p, n) = b.gram n p

structure Streaming (b : Board) : Prop where
  page : b.controller.page = lastPage
  lower : b.LowerShown

variable {panel : Panel}

theorem command_of_le (c : Controller) {dat : U8} (h : dat.toNat ≤ 0x1F) :
    (c.command dat).page = c.page ∧ (c.command dat).ram = c.ram := by
  rw [Controller.command, dif_neg (by omega)]
  split_ifs
  · exact ⟨rfl, rfl⟩
  · exact ⟨rfl, rfl⟩

theorem streaming_of_streams (op : Access) (hop : op.Streams) (b : Board) (hb : Streaming b) :
    Streaming (board panel op b).2 := by
  cases op with
  | gram x page => exact hb
  | wrByte dat cmd =>
    obtain rfl | ⟨rfl, hdat⟩ := hop
    · refine ⟨hb.page, fun p hp n => ?_⟩
      have hcell : (p, (n : ℕ)) ≠ (b.controller.page, b.controller.column) := by
        intro heq
        exact hp ((Prod.ext_iff.mp heq).1.trans hb.page)
      exact (Function.update_of_ne hcell _ _).trans (hb.lower p hp n)
    · obtain ⟨hpage, hram⟩ := command_of_le b.controller hdat
      exact ⟨hpage.trans hb.page, fun p hp n => (congrFun hram _).trans (hb.lower p hp n)⟩
  | _ => exact hop.elim

theorem key0_of_streams (op : Access) (_ : op.Streams) (b : Board) (hb : b.key0 = false) :
    (board panel op b).2.key0 = false := by
  cases op <;> exact hb

theorem Redrawn.streaming {b b' : Board} (h : Redrawn panel b b') : Streaming b' :=
  ⟨h.page, fun p _ n => h.shown p n⟩

/-! ## Before the last page -/

theorem lowerShown_pages (panel : Panel) {b : Board} (hb : b.LowerShown) (is : List (Fin 8)) :
    ({ b with controller := is.foldl (panel.pageSent b.gram) b.controller } : Board).LowerShown := by
  intro p hp n
  rw [ram_pagesSent, hb p hp n, ite_self]

theorem shown_lastPage (panel : Panel) {b : Board} (hb : b.LowerShown) :
    ({ b with controller := panel.pageSent b.gram b.controller lastPage } : Board).Shown := by
  intro p n
  rw [ram_pageSent]
  split_ifs with hp
  · rfl
  · exact hb p hp n

theorem run_preempt_page (panel : Panel) (font : Font) {b : Board} (hb : b.key0 = false) (i : Fin 8)
    {k : ℕ} (hk : k ≤ 259) :
    ∃ b', (preempt (exti4IrqHandler font) k (refreshPage i)).run (board panel) b = some ((), b') ∧
      b'.LowerShown := by
  cases k with
  | zero =>
    obtain ⟨b', hrun, hb'⟩ := run_handler_pressed panel font hb
    refine ⟨_, ?_, lowerShown_pages panel hb'.streaming.lower [i]⟩
    rw [run_preempt_zero hrun, run_refreshPage, List.foldl_cons, List.foldl_nil]
  | succ k =>
    have hmakes : Makes 258 (pageRest i) := .act fun _ => .act fun _ => makes_row i
    obtain ⟨_, b', hrun, hb'⟩ := (streams_pageRest i).preempt_run hmakes (Nat.le_of_succ_le_succ hk)
      streaming_of_streams key0_of_streams
      (fun s hs => (run_handler_pressed panel font hs).imp fun _ h => ⟨h.1, h.2.streaming⟩)
      (s := (board panel (.wrByte (0xB0 + BitVec.ofNat 8 i) oledCmd) b).2) hb
    exact ⟨b', hrun, hb'.lower⟩

theorem run_preempt_pages (panel : Panel) (font : Font) {b : Board} (hb : b.key0 = false)
    (is : List (Fin 8)) {k : ℕ} (hk : k ≤ is.length * 259) :
    ∃ b', (preempt (exti4IrqHandler font) k (forEach refreshPage is)).run (board panel) b =
      some ((), b') ∧ b'.LowerShown := by
  induction is generalizing b k with
  | nil =>
    obtain ⟨b', hrun, hb'⟩ := run_handler_pressed panel font hb
    refine ⟨b', ?_, hb'.streaming.lower⟩
    rw [Nat.le_zero.mp (hk.trans_eq (Nat.zero_mul 259)), run_preempt_zero hrun]
    rfl
  | cons i is ih =>
    rw [List.length_cons, Nat.succ_mul] at hk
    rw [forEach]
    by_cases hpage : k ≤ 259
    · obtain ⟨b', hrun, hb'⟩ := run_preempt_page panel font hb i hpage
      refine ⟨_, ?_, lowerShown_pages panel hb' is⟩
      rw [preempt_bind_of_le _ (makes_refreshPage i) hpage, run_bind_of hrun, run_refreshPages]
    · obtain ⟨j, rfl⟩ := Nat.exists_eq_add_of_le (Nat.le_of_not_le hpage)
      obtain ⟨b', hrun, hb'⟩ :=
        ih (b := { b with controller := panel.pageSent b.gram b.controller i }) hb (k := j) (by omega)
      refine ⟨b', ?_, hb'⟩
      rw [preempt_bind_add _ (makes_refreshPage i), run_bind_of (run_refreshPage b i), hrun]

/-! ## In the last page -/

theorem column_mod_sixteen (panel : Panel) : 128 % panel.columns % 16 = 0 := by
  obtain h | h := panel.wide.eq_or_lt
  · rw [← h]
  · rw [Nat.mod_eq_of_lt h]

theorem controller_at_lastPage {c : Controller} (hc : c.page = lastPage) :
    { c with column := 0 } = c.at lastPage := by
  rw [Controller.at, ← hc]

theorem command_high {c : Controller} (hc : c.column % 16 = 0) :
    c.command 0x10 = { c with column := 0 } := by
  change ({ c with column := 0 * 16 + c.column % 16 } : Controller) = _
  rw [hc]

def Board.sendCommand (b : Board) (dat : U8) : Board :=
  { b with controller := b.controller.command dat }

theorem key0_sendCommand {b : Board} (hb : b.key0 = false) (dat : U8) :
    (b.sendCommand dat).key0 = false := by simpa only [Board.sendCommand] using hb

theorem run_wrByte_cmd_bind (dat : U8) (f : Unit → Oled Unit) (b : Board) :
    (oledWrByte dat oledCmd >>= f).run (board panel) b =
      (f ()).run (board panel) (b.sendCommand dat) := rfl

theorem preempt_wrByte_bind (handler : Oled Unit) (k : ℕ) (dat cmd : U8) (f : Unit → Oled Unit) :
    preempt handler (k + 1) (oledWrByte dat cmd >>= f) =
      oledWrByte dat cmd >>= fun _ => preempt handler k (f ()) := rfl

theorem run_preempt_commands (panel : Panel) (font : Font) {b : Board} (hb : b.key0 = false) {k : ℕ}
    (hk : k < 3) : ∃ b₁, Redrawn panel b b₁ ∧
      (preempt (exti4IrqHandler font) k (pageCommands lastPage)).run (board panel) b =
        some ((), { b₁ with controller := b₁.controller.at lastPage }) := by
  interval_cases k
  · obtain ⟨b₁, hrun, hb₁⟩ := run_handler_pressed panel font hb
    refine ⟨b₁, hb₁, ?_⟩
    rw [run_preempt_zero hrun, run_pageCommands]
  · -- the page that the handler leaves is the one that has been selected
    obtain ⟨b₁, hrun, hb₁⟩ := run_handler_pressed panel font
      (b := b.sendCommand (0xB0 + BitVec.ofNat 8 lastPage)) (key0_sendCommand hb _)
    refine ⟨b₁, ⟨hb₁.top, hb₁.refreshed⟩, ?_⟩
    rw [← controller_at_lastPage hb₁.page, ← commands_column, pageCommands, preempt_wrByte_bind,
      run_wrByte_cmd_bind, run_preempt_zero hrun, run_wrByte_cmd_bind, run_wrByte_cmd]
    simp only [Board.sendCommand]
  · -- so does the column, whose low digit is zero
    obtain ⟨b₁, hrun, hb₁⟩ := run_handler_pressed panel font
      (b := (b.sendCommand (0xB0 + BitVec.ofNat 8 lastPage)).sendCommand 0x00)
      (key0_sendCommand (key0_sendCommand hb _) _)
    refine ⟨b₁, ⟨hb₁.top, hb₁.refreshed⟩, ?_⟩
    have hlow : b₁.controller.column % 16 = 0 := by rw [hb₁.column, column_mod_sixteen]
    rw [← controller_at_lastPage hb₁.page, ← command_high hlow, pageCommands, preempt_wrByte_bind,
      run_wrByte_cmd_bind, preempt_wrByte_bind, run_wrByte_cmd_bind, run_preempt_zero hrun,
      run_wrByte_cmd]

/-- The handler runs when `k / 2` bytes of the row have been sent, and the next one may have been
read already. -/
theorem run_preempt_row (panel : Panel) (font : Font) {b : Board} (hb : b.key0 = false)
    (ns : List (Fin 128)) {k : ℕ} (hk : k ≤ ns.length * 2) : ∃ b₁, Redrawn panel b b₁ ∧
      (preempt (exti4IrqHandler font) k (forEach (sendByte lastPage) ns)).run (board panel) b =
        some ((), { b₁ with
          controller :=
            panel.sendAll b₁.controller ((ns.drop (k / 2)).map fun n => b₁.gram n lastPage) }) := by
  induction ns generalizing b k with
  | nil =>
    obtain rfl : k = 0 := Nat.le_zero.mp (hk.trans_eq (Nat.zero_mul 2))
    obtain ⟨b₁, hrun, hb₁⟩ := run_handler_pressed panel font hb
    refine ⟨b₁, hb₁, ?_⟩
    rw [run_preempt_zero hrun, run_sendBytes]
    rfl
  | cons n ns ih =>
    obtain rfl | rfl | hk2 : k = 0 ∨ k = 1 ∨ 2 ≤ k := by omega
    · obtain ⟨b₁, hrun, hb₁⟩ := run_handler_pressed panel font hb
      refine ⟨b₁, hb₁, ?_⟩
      rw [run_preempt_zero hrun, run_sendBytes]
      rfl
    · obtain ⟨b₁, hrun, hb₁⟩ := run_handler_pressed panel font hb
      refine ⟨b₁, hb₁, ?_⟩
      change (exti4IrqHandler font >>= fun _ => oledWrByte (b.gram n lastPage) oledData >>= fun _ =>
        forEach (sendByte lastPage) ns).run (board panel) b = _
      -- the byte has been read before the redraw, which keeps it
      rw [run_bind_of hrun, ← hb₁.top n]
      exact run_sendBytes lastPage (n :: ns) b₁
    · obtain ⟨k, rfl⟩ := Nat.exists_eq_add_of_le hk2
      obtain ⟨b₁, hb₁, hrun⟩ :=
        ih (b := { b with controller := panel.data b.controller (b.gram n lastPage) }) hb (k := k)
          (by rw [List.length_cons] at hk; omega)
      refine ⟨b₁, ⟨hb₁.top, hb₁.refreshed⟩, ?_⟩
      rw [forEach, preempt_bind_add _ (makes_sendByte lastPage n), Nat.add_div_left k (by decide),
        List.drop_succ_cons, ← hrun]
      rfl

def Coincides (panel : Panel) (g : Gram) (sent : ℕ) : Prop :=
  ∀ (n : ℕ) (hn : sent + n < 128) (c : Fin 128), (128 + n) % panel.columns = c →
    g c lastPage = g ⟨sent + n, hn⟩ lastPage

theorem shown_iff_coincides {b b₁ : Board} (h : Redrawn panel b b₁) {sent : ℕ} (hsent : sent ≤ 128) :
    ({ b₁ with
      controller := panel.sendAll b₁.controller
        (((List.finRange 128).drop sent).map fun n => b₁.gram n lastPage) } : Board).Shown ↔
      Coincides panel b.gram sent := by
  have hcol : b₁.controller.column < panel.columns := by
    rw [h.column]
    exact Nat.mod_lt _ (columns_pos panel)
  have hlen : (((List.finRange 128).drop sent).map fun n => b₁.gram n lastPage).length =
      128 - sent := by simp
  have hle : (((List.finRange 128).drop sent).map fun n => b₁.gram n lastPage).length ≤ panel.columns := by
    have hwide := panel.wide
    omega
  have hcell (n : ℕ) : (b₁.controller.column + n) % panel.columns = (128 + n) % panel.columns := by
    rw [h.column, Nat.mod_add_mod]
  have hbyte {n : ℕ} (hn : sent + n < 128) : (panel.sendAll b₁.controller
      (((List.finRange 128).drop sent).map fun n => b₁.gram n lastPage)).ram
        (lastPage, (128 + n) % panel.columns) = b.gram ⟨sent + n, hn⟩ lastPage := by
    have hsend := ram_sendAll_of_lt hcol hle (k := n) (by omega)
    rw [h.page, hcell] at hsend
    rw [hsend, ← h.top]
    simp
  constructor
  · intro hshown n hn c hc
    rw [← hbyte hn, hc, ← h.top c]
    exact (hshown lastPage c).symm
  · intro hcoincides p c
    by_cases hhit : ∃ n, sent + n < 128 ∧ p = lastPage ∧ (128 + n) % panel.columns = c
    · obtain ⟨n, hn, rfl, hc⟩ := hhit
      change _ = b₁.gram c lastPage
      rw [← hc, hbyte hn, h.top, hcoincides n hn c hc]
    · have hmiss : ∀ n < (((List.finRange 128).drop sent).map fun n => b₁.gram n lastPage).length,
          (b₁.controller.page, (b₁.controller.column + n) % panel.columns) ≠ (p, (c : ℕ)) := by
        intro n hn heq
        obtain ⟨hpage, hcolumn⟩ := Prod.ext_iff.mp heq
        exact hhit ⟨n, by omega, hpage.symm.trans h.page, (hcell n).symm.trans hcolumn⟩
      exact (ram_sendAll_of_ne hcol hmiss).trans (h.shown p c)

/-! ## The whole refresh -/

def beforeLastRow : ℕ := 7 * 259 + 3

theorem makes_lowerPages : Makes (7 * 259) (forEach refreshPage lowerPages) :=
  Makes.forEach makes_refreshPage lowerPages

theorem refreshGram_eq : oledRefreshGram = forEach refreshPage lowerPages >>= fun _ =>
    pageCommands lastPage >>= fun _ => forEach (sendByte lastPage) (List.finRange 128) := by
  rw [oledRefreshGram, finRange_eight, forEach_append]
  exact congrArg _ (funext fun _ => bind_pure (refreshPage lastPage))

theorem early_shown (panel : Panel) (font : Font) {b : Board} (hb : b.key0 = false) {k : ℕ}
    (hk : k < beforeLastRow) :
    ∃ b', (preempt (exti4IrqHandler font) k oledRefreshGram).run (board panel) b = some ((), b') ∧
      b'.Shown := by
  rw [refreshGram_eq]
  by_cases hlower : k ≤ 7 * 259
  · obtain ⟨b', hrun, hb'⟩ := run_preempt_pages panel font hb lowerPages hlower
    refine ⟨_, ?_, shown_lastPage panel hb'⟩
    rw [preempt_bind_of_le _ makes_lowerPages hlower, run_bind_of hrun]
    exact run_refreshPage b' lastPage
  · obtain ⟨j, rfl⟩ := Nat.exists_eq_add_of_le (Nat.le_of_not_le hlower)
    have hj : j < 3 := Nat.lt_of_add_lt_add_left hk
    obtain ⟨b₁, hb₁, hrun⟩ := run_preempt_commands panel font
      (b := { b with controller := lowerPages.foldl (panel.pageSent b.gram) b.controller }) hb hj
    refine ⟨_, ?_, shown_lastPage panel hb₁.streaming.lower⟩
    rw [preempt_bind_add _ makes_lowerPages, run_bind_of (run_refreshPages lowerPages b),
      preempt_bind_of_le _ (makes_pageCommands lastPage) hj.le, run_bind_of hrun, run_sendBytes]
    rfl

theorem late_shown_iff (panel : Panel) (font : Font) {b : Board} (hb : b.key0 = false) {j : ℕ}
    (hj : j ≤ 256) :
    (∃ b', (preempt (exti4IrqHandler font) (beforeLastRow + j) oledRefreshGram).run (board panel) b =
      some ((), b') ∧ b'.Shown) ↔ Coincides panel b.gram (j / 2) := by
  obtain ⟨b₁, hb₁, hrun⟩ := run_preempt_row panel font
    (b := { b with controller := (lowerPages.foldl (panel.pageSent b.gram) b.controller).at lastPage })
    hb (List.finRange 128) (k := j) (by simpa using hj)
  have hsplit : (preempt (exti4IrqHandler font) (beforeLastRow + j) oledRefreshGram).run
      (board panel) b = some ((), { b₁ with
        controller := panel.sendAll b₁.controller
          (((List.finRange 128).drop (j / 2)).map fun n => b₁.gram n lastPage) }) := by
    rw [refreshGram_eq, beforeLastRow, add_assoc, preempt_bind_add _ makes_lowerPages,
      run_bind_of (run_refreshPages lowerPages b), preempt_bind_add _ (makes_pageCommands lastPage),
      run_bind_of (run_pageCommands _ lastPage), ← hrun]
  have hb₁' : Redrawn panel b b₁ := ⟨hb₁.top, hb₁.refreshed⟩
  rw [← shown_iff_coincides hb₁' (by omega), hsplit]
  constructor
  · rintro ⟨b', heq, hshown⟩
    rw [Option.some_inj, Prod.mk.injEq] at heq
    rwa [heq.2]
  · exact fun hshown => ⟨_, rfl, hshown⟩

/-- When the panel shows the picture after a refresh that the handler splits, at any access of the
refresh: the key is released, the last page is still to come, or the bytes that are still to be
sent fall on equal ones. -/
theorem interrupted_refresh_shown_iff (panel : Panel) (font : Font) (b : Board) (k : ℕ) :
    (∃ b', (preempt (exti4IrqHandler font) k oledRefreshGram).run (board panel) b = some ((), b') ∧
      b'.Shown) ↔
      b.key0 = true ∨ k < beforeLastRow ∨ Coincides panel b.gram ((k - beforeLastRow) / 2) := by
  have hwhole : ∃ b', oledRefreshGram.run (board panel) b = some ((), b') ∧ b'.Shown :=
    ⟨_, run_refreshGram b, ram_refreshed b.gram b.controller⟩
  cases hb : b.key0 with
  | true =>
    have hidle := run_preempt_idle (J := fun s : Board => s.key0 = true)
      (fun op s hs => by cases op <;> exact hs)
      (fun s hs => run_handler_released panel font hs) k oledRefreshGram hb
    rw [hidle]
    exact iff_of_true hwhole (.inl rfl)
  | false =>
    rw [or_iff_right Bool.false_ne_true]
    by_cases hearly : k < beforeLastRow
    · exact iff_of_true (early_shown panel font hb hearly) (.inl hearly)
    · rw [or_iff_right hearly]
      obtain ⟨j, rfl⟩ := Nat.exists_eq_add_of_le (Nat.le_of_not_lt hearly)
      rw [Nat.add_sub_cancel_left]
      by_cases hj : j ≤ 256
      · exact late_shown_iff panel font hb hj
      · have hpast : 2072 < beforeLastRow + j := by
          rw [beforeLastRow]
          omega
        rw [preempt_of_lt _ makes_refreshGram hpast]
        exact iff_of_true hwhole fun n hn => absurd hn (by omega)

/-- A panel without spare columns, and a picture with a bar in its corner. -/
def narrowPanel : Panel := ⟨128, le_rfl⟩

def cornerBar : Board where
  gram x page := if (x : ℕ) = 0 ∧ page = lastPage then 0xFF else 0
  controller := ⟨lastPage, 0, fun _ => 0⟩
  key0 := false
  presscnt := 0
  interfaceIndex := 0

def blankFont : Font := ⟨fun _ _ => 0, fun _ _ => 0, fun _ _ => 0⟩

/-- With one byte of the last page sent, the bar is overwritten by its neighbour. -/
theorem redraw_shifts_last_page :
    ¬ ∃ b', (preempt (exti4IrqHandler blankFont) (beforeLastRow + 2) oledRefreshGram).run
      (board narrowPanel) cornerBar = some ((), b') ∧ b'.Shown := by
  rw [late_shown_iff narrowPanel blankFont rfl (by decide)]
  intro h
  have hcorner := h 0 (by decide) 0 (by decide)
  exact absurd hcorner (by decide)

end EnvirMonitor.Display
