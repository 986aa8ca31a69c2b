import EnvirMonitor.Display.Framebuffer

/-! `OLED_RefreshGram` sends the picture page by page. Where a byte goes is kept by the controller
alone. -/

namespace EnvirMonitor.Display
open Machine Prog

def oledCmd : U8 := 0

def oledData : U8 := 1

def oledWrByte (dat cmd : U8) : Oled Unit := perform (Access.wrByte dat cmd)

def sendByte (i : Fin 8) (n : Fin 128) : Oled Unit := do
  let dat : U8 ← perform (Access.gram n i)
  oledWrByte dat oledData

def pageCommands (i : Fin 8) : Oled Unit := do
  oledWrByte (0xB0 + BitVec.ofNat 8 i) oledCmd
  oledWrByte 0x00 oledCmd
  oledWrByte 0x10 oledCmd

def refreshPage (i : Fin 8) : Oled Unit := do
  pageCommands i
  forEach (sendByte i) (List.finRange 128)

def oledRefreshGram : Oled Unit := forEach refreshPage (List.finRange 8)

/-! ## Bytes in a row -/

def Panel.sendAll (panel : Panel) (c : Controller) (bytes : List U8) : Controller :=
  bytes.foldl panel.data c

def Panel.cells (panel : Panel) (c : Controller) (n : ℕ) : List (Fin 8 × ℕ) :=
  (List.range n).map fun k => (c.page, (c.column + k) % panel.columns)

variable {panel : Panel}

theorem columns_pos (panel : Panel) : 0 < panel.columns := lt_of_lt_of_le (by decide) panel.wide

theorem page_sendAll (c : Controller) (bytes : List U8) : (panel.sendAll c bytes).page = c.page := by
  induction bytes generalizing c with
  | nil => rfl
  | cons byte bytes ih => exact ih (panel.data c byte)

theorem column_sendAll {c : Controller} (hc : c.column < panel.columns) (bytes : List U8) :
    (panel.sendAll c bytes).column = (c.column + bytes.length) % panel.columns := by
  induction bytes generalizing c with
  | nil => exact (Nat.mod_eq_of_lt hc).symm
  | cons byte bytes ih =>
    have hnext : (panel.data c byte).column < panel.columns := Nat.mod_lt _ (columns_pos panel)
    have hlen : c.column + 1 + bytes.length = c.column + (byte :: bytes).length := by
      rw [List.length_cons]
      omega
    calc (panel.sendAll (panel.data c byte) bytes).column
        = ((c.column + 1) % panel.columns + bytes.length) % panel.columns := ih hnext
      _ = (c.column + (byte :: bytes).length) % panel.columns := by rw [Nat.mod_add_mod, hlen]

theorem cells_succ {c : Controller} (hc : c.column < panel.columns) (byte : U8) (n : ℕ) :
    panel.cells c (n + 1) = (c.page, c.column) :: panel.cells (panel.data c byte) n := by
  have hrest (k : ℕ) : (c.column + 1) % panel.columns + k ≡ c.column + (k + 1) [MOD panel.columns] := by
    rw [add_comm k, ← add_assoc]
    exact (Nat.mod_modEq _ _).add_right k
  rw [Panel.cells, List.range_succ_eq_map, List.map_cons, List.map_map, Nat.add_zero,
    Nat.mod_eq_of_lt hc]
  exact congrArg _ (List.map_congr_left fun k _ => congrArg _ (hrest k).symm)

theorem ram_sendAll {c : Controller} (hc : c.column < panel.columns) (bytes : List U8) :
    (panel.sendAll c bytes).ram =
      writeCells (fun e => some e.1) Prod.snd c.ram ((panel.cells c bytes.length).zip bytes) := by
  induction bytes generalizing c with
  | nil => rfl
  | cons byte bytes ih =>
    have hnext : (panel.data c byte).column < panel.columns := Nat.mod_lt _ (columns_pos panel)
    rw [List.length_cons, cells_succ hc byte, List.zip_cons_cons, writeCells_cons]
    exact ih hnext

theorem nodup_cells (c : Controller) {n : ℕ} (hn : n ≤ panel.columns) : (panel.cells c n).Nodup := by
  refine List.Nodup.map_on ?_ List.nodup_range
  intro k hk j hj h
  rw [List.mem_range] at hk hj
  have hmod : k ≡ j [MOD panel.columns] := Nat.ModEq.add_left_cancel' _ (Prod.ext_iff.mp h).2
  exact hmod.eq_of_lt_of_lt (by omega) (by omega)

/-- Every byte of a row stands in its cell, as long as the row is not longer than the panel. -/
theorem ram_sendAll_of_lt {c : Controller} (hc : c.column < panel.columns) {bytes : List U8}
    (hlen : bytes.length ≤ panel.columns) {k : ℕ} (hk : k < bytes.length) :
    (panel.sendAll c bytes).ram (c.page, (c.column + k) % panel.columns) = bytes[k] := by
  have hcells : (panel.cells c bytes.length).length = bytes.length := by simp [Panel.cells]
  have hnodup : (((panel.cells c bytes.length).zip bytes).map fun e => some e.1).Nodup := by
    have hmap : ((panel.cells c bytes.length).zip bytes).map (fun e => some e.1) =
        (panel.cells c bytes.length).map some := by
      conv_rhs => rw [← List.map_fst_zip hcells.le, List.map_map]
      rfl
    rw [hmap]
    exact (nodup_cells c hlen).map (Option.some_injective _)
  have hmem : ((c.page, (c.column + k) % panel.columns), bytes[k]) ∈
      (panel.cells c bytes.length).zip bytes := by
    rw [List.mem_iff_getElem]
    exact ⟨k, by simpa [hcells] using hk, by simp [Panel.cells]⟩
  rw [ram_sendAll hc]
  exact writeCells_of_nodup hnodup hmem rfl

theorem ram_sendAll_of_ne {c : Controller} (hc : c.column < panel.columns) {bytes : List U8}
    {cell : Fin 8 × ℕ}
    (h : ∀ k < bytes.length, (c.page, (c.column + k) % panel.columns) ≠ cell) :
    (panel.sendAll c bytes).ram cell = c.ram cell := by
  rw [ram_sendAll hc]
  refine writeCells_of_forall_ne fun e he heq => ?_
  obtain ⟨k, hk, hcell⟩ := List.mem_map.mp (List.of_mem_zip he).1
  exact h k (List.mem_range.mp hk) (hcell.trans (Option.some.inj heq))

/-! ## Pages -/

def Controller.at (c : Controller) (i : Fin 8) : Controller := { c with page := i, column := 0 }

def Gram.row (g : Gram) (i : Fin 8) : List U8 := (List.finRange 128).map fun n => g n i

@[simp] theorem length_row (g : Gram) (i : Fin 8) : (g.row i).length = 128 := by simp [Gram.row]

theorem run_wrByte_cmd (b : Board) (dat : U8) : (oledWrByte dat oledCmd).run (board panel) b =
    some ((), { b with controller := b.controller.command dat }) := rfl

theorem command_page (c : Controller) (i : Fin 8) :
    c.command (0xB0 + BitVec.ofNat 8 i) = { c with page := i } := by
  fin_cases i <;> rfl

theorem commands_column (c : Controller) : (c.command 0x00).command 0x10 = { c with column := 0 } := by
  have hlow : c.command 0x00 = { c with column := c.column / 16 * 16 } := rfl
  have hzero : c.column / 16 * 16 % 16 = 0 := by omega
  rw [hlow]
  change ({ c with column := 0 * 16 + c.column / 16 * 16 % 16 } : Controller) = _
  rw [hzero]

theorem run_pageCommands (b : Board) (i : Fin 8) : (pageCommands i).run (board panel) b =
    some ((), { b with controller := b.controller.at i }) := by
  have hat : ((b.controller.command (0xB0 + BitVec.ofNat 8 i)).command 0x00).command 0x10 =
      b.controller.at i := by
    rw [commands_column, command_page]
    rfl
  rw [← hat]
  rfl

theorem run_sendBytes (i : Fin 8) (ns : List (Fin 128)) (b : Board) :
    (forEach (sendByte i) ns).run (board panel) b = some ((), { b with
      controller := panel.sendAll b.controller (ns.map fun n => b.gram n i) }) := by
  induction ns generalizing b with
  | nil => rfl
  | cons n ns ih => exact ih _

def Panel.pageSent (panel : Panel) (g : Gram) (c : Controller) (i : Fin 8) : Controller :=
  panel.sendAll (c.at i) (g.row i)

theorem run_refreshPage (b : Board) (i : Fin 8) : (refreshPage i).run (board panel) b =
    some ((), { b with controller := panel.pageSent b.gram b.controller i }) := by
  rw [refreshPage, run_bind_of (run_pageCommands b i), run_sendBytes]
  rfl

theorem run_refreshPages (is : List (Fin 8)) (b : Board) :
    (forEach refreshPage is).run (board panel) b = some ((), { b with
      controller := is.foldl (panel.pageSent b.gram) b.controller }) := by
  induction is generalizing b with
  | nil => rfl
  | cons i is ih =>
    rw [forEach, run_bind_of (run_refreshPage b i), ih, List.foldl_cons]

theorem ram_pageSent (g : Gram) (c : Controller) (i p : Fin 8) (n : Fin 128) :
    (panel.pageSent g c i).ram (p, n) = if p = i then g n p else c.ram (p, n) := by
  have hc : (c.at i).column < panel.columns := columns_pos panel
  split_ifs with hp
  · subst hp
    have hlen : (g.row p).length ≤ panel.columns := by
      rw [length_row]
      exact panel.wide
    have hn : (n : ℕ) < (g.row p).length := by
      rw [length_row]
      exact n.isLt
    have hcell : (p, (n : ℕ)) = ((c.at p).page, ((c.at p).column + n) % panel.columns) := by
      have hlt : (n : ℕ) < panel.columns := lt_of_lt_of_le n.isLt panel.wide
      rw [Controller.at, Nat.zero_add, Nat.mod_eq_of_lt hlt]
    rw [Panel.pageSent, hcell, ram_sendAll_of_lt hc hlen hn]
    simp [Gram.row]
  · exact ram_sendAll_of_ne hc fun k _ heq => hp (Prod.ext_iff.mp heq).1.symm

theorem ram_pagesSent (g : Gram) (is : List (Fin 8)) (c : Controller) (p : Fin 8) (n : Fin 128) :
    (is.foldl (panel.pageSent g) c).ram (p, n) = if p ∈ is then g n p else c.ram (p, n) := by
  induction is generalizing c with
  | nil => rfl
  | cons i is ih =>
    rw [List.foldl_cons, ih, ram_pageSent]
    by_cases hp : p ∈ is
    · rw [if_pos hp, if_pos (List.mem_cons_of_mem _ hp)]
    · rw [if_neg hp]
      exact if_congr (by simp [hp]) rfl rfl

def Board.Shown (b : Board) : Prop :=
  ∀ (p : Fin 8) (n : Fin 128), b.controller.ram (p, n) = b.gram n p

def Panel.refreshed (panel : Panel) (g : Gram) (c : Controller) : Controller :=
  (List.finRange 8).foldl (panel.pageSent g) c

theorem run_refreshGram (b : Board) : oledRefreshGram.run (board panel) b =
    some ((), { b with controller := panel.refreshed b.gram b.controller }) := run_refreshPages _ b

theorem ram_refreshed (g : Gram) (c : Controller) (p : Fin 8) (n : Fin 128) :
    (panel.refreshed g c).ram (p, n) = g n p := by
  rw [Panel.refreshed, ram_pagesSent, if_pos (List.mem_finRange p)]

abbrev lastPage : Fin 8 := 7

def lowerPages : List (Fin 8) := List.ofFn fun i : Fin 7 => i.castSucc

theorem finRange_eight : List.finRange 8 = lowerPages ++ [lastPage] := by decide

theorem position_refreshed (g : Gram) (c : Controller) :
    (panel.refreshed g c).page = lastPage ∧ (panel.refreshed g c).column = 128 % panel.columns := by
  rw [Panel.refreshed, finRange_eight, List.foldl_append, List.foldl_cons, List.foldl_nil, Panel.pageSent,
    page_sendAll, column_sendAll (columns_pos panel), length_row]
  exact ⟨rfl, congrArg (· % panel.columns) (Nat.zero_add 128)⟩

/-- The picture memory holds a picture whose pixels the calls set one at a time, and a refresh
takes it to the panel from any position. -/
theorem framebuffer_shows_picture (panel : Panel) (b : Board) :
    (∀ calls : List DrawCall, ∃ b', (drawAll calls).run (board panel) b = some ((), b') ∧
      ∀ p, b'.gram.picture p =
        (lastWriter DrawCall.pixel calls p).elim (b.gram.picture p) DrawCall.lit) ∧
    (∀ call : DrawCall, call.x.toNat > 127 ∨ call.y.toNat > 63 →
      (oledDrawPiont call.x call.y call.mode).run (board panel) b = some ((), b)) ∧
    ∃ b', oledRefreshGram.run (board panel) b = some ((), b') ∧ b'.gram = b.gram ∧
      ∀ (p : Fin 8) (c : Fin 128), b'.controller.ram (p, c) = b.gram c p := by
  refine ⟨fun calls => ?_, fun call hoff => ?_, ?_⟩
  · obtain ⟨g, hrun, hpicture⟩ := run_drawAll panel b calls
    exact ⟨_, hrun, fun p => (congrFun hpicture p).trans (writeCells_apply ..)⟩
  · rw [drawPiont_offScreen ((pixel_eq_none_iff call).mpr hoff)]
    rfl
  · exact ⟨_, run_refreshGram b, rfl, ram_refreshed b.gram b.controller⟩

end EnvirMonitor.Display
