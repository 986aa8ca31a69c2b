import EnvirMonitor.Display.Character

/-! `OLED_Fill` between any two corners. Its counters are bytes, and a corner may be the largest one. -/

namespace EnvirMonitor.Display
open Machine Prog

/-- `OLED_Fill`, whose loops test their conditions at most `fuel` times. -/
def oledFillFuel (fuel : ℕ) (x1 y1 x2 y2 mode : U8) : Oled Unit :=
  if x1 > x2 ∨ y1 > y2 then pure ()
  else do
    countTo x2 (fun xt => countTo y2 (fun yt => oledDrawPiont xt yt mode) fuel y1) fuel x1
    oledRefreshGram

theorem oledFillFuel_area (area : Area) (mode : U8) {fuel : ℕ} (hfuel : 256 ≤ fuel) :
    oledFillFuel fuel area.x1 area.y1 area.x2 area.y2 mode = oledFill area mode := by
  have hx := area.x2_lt
  have hy := area.y2_lt
  have hcolumn : (fun xt => countTo area.y2 (fun yt => oledDrawPiont xt yt mode) fuel area.y1) =
      fun xt => forEach (fun yt => oledDrawPiont xt yt mode) (values area.y1 area.y2) := by
    funext xt
    exact countTo_eq area.y2 _ (by omega) (by omega)
  unfold oledFillFuel oledFill
  rw [hcolumn, countTo_eq area.x2 _ (by omega) (by omega)]
  rfl

/-! ## The picture -/

def InCorners (x1 y1 x2 y2 : U8) (p : Fin 128 × Fin 64) : Prop :=
  x1.toNat ≤ p.1 ∧ (p.1 : ℕ) ≤ x2.toNat ∧ y1.toNat ≤ p.2 ∧ (p.2 : ℕ) ≤ y2.toNat

structure Filled (x1 y1 x2 y2 mode : U8) (before after : Picture) : Prop where
  inside : ∀ p, InCorners x1 y1 x2 y2 p → after p = decide (mode ≠ 0)
  outside : ∀ p, ¬ InCorners x1 y1 x2 y2 p → after p = before p

def fillCalls (area : Area) (mode : U8) : List DrawCall :=
  (values area.x1 area.x2).flatMap fun xt => (values area.y1 area.y2).map fun yt => ⟨xt, yt, mode⟩

theorem drawAll_map (xt mode : U8) (yts : List U8) :
    drawAll (yts.map fun yt => ⟨xt, yt, mode⟩) =
      forEach (fun yt => oledDrawPiont xt yt mode) yts := by
  induction yts with
  | nil => rfl
  | cons yt yts ih =>
    rw [List.map_cons, forEach, ← ih]
    rfl

theorem fillPixels_eq (area : Area) (mode : U8) :
    fillPixels area mode = drawAll (fillCalls area mode) := by
  unfold fillPixels fillCalls
  induction values area.x1 area.x2 with
  | nil => rfl
  | cons xt xts ih =>
    rw [forEach, ih, List.flatMap_cons, drawAll_append, drawAll_map]

theorem mem_fillCalls {area : Area} {mode : U8} {call : DrawCall} :
    call ∈ fillCalls area mode ↔ call.x ∈ values area.x1 area.x2 ∧ call.y ∈ values area.y1 area.y2 ∧
      call.mode = mode := by
  obtain ⟨x, y, m⟩ := call
  unfold fillCalls
  simp only [List.mem_flatMap, List.mem_map, DrawCall.mk.injEq]
  constructor
  · rintro ⟨xt, hxt, yt, hyt, rfl, rfl, rfl⟩
    exact ⟨hxt, hyt, rfl⟩
  · rintro ⟨hx, hy, rfl⟩
    exact ⟨x, hx, y, hy, rfl, rfl, rfl⟩

theorem filled_fillCalls (area : Area) (mode : U8) (before : Picture) :
    Filled area.x1 area.y1 area.x2 area.y2 mode before
      (writeCells DrawCall.pixel DrawCall.lit before (fillCalls area mode)) := by
  constructor
  · intro p hp
    obtain ⟨hx1, hx2, hy1, hy2⟩ := hp
    have hx : (BitVec.ofNat 8 (p.1 : ℕ)).toNat = p.1 :=
      toNat_ofNat_of_lt (p.1.isLt.trans (by norm_num))
    have hy : (BitVec.ofNat 8 (p.2 : ℕ)).toNat = p.2 :=
      toNat_ofNat_of_lt (p.2.isLt.trans (by norm_num))
    apply writeCells_of_agree
    · refine ⟨⟨BitVec.ofNat 8 p.1, BitVec.ofNat 8 p.2, mode⟩, mem_fillCalls.mpr ⟨?_, ?_, rfl⟩, ?_⟩
      · apply mem_values_iff.mpr
        rw [hx]
        exact ⟨hx1, hx2⟩
      · apply mem_values_iff.mpr
        rw [hy]
        exact ⟨hy1, hy2⟩
      · exact (pixel_eq_some_iff _ p).mpr ⟨hx, hy⟩
    · intro call hcall _
      rw [DrawCall.lit, (mem_fillCalls.mp hcall).2.2]
  · intro p hp
    apply writeCells_of_forall_ne
    intro call hcall hpixel
    obtain ⟨hx, hy⟩ := (pixel_eq_some_iff call p).mp hpixel
    obtain ⟨hxt, hyt, -⟩ := mem_fillCalls.mp hcall
    apply hp
    unfold InCorners
    rw [← hx, ← hy, ← and_assoc]
    exact ⟨mem_values_iff.mp hxt, mem_values_iff.mp hyt⟩

theorem run_oledFill (panel : Panel) (b : Board) (area : Area) (hx : ¬ area.x1 > area.x2)
    (hy : ¬ area.y1 > area.y2) (mode : U8) :
    ∃ g, (oledFill area mode).run (board panel) b =
        some ((), { b with gram := g, controller := panel.refreshed g b.controller }) ∧
      Filled area.x1 area.y1 area.x2 area.y2 mode b.gram.picture g.picture := by
  obtain ⟨g, hrun, hpicture⟩ := run_drawAll panel b (fillCalls area mode)
  refine ⟨g, ?_, ?_⟩
  · rw [oledFill, if_neg (not_or.mpr ⟨hx, hy⟩), fillPixels_eq, run_bind_of hrun, run_refreshGram]
  · rw [hpicture]
    exact filled_fillCalls area mode b.gram.picture

/-! ## The corner at 255 -/

/-- A column whose counter cannot pass `y2` does not end, nor do the columns. -/
theorem run_fill_never (panel : Panel) (b : Board) (x1 y1 x2 y2 : U8) (hx : x1 ≤ x2) (hy : y1 ≤ y2)
    (hedge : x2 = 255 ∨ y2 = 255) (mode : U8) (fuel : ℕ) :
    (oledFillFuel fuel x1 y1 x2 y2 mode).run (board panel) b = none := by
  have hcorners : ¬ (x1 > x2 ∨ y1 > y2) :=
    not_or.mpr ⟨BitVec.not_lt.mpr hx, BitVec.not_lt.mpr hy⟩
  have hloops : (countTo x2 (fun xt => countTo y2 (fun yt => oledDrawPiont xt yt mode) fuel y1)
      fuel x1).run (board panel) b = none := by
    rcases hedge with rfl | rfl
    · exact countTo_never 255 _ rfl (board panel) fuel x1 b
    · apply countTo_stuck x2 _ hx
      exact countTo_never 255 _ rfl (board panel) fuel y1 b
  rw [oledFillFuel, if_neg hcorners, run_bind, hloops]
  rfl

/-- The function returns, whatever the number of tests allowed from some number on; between corners
in order it has filled what is on the screen and sent it, and otherwise done nothing. -/
def FillsExactly (panel : Panel) (b : Board) (x1 y1 x2 y2 mode : U8) : Prop :=
  ∃ b', (∃ n, ∀ fuel, n ≤ fuel →
      (oledFillFuel fuel x1 y1 x2 y2 mode).run (board panel) b = some ((), b')) ∧
    (x1 ≤ x2 ∧ y1 ≤ y2 → Filled x1 y1 x2 y2 mode b.gram.picture b'.gram.picture ∧
      b' = { b with gram := b'.gram, controller := panel.refreshed b'.gram b.controller }) ∧
    (¬ (x1 ≤ x2 ∧ y1 ≤ y2) → b' = b)

/-- All corners, all modes, from every picture. -/
theorem oledFill_exactly_iff (panel : Panel) (b : Board) (x1 y1 x2 y2 mode : U8) :
    FillsExactly panel b x1 y1 x2 y2 mode ↔ (x1 ≤ x2 → y1 ≤ y2 → x2 ≠ 255 ∧ y2 ≠ 255) := by
  constructor
  · rintro ⟨b', ⟨n, hrun⟩, -⟩ hx hy
    by_contra hedge
    rw [← not_or, not_not] at hedge
    have hnever := run_fill_never panel b x1 y1 x2 y2 hx hy hedge mode n
    rw [hrun n le_rfl] at hnever
    exact absurd hnever (Option.some_ne_none _)
  · intro hedge
    by_cases hcorners : x1 ≤ x2 ∧ y1 ≤ y2
    · obtain ⟨hx2, hy2⟩ := hedge hcorners.1 hcorners.2
      have hlast {c : U8} (hc : c ≠ 255) : c.toNat < 255 := by
        have hlt := c.isLt
        have hne : c.toNat ≠ (255 : U8).toNat := fun h => hc (BitVec.eq_of_toNat_eq h)
        change c.toNat ≠ 255 at hne
        omega
      let area : Area := ⟨x1, y1, x2, y2, hlast hx2, hlast hy2⟩
      obtain ⟨g, hrun, hfilled⟩ := run_oledFill panel b area (BitVec.not_lt.mpr hcorners.1)
        (BitVec.not_lt.mpr hcorners.2) mode
      refine ⟨{ b with gram := g, controller := panel.refreshed g b.controller },
        ⟨256, fun fuel hfuel => ?_⟩, fun _ => ⟨hfilled, rfl⟩, fun h => absurd hcorners h⟩
      exact (congrArg (fun p => p.run (board panel) b) (oledFillFuel_area area mode hfuel)).trans hrun
    · refine ⟨b, ⟨0, fun fuel _ => ?_⟩, fun h => absurd h hcorners, fun _ => rfl⟩
      have hout : x1 > x2 ∨ y1 > y2 := by
        rw [not_and_or] at hcorners
        exact hcorners.imp BitVec.not_le.mp BitVec.not_le.mp
      rw [oledFillFuel, if_pos hout]
      rfl

/-- The leftmost column, down to the last row that a byte can name. -/
theorem oledFill_endless :
    ¬ FillsExactly ⟨128, le_rfl⟩ (sampleBoard ⟨0, 0, fun _ => 0⟩ fun _ _ => 0) 0 0 0 255 1 := by
  rintro ⟨b', ⟨n, hrun⟩, -⟩
  have hnever := run_fill_never ⟨128, le_rfl⟩ (sampleBoard ⟨0, 0, fun _ => 0⟩ fun _ _ => 0)
    0 0 0 255 (by decide) (by decide) (Or.inr rfl) 1 n
  rw [hrun n le_rfl] at hnever
  exact absurd hnever (Option.some_ne_none _)

end EnvirMonitor.Display
