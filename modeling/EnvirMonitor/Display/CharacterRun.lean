import EnvirMonitor.Display.Character

/-! `OLED_ShowString` as the list of its calls of `OLED_ShowChar`: where each cell lies, and where
the next one lies. -/

namespace EnvirMonitor.Display
open Machine Prog

/-- A call of `OLED_ShowChar`, and whether `OLED_Clear` is called just before it. -/
structure CharCall where
  cleared : Bool
  x : U8
  y : U8
  chr : U8

def CharCall.draw (font : Font) (mode size : U8) (call : CharCall) : Oled Unit := do
  (if call.cleared then oledClear else pure ())
  oledShowChar font call.x call.y mode size call.chr

def placed (size x y chr : U8) : CharCall :=
  if 64 < (lineBreak x y size).2.toNat + size.toNat then ⟨true, 0, 0, chr⟩
  else ⟨false, (lineBreak x y size).1, (lineBreak x y size).2, chr⟩

def printable (c : U8) : Bool := decide (0x20 ≤ c ∧ c ≤ 0x7E)

def charCalls (size : U8) : U8 → U8 → List U8 → List CharCall
  | _, _, [] => []
  | x, y, c :: p =>
    if printable c then
      placed size x y c :: charCalls size ((placed size x y c).x + size / 2) (placed size x y c).y p
    else []

theorem draw_cleared (font : Font) (mode size x y chr : U8) :
    CharCall.draw font mode size ⟨true, x, y, chr⟩ =
      oledClear >>= fun _ => oledShowChar font x y mode size chr := rfl

theorem draw_plain (font : Font) (mode size x y chr : U8) :
    CharCall.draw font mode size ⟨false, x, y, chr⟩ = oledShowChar font x y mode size chr := rfl

theorem oledShowString_eq (font : Font) (mode size : U8) (p : List U8) (x y : U8) :
    oledShowString font x y mode size p =
      forEach (CharCall.draw font mode size) (charCalls size x y p) := by
  induction p generalizing x y with
  | nil => rfl
  | cons c p ih =>
    unfold charCalls oledShowString printable
    by_cases hc : 0x20 ≤ c ∧ c ≤ 0x7E
    · rw [if_pos hc, if_pos (decide_eq_true hc), forEach]
      unfold placed
      by_cases hbottom : 64 < (lineBreak x y size).2.toNat + size.toNat
      · rw [if_pos hbottom, if_pos hbottom, ← ih, draw_cleared, Prog.bind_assoc]
      · rw [if_neg hbottom, if_neg hbottom, ← ih, draw_plain]
    · rw [if_neg hc, if_neg fun h => hc (of_decide_eq_true h)]
      rfl

/-- The loop takes the bytes up to the first one outside `' '..'~'`. -/
theorem chr_charCalls (size : U8) (p : List U8) (x y : U8) :
    (charCalls size x y p).map CharCall.chr = p.takeWhile printable := by
  induction p generalizing x y with
  | nil => rfl
  | cons c p ih =>
    unfold charCalls
    rw [List.takeWhile_cons]
    split_ifs with hc
    · rw [List.map_cons, ih]
      unfold placed
      split_ifs <;> rfl
    · rfl

/-! ## Cells -/

structure WholeCell (size : U8) (call : CharCall) : Prop where
  right : call.x.toNat + size.toNat / 2 ≤ 128
  bottom : call.y.toNat + size.toNat ≤ 64
  index : (call.chr - 0x20).toNat < 95

/-- `b` is the cell behind `a`: on its line, on the next line, or the first one of a blank screen. -/
def Follows (size : U8) (a b : CharCall) : Prop :=
  if a.x.toNat + size.toNat / 2 + size.toNat / 2 ≤ 128 then
    b.x.toNat = a.x.toNat + size.toNat / 2 ∧ b.y = a.y ∧ b.cleared = false
  else if a.y.toNat + size.toNat + size.toNat ≤ 64 then
    b.x = 0 ∧ b.y.toNat = a.y.toNat + size.toNat ∧ b.cleared = false
  else b.x = 0 ∧ b.y = 0 ∧ b.cleared = true

/-- `a` is the first cell of a string at `x`, `y`: there, or on the next line behind the right edge,
and the first one of a blank screen where the bottom is passed. -/
def Starts (size x y : U8) (a : CharCall) : Prop :=
  if x.toNat + size.toNat / 2 ≤ 128 ∧ y.toNat + size.toNat ≤ 64 then
    a.x = x ∧ a.y = y ∧ a.cleared = false
  else if 128 < x.toNat + size.toNat / 2 ∧ y.toNat + size.toNat + size.toNat ≤ 64 then
    a.x = 0 ∧ a.y.toNat = y.toNat + size.toNat ∧ a.cleared = false
  else a.x = 0 ∧ a.y = 0 ∧ a.cleared = true

/-- Where the code puts the cell: the line below has a `u8` position. -/
def LandsAt (size x y : U8) (a : CharCall) : Prop :=
  if x.toNat + size.toNat / 2 ≤ 128 ∧ y.toNat + size.toNat ≤ 64 then
    a.x = x ∧ a.y = y ∧ a.cleared = false
  else if 128 < x.toNat + size.toNat / 2 ∧ (y.toNat + size.toNat) % 256 + size.toNat ≤ 64 then
    a.x = 0 ∧ a.y.toNat = (y.toNat + size.toNat) % 256 ∧ a.cleared = false
  else a.x = 0 ∧ a.y = 0 ∧ a.cleared = true

/-- Behind the right edge the position of the line below passes 255. -/
def PassesTop (size x y : U8) : Prop :=
  128 < x.toNat + size.toNat / 2 ∧ 256 ≤ y.toNat + size.toNat

instance (size x y : U8) : Decidable (PassesTop size x y) := inferInstanceAs (Decidable (_ ∧ _))

theorem landsAt_iff {size x y : U8} (h : ¬ PassesTop size x y) (a : CharCall) :
    LandsAt size x y a ↔ Starts size x y a := by
  unfold LandsAt Starts
  by_cases hright : 128 < x.toNat + size.toNat / 2
  · rw [Nat.mod_eq_of_lt (not_le.mp fun hy => h ⟨hright, hy⟩)]
  · have hwrapped (m : ℕ) : ¬ (128 < x.toNat + size.toNat / 2 ∧ m ≤ 64) := fun h => hright h.1
    rw [if_neg (hwrapped _), if_neg (hwrapped _)]

theorem not_starts {size x y : U8} (hfont : HasFont size) (h : PassesTop size x y) {a : CharCall}
    (ha : LandsAt size x y a) : ¬ Starts size x y a := by
  have hle := hfont.le
  have hy := y.isLt
  obtain ⟨hright, hline⟩ := h
  have htop : (y.toNat + size.toNat) % 256 + size.toNat ≤ 64 := by omega
  rw [LandsAt, if_neg fun h => absurd h.1 (not_le.mpr hright), if_pos ⟨hright, htop⟩] at ha
  rw [Starts, if_neg fun h => absurd h.1 (not_le.mpr hright), if_neg (by omega)]
  exact fun hstart => Bool.false_ne_true (ha.2.2.symm.trans hstart.2.2)

theorem lineBreak_of_le {x y size : U8} (h : x.toNat + size.toNat / 2 ≤ 128) :
    lineBreak x y size = (x, y) := if_neg (not_lt.mpr h)

theorem lineBreak_of_lt {x y size : U8} (h : 128 < x.toNat + size.toNat / 2) :
    lineBreak x y size = (0, y + size) := if_pos h

theorem placed_landsAt (size x y chr : U8) : LandsAt size x y (placed size x y chr) := by
  unfold LandsAt placed
  by_cases hright : x.toNat + size.toNat / 2 ≤ 128
  · rw [lineBreak_of_le hright]
    by_cases hbottom : y.toNat + size.toNat ≤ 64
    · rw [if_pos ⟨hright, hbottom⟩, if_neg (not_lt.mpr hbottom)]
      exact ⟨rfl, rfl, rfl⟩
    · rw [if_neg fun h => hbottom h.2, if_neg fun h => absurd h.1 (not_lt.mpr hright),
        if_pos (not_le.mp hbottom)]
      exact ⟨rfl, rfl, rfl⟩
  · have hline : (y + size).toNat = (y.toNat + size.toNat) % 256 := BitVec.toNat_add y size
    rw [lineBreak_of_lt (not_le.mp hright), if_neg fun h => hright h.1]
    simp only [hline]
    by_cases hbottom : (y.toNat + size.toNat) % 256 + size.toNat ≤ 64
    · rw [if_pos ⟨not_le.mp hright, hbottom⟩, if_neg (not_lt.mpr hbottom)]
      exact ⟨rfl, hline, rfl⟩
    · rw [if_neg fun h => hbottom h.2, if_pos (not_le.mp hbottom)]
      exact ⟨rfl, rfl, rfl⟩

theorem index_of_printable {c : U8} (h : printable c = true) : (c - 0x20).toNat < 95 := by
  revert c
  decide +kernel

theorem chr_placed (size x y chr : U8) : (placed size x y chr).chr = chr := by
  unfold placed
  split_ifs <;> rfl

theorem placed_whole {size : U8} (hfont : HasFont size) (x y : U8) {chr : U8}
    (hchr : printable chr = true) : WholeCell size (placed size x y chr) := by
  have hle := hfont.le
  have hstart := placed_landsAt size x y chr
  have hindex := index_of_printable hchr
  rw [← chr_placed size x y chr] at hindex
  have hzero : (0 : U8).toNat = 0 := rfl
  unfold LandsAt at hstart
  split_ifs at hstart with hfits hline
  · obtain ⟨hx, hy, -⟩ := hstart
    refine ⟨?_, ?_, hindex⟩
    · rw [hx]
      exact hfits.1
    · rw [hy]
      exact hfits.2
  · obtain ⟨hx, hy, -⟩ := hstart
    refine ⟨?_, ?_, hindex⟩
    · rw [hx, hzero]
      omega
    · rw [hy]
      exact hline.2
  · obtain ⟨hx, hy, -⟩ := hstart
    refine ⟨?_, ?_, hindex⟩
    · rw [hx, hzero]
      omega
    · rw [hy, hzero]
      omega

/-- On from a whole cell the positions do not pass 255. -/
theorem placed_follows {size : U8} {a : CharCall} (ha : WholeCell size a) (hfont : HasFont size)
    (chr : U8) : Follows size a (placed size (a.x + size / 2) a.y chr) := by
  have hle := hfont.le
  have hright := ha.right
  have hbottom := ha.bottom
  have hx : (a.x + size / 2).toNat = a.x.toNat + size.toNat / 2 := toNat_add_half (by omega)
  have htop : ¬ PassesTop size (a.x + size / 2) a.y := fun h => absurd h.2 (by omega)
  have hstart := (landsAt_iff htop _).mp (placed_landsAt size (a.x + size / 2) a.y chr)
  unfold Starts at hstart
  unfold Follows
  rw [hx] at hstart
  by_cases hnext : a.x.toNat + size.toNat / 2 + size.toNat / 2 ≤ 128
  · rw [if_pos ⟨hnext, hbottom⟩] at hstart
    rw [if_pos hnext]
    obtain ⟨hxeq, hrest⟩ := hstart
    exact ⟨by rw [hxeq, hx], hrest⟩
  · rw [if_neg fun h => hnext h.1] at hstart
    rw [if_neg hnext]
    by_cases hline : a.y.toNat + size.toNat + size.toNat ≤ 64
    · rw [if_pos ⟨not_le.mp hnext, hline⟩] at hstart
      rw [if_pos hline]
      exact hstart
    · rw [if_neg fun h => hline h.2] at hstart
      rw [if_neg hline]
      exact hstart

/-! ## A blank screen -/

theorem run_clearPages (panel : Panel) (x : Fin 128) (pages : List (Fin 8)) (b : Board) :
    (forEach (fun y => perform (Access.setGram x y 0)) pages : Oled Unit).run (board panel) b =
      some ((), { b with gram := fun n page => if n = x ∧ page ∈ pages then 0 else b.gram n page }) := by
  induction pages generalizing b with
  | nil =>
    simp only [List.not_mem_nil, and_false, if_false]
    rfl
  | cons page pages ih =>
    rw [forEach, perform_bind, run_act]
    show (forEach _ pages : Oled Unit).run (board panel) (b.setGram x page 0) = _
    rw [ih]
    simp only [Board.setGram]
    congr 3
    funext n q
    by_cases hn : n = x
    · subst hn
      by_cases hq : q = page
      · simp [hq]
      · simp [hq]
    · simp [hn]

theorem run_clearColumns (panel : Panel) (columns : List (Fin 128)) (b : Board) :
    (forEach (fun x => forEach (fun y => perform (Access.setGram x y 0)) (List.finRange 8))
        columns : Oled Unit).run (board panel) b =
      some ((), { b with gram := fun n page => if n ∈ columns then 0 else b.gram n page }) := by
  induction columns generalizing b with
  | nil => simp [forEach]
  | cons x columns ih =>
    rw [forEach, run_bind_of (run_clearPages panel x (List.finRange 8) b), ih]
    congr 3
    funext n page
    by_cases hn : n ∈ columns
    · simp [hn]
    · simp [hn]

theorem run_oledClear (panel : Panel) (b : Board) : ∃ c, oledClear.run (board panel) b =
    some ((), { b with gram := fun _ _ => 0, controller := c }) := by
  have hclear := run_clearColumns panel (List.finRange 128) b
  simp only [List.mem_finRange, if_true] at hclear
  refine ⟨panel.refreshed (fun _ _ => 0) b.controller, ?_⟩
  rw [oledClear, run_bind_of hclear, run_refreshGram]

/-! ## Strings -/

theorem charCalls_whole {size : U8} (hfont : HasFont size) (p : List U8) (x y : U8) :
    ∀ call ∈ charCalls size x y p, WholeCell size call := by
  induction p generalizing x y with
  | nil => exact fun call hcall => absurd hcall List.not_mem_nil
  | cons c p ih =>
    unfold charCalls
    split_ifs with hc
    · exact List.forall_mem_cons.mpr ⟨placed_whole hfont x y hc, ih _ _⟩
    · exact fun call hcall => absurd hcall List.not_mem_nil

theorem charCalls_head (size : U8) (p : List U8) (x y : U8) :
    ∀ call ∈ (charCalls size x y p).head?, ∃ chr, call = placed size x y chr := by
  intro call hcall
  cases p with
  | nil => exact absurd hcall (Option.not_mem_none _)
  | cons c p =>
    unfold charCalls at hcall
    split_ifs at hcall with hc
    · exact ⟨c, (Option.some.inj hcall).symm⟩
    · exact absurd hcall (Option.not_mem_none _)

theorem charCalls_chain {size : U8} (hfont : HasFont size) (p : List U8) (x y : U8) :
    (charCalls size x y p).IsChain (Follows size) := by
  induction p generalizing x y with
  | nil => exact List.IsChain.nil
  | cons c p ih =>
    unfold charCalls
    split_ifs with hc
    · rw [List.isChain_cons]
      refine ⟨fun b hb => ?_, ih _ _⟩
      obtain ⟨chr, rfl⟩ := charCalls_head size p _ _ b hb
      exact placed_follows (placed_whole hfont x y hc) hfont chr
    · exact List.IsChain.nil

theorem run_draw (panel : Panel) (font : Font) (mode : U8) {size : U8} (hfont : HasFont size)
    {call : CharCall} (hwhole : WholeCell size call) (b : Board) :
    ∃ b', (call.draw font mode size).run (board panel) b = some ((), b') := by
  have hsize : call.y.toNat + size.toNat < 256 := by
    have hbottom := hwhole.bottom
    omega
  unfold CharCall.draw
  cases call.cleared with
  | true =>
    obtain ⟨c, hclear⟩ := run_oledClear panel b
    rw [if_pos rfl, run_bind_of hclear]
    obtain ⟨g, hrun, -⟩ := run_oledShowChar panel font
      { b with gram := fun _ _ => 0, controller := c } call.x mode call.chr hfont hsize
    exact ⟨_, hrun⟩
  | false =>
    obtain ⟨g, hrun, -⟩ := run_oledShowChar panel font b call.x mode call.chr hfont hsize
    exact ⟨_, hrun⟩

theorem run_draws (panel : Panel) (font : Font) (mode : U8) {size : U8} (hfont : HasFont size)
    {calls : List CharCall} (hwhole : ∀ call ∈ calls, WholeCell size call) (b : Board) :
    ∃ b', (forEach (CharCall.draw font mode size) calls).run (board panel) b = some ((), b') := by
  induction calls generalizing b with
  | nil => exact ⟨b, rfl⟩
  | cons call calls ih =>
    obtain ⟨hcall, hcalls⟩ := List.forall_mem_cons.mp hwhole
    obtain ⟨b', hdraw⟩ := run_draw panel font mode hfont hcall b
    rw [forEach, run_bind_of hdraw]
    exact ih hcalls b'

/-- The string is shown by these calls up to its first byte that has no glyph: all on the screen,
the first at the start, and each at its place behind the one before. -/
structure ShownWhole (x y size : U8) (p : List U8) (calls : List CharCall) : Prop where
  program : ∀ font mode, oledShowString font x y mode size p =
    forEach (CharCall.draw font mode size) calls
  chars : calls.map CharCall.chr = p.takeWhile printable
  whole : ∀ call ∈ calls, WholeCell size call
  first : ∀ call ∈ calls.head?, Starts size x y call
  next : calls.IsChain (Follows size)
  returns : ∀ panel font mode b, ∃ b',
    (oledShowString font x y mode size p).run (board panel) b = some ((), b')

theorem charCalls_cons (size x y : U8) {c : U8} (hc : printable c = true) (p : List U8) :
    (charCalls size x y (c :: p)).head? = some (placed size x y c) := by
  rw [charCalls, if_pos hc, List.head?_cons]

/-- The first cell of a string is at its place unless the position of the line below passes 255. -/
theorem first_starts_iff {size : U8} (hfont : HasFont size) (x y : U8) (p : List U8) :
    (∀ call ∈ (charCalls size x y p).head?, Starts size x y call) ↔
      ¬ ((∃ c ∈ p.head?, printable c = true) ∧ PassesTop size x y) := by
  constructor
  · rintro h ⟨⟨c, hhead, hc⟩, htop⟩
    obtain ⟨p, rfl⟩ := List.head?_eq_some_iff.mp hhead
    exact not_starts hfont htop (placed_landsAt size x y c) (h _ (charCalls_cons size x y hc p))
  · intro h call hcall
    cases p with
    | nil => exact absurd hcall (Option.not_mem_none _)
    | cons c p =>
      by_cases hc : printable c = true
      · have htop : ¬ PassesTop size x y := fun htop => h ⟨⟨c, rfl, hc⟩, htop⟩
        obtain rfl := Option.some.inj ((charCalls_cons size x y hc p).symm.trans hcall)
        exact (landsAt_iff htop _).mp (placed_landsAt size x y c)
      · rw [charCalls, if_neg hc] at hcall
        exact absurd hcall (Option.not_mem_none _)

/-- Every string, from every position and in every size. -/
theorem oledShowString_whole_iff {size : U8} (hfont : HasFont size) (x y : U8) (p : List U8) :
    ShownWhole x y size p (charCalls size x y p) ↔
      ¬ ((∃ c ∈ p.head?, printable c = true) ∧ PassesTop size x y) := by
  have hwhole := charCalls_whole hfont p x y
  rw [← first_starts_iff hfont x y p]
  refine ⟨ShownWhole.first, fun hfirst => ?_⟩
  constructor
  · exact fun font mode => oledShowString_eq font mode size p x y
  · exact chr_charCalls size p x y
  · exact hwhole
  · exact hfirst
  · exact charCalls_chain hfont p x y
  · intro panel font mode b
    rw [oledShowString_eq]
    exact run_draws panel font mode hfont hwhole b

/-- The first letter takes the last cell of the screen, the second one a blank screen, and the NUL
ends the string. -/
theorem oledShowString_whole_sample :
    ShownWhole 110 40 24 [0x41, 0x42, 0x00, 0x43] [⟨false, 110, 40, 0x41⟩, ⟨true, 0, 0, 0x42⟩] :=
  (oledShowString_whole_iff (Or.inr (Or.inr rfl)) 110 40 [0x41, 0x42, 0x00, 0x43]).mpr (by decide)

/-- Behind the right edge and below the screen: the letter is drawn in row 6, and nothing cleared. -/
theorem top_not_cleared : charCalls 12 200 250 [0x41] = [⟨false, 0, 6, 0x41⟩] ∧
    ¬ ShownWhole 200 250 12 [0x41] (charCalls 12 200 250 [0x41]) := by
  have hcalls : charCalls 12 200 250 [0x41] = [⟨false, 0, 6, 0x41⟩] := rfl
  refine ⟨hcalls, fun h => ?_⟩
  have hstart := h.first ⟨false, 0, 6, 0x41⟩ (by rw [hcalls]; rfl)
  simp [Starts] at hstart

end EnvirMonitor.Display
