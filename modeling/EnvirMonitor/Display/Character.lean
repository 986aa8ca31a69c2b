import EnvirMonitor.Display.Text

/-! `OLED_ShowChar` as a list of pixels: column after column, from the top row down, each with its
bit of the glyph. -/

namespace EnvirMonitor.Display
open Machine Prog

def HasFont (size : U8) : Prop := size = 12 ∨ size = 16 ∨ size = 24

instance (size : U8) : Decidable (HasFont size) := inferInstanceAs (Decidable (_ ∨ _))

def columnBytes (size : U8) : ℕ := (size.toNat + 7) / 8

def Font.glyph (font : Font) (size chr : U8) (t : ℕ) : U8 :=
  (font.byte size (chr - 0x20) t).getD 0

def Font.bit (font : Font) (size chr : U8) (i j : ℕ) : Bool :=
  (font.glyph size chr (i * columnBytes size + j / 8)).getLsbD (7 - j % 8)

def inkMode (mode : U8) (bit : Bool) : U8 := if bit then mode else if mode = 0 then 1 else 0

theorem HasFont.byte {size : U8} (h : HasFont size) (font : Font) (chr : U8) (t : ℕ) :
    font.byte size (chr - 0x20) t = some (font.glyph size chr t) := by
  rcases h with rfl | rfl | rfl <;> rfl

theorem HasFont.csize {size : U8} (h : HasFont size) :
    (csize size).toNat = columnBytes size * (size.toNat / 2) := by
  rcases h with rfl | rfl | rfl <;> rfl

theorem HasFont.pos {size : U8} (h : HasFont size) : 0 < size.toNat := by
  rcases h with rfl | rfl | rfl <;> decide

theorem HasFont.le {size : U8} (h : HasFont size) : size.toNat ≤ 24 := by
  rcases h with rfl | rfl | rfl <;> decide

/-! ## The bits of one byte -/

def rowDot (x ysize mode : U8) (ink : ℕ → Bool) (j : ℕ) : DrawCall :=
  ⟨x, ysize + BitVec.ofNat 8 j, inkMode mode (ink j)⟩

theorem drawAll_append (calls calls' : List DrawCall) :
    drawAll (calls ++ calls') = drawAll calls >>= fun _ => drawAll calls' := forEach_append ..

theorem toNat_add_ofNat {y : U8} {j : ℕ} (h : y.toNat + j < 256) :
    (y + BitVec.ofNat 8 j).toNat = y.toNat + j := by
  have hj : (BitVec.ofNat 8 j).toNat = j := toNat_ofNat_of_lt (by omega)
  rw [BitVec.toNat_add_of_lt (by rw [hj]; exact h), hj]

theorem add_ofNat_succ (y : U8) (j : ℕ) :
    y + BitVec.ofNat 8 j + 1 = y + BitVec.ofNat 8 (j + 1) := by
  rw [BitVec.add_assoc, ofNat_add_one]

/-- The top bit is the sign of the byte, and the next one takes its place. -/
theorem and_top_ne_zero_iff (temp : U8) : temp &&& 0x80 ≠ 0 ↔ temp.getLsbD 7 = true := by
  revert temp
  decide +kernel

/-- What is left of a byte from row `j` on, when its bits are those of the rows. The column may end
before the byte does. -/
theorem showBits_eq (mode x : U8) {size ysize : U8} (hsize : ysize.toNat + size.toNat < 256)
    {ink : ℕ → Bool} {turns j : ℕ} (hturns : turns ≤ 8) (hj : j < size.toNat) {temp : U8}
    (hbits : ∀ k < turns, temp.getLsbD (7 - k) = ink (j + k)) :
    showBits mode size ysize turns temp x (ysize + BitVec.ofNat 8 j) =
      drawAll ((List.range' j (min turns (size.toNat - j))).map (rowDot x ysize mode ink)) >>=
        fun _ => pure (if size.toNat ≤ j + turns then (x + 1, ysize)
          else (x, ysize + BitVec.ofNat 8 (j + turns))) := by
  induction turns generalizing j temp with
  | zero =>
    rw [Nat.zero_min, Nat.add_zero, if_neg (not_le.mpr hj)]
    rfl
  | succ turns ih =>
    have hbit : temp &&& 0x80 ≠ 0 ↔ ink j = true := by
      rw [and_top_ne_zero_iff]
      exact iff_of_eq (congrArg (· = true) (hbits 0 (Nat.succ_pos turns)))
    have hink : (if temp &&& 0x80 ≠ 0 then mode else if mode = 0 then 1 else 0) =
        inkMode mode (ink j) := if_congr hbit rfl rfl
    have hend : (ysize + BitVec.ofNat 8 j + 1).toNat = ysize.toNat + (j + 1) := by
      rw [add_ofNat_succ]
      exact toNat_add_ofNat (by omega)
    have hmin : min (turns + 1) (size.toNat - j) = min turns (size.toNat - (j + 1)) + 1 := by omega
    rw [showBits, hink, hend, hmin, List.range'_succ, List.map_cons, drawAll, forEach, Prog.bind_assoc]
    apply congrArg (oledDrawPiont x (ysize + BitVec.ofNat 8 j) (inkMode mode (ink j)) >>= ·)
    funext _
    by_cases hlast : j + 1 = size.toNat
    · rw [if_pos (by rw [hlast]), hlast, Nat.sub_self, Nat.min_zero, if_pos (by omega)]
      rfl
    · have hnext : ∀ k < turns, (temp <<< 1).getLsbD (7 - k) = ink (j + 1 + k) := by
        intro k hk
        have hshift : (temp <<< 1).getLsbD (7 - k) = temp.getLsbD (7 - (k + 1)) := by
          rw [BitVec.getLsbD_shiftLeft]
          have hbound : 7 - k < 8 := by omega
          have hpos : ¬ 7 - k < 1 := by omega
          simp only [hbound, hpos, decide_true, decide_false, Bool.not_false, Bool.true_and,
            Nat.sub_sub]
        rw [hshift, hbits (k + 1) (Nat.succ_lt_succ hk), Nat.add_right_comm, Nat.add_assoc]
      rw [if_neg (by omega), add_ofNat_succ, ih (by omega) (by omega) hnext, Nat.add_assoc,
        Nat.add_comm 1 turns]
      rfl

/-! ## Columns -/

section
variable (font : Font) (mode chr : U8) {size ysize : U8}

theorem glyph_bits (size : U8) (i m : ℕ) {k : ℕ} (hk : k < 8) :
    (font.glyph size chr (i * columnBytes size + m)).getLsbD (7 - k) =
      font.bit size chr i (8 * m + k) := by
  have hdiv : (8 * m + k) / 8 = m := by omega
  have hmod : (8 * m + k) % 8 = k := by omega
  rw [Font.bit, hdiv, hmod]

theorem showBytes_column (hfont : HasFont size) (hsize : ysize.toNat + size.toNat < 256)
    (i rest : ℕ) (x : U8) {m r : ℕ} (hm : m + (r + 1) = columnBytes size) :
    showBytes font mode size ysize (chr - 0x20) (r + 1 + rest) (i * columnBytes size + m) x
        (ysize + BitVec.ofNat 8 (8 * m)) =
      drawAll ((List.range' (8 * m) (size.toNat - 8 * m)).map
          (rowDot x ysize mode (font.bit size chr i))) >>=
        fun _ => showBytes font mode size ysize (chr - 0x20) rest ((i + 1) * columnBytes size)
          (x + 1) ysize := by
  have hcolumn : columnBytes size = (size.toNat + 7) / 8 := rfl
  induction r generalizing m with
  | zero =>
    have hmin : min 8 (size.toNat - 8 * m) = size.toNat - 8 * m := by omega
    have hnext : i * columnBytes size + m + 1 = (i + 1) * columnBytes size := by
      rw [Nat.succ_mul]
      omega
    rw [Nat.zero_add, Nat.add_comm 1 rest, showBytes, hfont.byte, Option.elim_some,
      showBits_eq mode x hsize le_rfl (by omega) (fun k hk => glyph_bits font chr size i m hk),
      hmin, if_pos (by omega), Prog.bind_assoc, hnext]
    rfl
  | succ r ih =>
    have hmin : min 8 (size.toNat - 8 * m) = 8 := by omega
    have hsplit : List.range' (8 * m) (size.toNat - 8 * m) =
        List.range' (8 * m) 8 ++ List.range' (8 * (m + 1)) (size.toNat - 8 * (m + 1)) := by
      have hlen : size.toNat - 8 * m = 8 + (size.toNat - 8 * (m + 1)) := by omega
      rw [hlen, ← List.range'_append_1]
      rfl
    rw [Nat.add_right_comm, showBytes, hfont.byte, Option.elim_some,
      showBits_eq mode x hsize le_rfl (by omega) (fun k hk => glyph_bits font chr size i m hk),
      hmin, if_neg (by omega), Prog.bind_assoc, hsplit, List.map_append, drawAll_append,
      Prog.bind_assoc, ← ih (by omega)]
    rfl

def columnDots (size x ysize : U8) (i : ℕ) : List DrawCall :=
  (List.range size.toNat).map (rowDot (x + BitVec.ofNat 8 i) ysize mode (font.bit size chr i))

theorem showBytes_columns (hfont : HasFont size) (hsize : ysize.toNat + size.toNat < 256) (x : U8)
    (cols i : ℕ) :
    showBytes font mode size ysize (chr - 0x20) (columnBytes size * cols) (i * columnBytes size)
        (x + BitVec.ofNat 8 i) ysize =
      drawAll ((List.range' i cols).flatMap (columnDots font mode chr size x ysize)) := by
  induction cols generalizing i with
  | zero => rfl
  | succ cols ih =>
    have hpos := hfont.pos
    obtain ⟨r, hr⟩ : ∃ r, columnBytes size = r + 1 := by
      apply Nat.exists_eq_succ_of_ne_zero
      unfold columnBytes
      omega
    have hturns : columnBytes size * (cols + 1) = r + 1 + columnBytes size * cols := by
      rw [Nat.mul_succ, hr, Nat.add_comm]
    have hcolumn := showBytes_column font mode chr hfont hsize i (columnBytes size * cols)
      (x + BitVec.ofNat 8 i) (m := 0) (r := r) (by omega)
    have htop : ysize + BitVec.ofNat 8 (8 * 0) = ysize := BitVec.add_zero _
    rw [Nat.add_zero (i * columnBytes size), htop, add_ofNat_succ, ih] at hcolumn
    rw [hturns, hcolumn, List.range'_succ, List.flatMap_cons, drawAll_append, Nat.mul_zero,
      Nat.sub_zero, ← List.range_eq_range']
    rfl

end

def charDots (font : Font) (x y mode size chr : U8) : List DrawCall :=
  (List.range (size.toNat / 2)).flatMap (columnDots font mode chr size x y)

theorem oledShowChar_eq (font : Font) (x mode chr : U8) {y size : U8} (hfont : HasFont size)
    (hsize : y.toNat + size.toNat < 256) :
    oledShowChar font x y mode size chr = drawAll (charDots font x y mode size chr) := by
  have hcolumns := showBytes_columns font mode chr hfont hsize x (size.toNat / 2) 0
  have hleft : x + BitVec.ofNat 8 0 = x := BitVec.add_zero _
  rw [hleft, Nat.zero_mul, ← List.range_eq_range'] at hcolumns
  rw [oledShowChar, hfont.csize, hcolumns]
  rfl

/-! ## The picture -/

/-- The pixels of the cell show the glyph, lit where `mode` and the bit say so; all others stay. -/
structure Painted (font : Font) (x y mode size chr : U8) (before after : Picture) : Prop where
  cell : ∀ i < size.toNat / 2, ∀ j < size.toNat, ∀ p : Fin 128 × Fin 64,
    (p.1 : ℕ) = x.toNat + i → (p.2 : ℕ) = y.toNat + j →
      after p = if font.bit size chr i j then decide (mode ≠ 0) else !decide (mode ≠ 0)
  rest : ∀ p : Fin 128 × Fin 64, (¬ ∃ i < size.toNat / 2, ∃ j < size.toNat,
    (p.1 : ℕ) = x.toNat + i ∧ (p.2 : ℕ) = y.toNat + j) → after p = before p

theorem lit_inkMode (mode : U8) (bit : Bool) : decide (inkMode mode bit ≠ 0) =
    if bit then decide (mode ≠ 0) else !decide (mode ≠ 0) := by
  unfold inkMode
  cases bit with
  | true => rfl
  | false => by_cases hmode : mode = 0 <;> simp [hmode]

theorem mem_charDots {font : Font} {x y mode size chr : U8} {call : DrawCall} :
    call ∈ charDots font x y mode size chr ↔ ∃ i < size.toNat / 2, ∃ j < size.toNat,
      call = rowDot (x + BitVec.ofNat 8 i) y mode (font.bit size chr i) j := by
  unfold charDots columnDots
  simp only [List.mem_flatMap, List.mem_map, List.mem_range, eq_comm]

theorem pixel_rowDot {x y : U8} (mode : U8) (ink : ℕ → Bool) {i j : ℕ} (hx : x.toNat + i < 256)
    (hy : y.toNat + j < 256) (p : Fin 128 × Fin 64) :
    (rowDot (x + BitVec.ofNat 8 i) y mode ink j).pixel = some p ↔
      (p.1 : ℕ) = x.toNat + i ∧ (p.2 : ℕ) = y.toNat + j := by
  unfold rowDot
  rw [pixel_eq_some_iff]
  simp only [toNat_add_ofNat hx, toNat_add_ofNat hy]
  exact and_congr eq_comm eq_comm

theorem painted_charDots (font : Font) {x y : U8} (mode chr : U8) {size : U8} (hx : x.toNat ≤ 127)
    (hy : y.toNat ≤ 63) (hfont : HasFont size) (before : Picture) :
    Painted font x y mode size chr before
      (writeCells DrawCall.pixel DrawCall.lit before (charDots font x y mode size chr)) := by
  have hle := hfont.le
  constructor
  · intro i hi j hj p hpx hpy
    apply writeCells_of_agree
    · refine ⟨_, mem_charDots.mpr ⟨i, hi, j, hj, rfl⟩, ?_⟩
      exact (pixel_rowDot mode _ (by omega) (by omega) p).mpr ⟨hpx, hpy⟩
    · intro call hcall hpixel
      obtain ⟨i', hi', j', hj', rfl⟩ := mem_charDots.mp hcall
      obtain ⟨hpx', hpy'⟩ := (pixel_rowDot mode _ (by omega) (by omega) p).mp hpixel
      obtain rfl : i' = i := by omega
      obtain rfl : j' = j := by omega
      exact lit_inkMode mode (font.bit size chr i' j')
  · intro p hp
    apply writeCells_of_forall_ne
    intro call hcall hpixel
    obtain ⟨i, hi, j, hj, rfl⟩ := mem_charDots.mp hcall
    exact hp ⟨i, hi, j, hj, (pixel_rowDot mode _ (by omega) (by omega) p).mp hpixel⟩

theorem run_oledShowChar (panel : Panel) (font : Font) (b : Board) (x mode chr : U8) {y size : U8}
    (hfont : HasFont size) (hsize : y.toNat + size.toNat < 256) :
    ∃ g, (oledShowChar font x y mode size chr).run (board panel) b = some ((), { b with gram := g }) ∧
      g.picture = writeCells DrawCall.pixel DrawCall.lit b.gram.picture
        (charDots font x y mode size chr) := by
  rw [oledShowChar_eq font x mode chr hfont hsize]
  exact run_drawAll panel b (charDots font x y mode size chr)

/-- From every picture, at every position on the screen, also where the cell is clipped. -/
theorem oledShowChar_paints (panel : Panel) (font : Font) (b : Board) {x y : U8} (mode chr : U8)
    {size : U8} (hx : x.toNat ≤ 127) (hy : y.toNat ≤ 63) (hfont : HasFont size) :
    ∃ g, (oledShowChar font x y mode size chr).run (board panel) b = some ((), { b with gram := g }) ∧
      Painted font x y mode size chr b.gram.picture g.picture := by
  have hle := hfont.le
  have hsize : y.toNat + size.toNat < 256 := by omega
  obtain ⟨g, hrun, hpicture⟩ := run_oledShowChar panel font b x mode chr hfont hsize
  refine ⟨g, hrun, ?_⟩
  rw [hpicture]
  exact painted_charDots font mode chr hx hy hfont b.gram.picture

def sampleBoard (controller : Controller) (gram : Gram) : Board := ⟨gram, controller, true, 0, 0⟩

/-- A corner of the screen, where most of the cell is clipped. -/
theorem oledShowChar_paints_sample :
    ∃ g, (oledShowChar ⟨fun _ _ => 0xFF, fun _ _ => 0, fun _ _ => 0⟩ 125 60 1 12 0x41).run
        (board ⟨128, le_rfl⟩) (sampleBoard ⟨0, 0, fun _ => 0⟩ fun _ _ => 0x5A) =
          some ((), sampleBoard ⟨0, 0, fun _ => 0⟩ g) ∧
      Painted ⟨fun _ _ => 0xFF, fun _ _ => 0, fun _ _ => 0⟩ 125 60 1 12 0x41
        (sampleBoard ⟨0, 0, fun _ => 0⟩ fun _ _ => 0x5A).gram.picture g.picture :=
  oledShowChar_paints _ _ (sampleBoard ⟨0, 0, fun _ => 0⟩ fun _ _ => 0x5A) 1 0x41 (by decide)
    (by decide) (Or.inl rfl)

end EnvirMonitor.Display
