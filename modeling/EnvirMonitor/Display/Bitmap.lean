import EnvirMonitor.Machine.ArrayReads
import EnvirMonitor.Display.Character

/-! `OLED_ShowBMP`: a byte is eight rows of a column, and the bytes go along a band of eight rows,
then along the next one. -/

namespace EnvirMonitor.Display
open Machine Prog

abbrev ShowBMP := Prog (WithArray Access) (WithArray.Reply Access.Reply U8)

def bmpBits (mode x1 y1 : U8) : ℕ → U8 → U8 → Oled Unit
  | 0, _, _ => pure ()
  | turns + 1, j, tempBMP => do
    oledDrawPiont x1 (y1 + j) (if tempBMP &&& 0x01 ≠ 0 then mode else if mode = 0 then 1 else 0)
    bmpBits mode x1 y1 turns (j + 1) (tempBMP >>> 1)

def bmpBytes (xtemp x2 mode : U8) : ℕ → ℕ → U8 → U8 → ShowBMP Unit
  | 0, _, _, _ => pure ()
  | turns + 1, i, x1, y1 => do
    let tempBMP : U8 ← perform (WithArray.element i)
    onDevice (bmpBits mode x1 y1 8 0 tempBMP)
    if x1 + 1 = x2 then bmpBytes xtemp x2 mode turns (i + 1) xtemp (y1 + 8)
    else bmpBytes xtemp x2 mode turns (i + 1) (x1 + 1) y1

def bmpSize (x1 y1 x2 y2 : U8) : ℕ :=
  (x2.toNat - x1.toNat) *
    ((y2.toNat - y1.toNat) / 8 + if (y2.toNat - y1.toNat) % 8 ≠ 0 then 1 else 0)

def oledShowBMP (x1 y1 x2 y2 mode : U8) : ShowBMP Unit :=
  if x1 > x2 ∨ y1 > y2 then pure ()
  else bmpBytes x1 x2 mode (bmpSize x1 y1 x2 y2) 0 x1 y1

/-! ## One byte -/

def byteDots (mode x1 y1 tempBMP : U8) (turns j : ℕ) : List DrawCall :=
  (List.range' j turns).map (rowDot x1 y1 mode tempBMP.getLsbD)

theorem and_one_ne_zero_iff (temp : U8) : temp &&& 0x01 ≠ 0 ↔ temp.getLsbD 0 = true := by
  revert temp
  decide +kernel

theorem bmpBits_eq (mode x1 y1 tempBMP : U8) (turns j : ℕ) :
    bmpBits mode x1 y1 turns (BitVec.ofNat 8 j) (tempBMP >>> j) =
      drawAll (byteDots mode x1 y1 tempBMP turns j) := by
  induction turns generalizing j with
  | zero => rfl
  | succ turns ih =>
    have hbit : tempBMP >>> j &&& 0x01 ≠ 0 ↔ tempBMP.getLsbD j = true := by
      rw [and_one_ne_zero_iff, BitVec.getLsbD_ushiftRight, Nat.add_zero]
    have hink : (if tempBMP >>> j &&& 0x01 ≠ 0 then mode else if mode = 0 then 1 else 0) =
        inkMode mode (tempBMP.getLsbD j) := if_congr hbit rfl rfl
    unfold byteDots
    rw [bmpBits, hink, ofNat_add_one, ← BitVec.shiftRight_add, ih, List.range'_succ]
    rfl

/-! ## All bytes -/

def bmpDots (mode x1 y1 : U8) (bmp : ℕ → U8) (width i : ℕ) : List DrawCall :=
  byteDots mode (x1 + BitVec.ofNat 8 (i % width)) (y1 + BitVec.ofNat 8 (8 * (i / width))) (bmp i) 8 0

theorem succ_divMod {width i : ℕ} (hwidth : 0 < width) :
    ((i + 1) / width = if i % width + 1 = width then i / width + 1 else i / width) ∧
      ((i + 1) % width = if i % width + 1 = width then 0 else i % width + 1) := by
  have hi := Nat.div_add_mod i width
  have hlt := Nat.mod_lt i hwidth
  apply (Nat.div_mod_unique hwidth).mpr
  split_ifs with hlast
  · rw [Nat.mul_succ]
    omega
  · omega

theorem bmpBits_bmpDots (mode x1 y1 : U8) (bmp : ℕ → U8) (width i : ℕ) :
    bmpBits mode (x1 + BitVec.ofNat 8 (i % width)) (y1 + BitVec.ofNat 8 (8 * (i / width))) 8 0
      (bmp i) = drawAll (bmpDots mode x1 y1 bmp width i) := by
  unfold bmpDots
  rw [← bmpBits_eq, BitVec.ushiftRight_zero]
  rfl

theorem column_end_iff {x1 x2 : U8} (hx : x1.toNat < x2.toNat) {c : ℕ}
    (hc : c < x2.toNat - x1.toNat) :
    x1 + BitVec.ofNat 8 c + 1 = x2 ↔ c + 1 = x2.toNat - x1.toNat := by
  have hlast := x2.isLt
  rw [add_ofNat_succ, ← BitVec.toNat_inj, toNat_add_ofNat (by omega)]
  omega

theorem bmpBytes_next {x1 x2 : U8} (hx : x1.toNat < x2.toNat) (mode y1 : U8) (turns i : ℕ) :
    (if x1 + BitVec.ofNat 8 (i % (x2.toNat - x1.toNat)) + 1 = x2 then
        bmpBytes x1 x2 mode turns (i + 1) x1
          (y1 + BitVec.ofNat 8 (8 * (i / (x2.toNat - x1.toNat))) + 8)
      else
        bmpBytes x1 x2 mode turns (i + 1) (x1 + BitVec.ofNat 8 (i % (x2.toNat - x1.toNat)) + 1)
          (y1 + BitVec.ofNat 8 (8 * (i / (x2.toNat - x1.toNat))))) =
      bmpBytes x1 x2 mode turns (i + 1) (x1 + BitVec.ofNat 8 ((i + 1) % (x2.toNat - x1.toNat)))
        (y1 + BitVec.ofNat 8 (8 * ((i + 1) / (x2.toNat - x1.toNat)))) := by
  have hwidth : 0 < x2.toNat - x1.toNat := Nat.sub_pos_of_lt hx
  obtain ⟨hdiv, hmod⟩ := succ_divMod (i := i) hwidth
  have hend := column_end_iff hx (Nat.mod_lt i hwidth)
  by_cases hlast : i % (x2.toNat - x1.toNat) + 1 = x2.toNat - x1.toNat
  · have hband : y1 + BitVec.ofNat 8 (8 * (i / (x2.toNat - x1.toNat))) + 8 =
        y1 + BitVec.ofNat 8 (8 * (i / (x2.toNat - x1.toNat) + 1)) := by
      rw [Nat.mul_succ, BitVec.ofNat_add, ← BitVec.add_assoc]
      rfl
    have hleft : x1 + BitVec.ofNat 8 0 = x1 := BitVec.add_zero x1
    rw [if_pos (hend.mpr hlast), hdiv, hmod, if_pos hlast, if_pos hlast, hleft, hband]
  · rw [if_neg fun h => hlast (hend.mp h), hdiv, hmod, if_neg hlast, if_neg hlast, add_ofNat_succ]

theorem run_bmpBytes (panel : Panel) (mode : U8) {x1 x2 : U8} (y1 : U8)
    (hx : x1.toNat < x2.toNat) (bmp : ℕ → U8) (turns i : ℕ) (b : Board) (reads : List ℕ) :
    ∃ g, (bmpBytes x1 x2 mode turns i (x1 + BitVec.ofNat 8 (i % (x2.toNat - x1.toNat)))
        (y1 + BitVec.ofNat 8 (8 * (i / (x2.toNat - x1.toNat))))).run
          (Device.withArray (board panel) bmp) (b, reads) =
        some ((), ({ b with gram := g }, reads ++ List.range' i turns)) ∧
      g.picture = writeCells DrawCall.pixel DrawCall.lit b.gram.picture
        ((List.range' i turns).flatMap (bmpDots mode x1 y1 bmp (x2.toNat - x1.toNat))) := by
  induction turns generalizing i b reads with
  | zero =>
    refine ⟨b.gram, ?_, rfl⟩
    rw [List.range'_zero, List.append_nil]
    rfl
  | succ turns ih =>
    obtain ⟨g, hdots, hfirst⟩ := run_drawAll panel b (bmpDots mode x1 y1 bmp (x2.toNat - x1.toNat) i)
    obtain ⟨g', hrest, hpicture⟩ := ih (i + 1) { b with gram := g } (reads ++ [i])
    refine ⟨g', ?_, ?_⟩
    · rw [← bmpBits_bmpDots] at hdots
      rw [bmpBytes, run_element_bind, run_onDevice_bind hdots, bmpBytes_next hx, hrest,
        List.append_assoc, List.range'_succ]
      rfl
    · rw [hpicture, hfirst, List.range'_succ, List.flatMap_cons]
      exact List.foldl_append.symm

/-! ## The picture -/

/-- Bit `k` of the byte for column `c` of the band `r` shows `8 * r + k` rows below `y1`, and all
other pixels are as before. -/
structure BandsPainted (x1 y1 mode : U8) (bmp : ℕ → U8) (width bands : ℕ) (before after : Picture) :
    Prop where
  cell : ∀ r < bands, ∀ c < width, ∀ k < 8, ∀ p : Fin 128 × Fin 64, (p.1 : ℕ) = x1.toNat + c →
    (p.2 : ℕ) = y1.toNat + 8 * r + k →
      after p = decide (inkMode mode ((bmp (r * width + c)).getLsbD k) ≠ 0)
  rest : ∀ p : Fin 128 × Fin 64, (¬ ∃ r < bands, ∃ c < width, ∃ k < 8, (p.1 : ℕ) = x1.toNat + c ∧
    (p.2 : ℕ) = y1.toNat + 8 * r + k) → after p = before p

theorem mem_bmpDots {mode x1 y1 : U8} {bmp : ℕ → U8} {width i : ℕ} {call : DrawCall} :
    call ∈ bmpDots mode x1 y1 bmp width i ↔ ∃ k < 8,
      call = rowDot (x1 + BitVec.ofNat 8 (i % width)) (y1 + BitVec.ofNat 8 (8 * (i / width))) mode
        (bmp i).getLsbD k := by
  unfold bmpDots byteDots
  rw [← List.range_eq_range']
  simp only [List.mem_map, List.mem_range, eq_comm]

theorem pixel_bmpDot {x1 y1 : U8} (mode : U8) (ink : ℕ → Bool) {c s k : ℕ} (hx : x1.toNat + c < 256)
    (hy : y1.toNat + s + k < 256) (p : Fin 128 × Fin 64) :
    (rowDot (x1 + BitVec.ofNat 8 c) (y1 + BitVec.ofNat 8 s) mode ink k).pixel = some p ↔
      (p.1 : ℕ) = x1.toNat + c ∧ (p.2 : ℕ) = y1.toNat + s + k := by
  have hband : (y1 + BitVec.ofNat 8 s).toNat = y1.toNat + s := toNat_add_ofNat (by omega)
  have hdot := pixel_rowDot mode ink hx (y := y1 + BitVec.ofNat 8 s) (j := k) (by omega) p
  rw [hband] at hdot
  exact hdot

theorem painted_bmpDots {x1 y1 : U8} (mode : U8) (bmp : ℕ → U8) {width bands : ℕ}
    (hx : x1.toNat + width ≤ 256) (hy : y1.toNat + 8 * bands ≤ 256) (before : Picture) :
    BandsPainted x1 y1 mode bmp width bands before
      (writeCells DrawCall.pixel DrawCall.lit before
        ((List.range (width * bands)).flatMap (bmpDots mode x1 y1 bmp width))) := by
  have hplace {i : ℕ} (hi : i < width * bands) : i % width < width ∧ i / width < bands :=
    ⟨Nat.mod_lt i (Nat.pos_of_ne_zero fun h => by simp [h] at hi), Nat.div_lt_of_lt_mul hi⟩
  constructor
  · intro r hr c hc k hk p hpx hpy
    obtain ⟨hdiv, hmod⟩ := (Nat.div_mod_unique (show 0 < width by omega)).mpr
      ⟨(show c + width * r = r * width + c by rw [Nat.mul_comm, Nat.add_comm]), hc⟩
    have hi : r * width + c < width * bands := by
      rw [Nat.mul_comm width bands, ← Nat.div_lt_iff_lt_mul (by omega), hdiv]
      exact hr
    apply writeCells_of_agree
    · refine ⟨_, List.mem_flatMap.mpr ⟨_, List.mem_range.mpr hi, mem_bmpDots.mpr ⟨k, hk, rfl⟩⟩, ?_⟩
      rw [hdiv, hmod]
      exact (pixel_bmpDot mode _ (by omega) (by omega) p).mpr ⟨hpx, hpy⟩
    · intro call hcall hpixel
      obtain ⟨i, hi, hdot⟩ := List.mem_flatMap.mp hcall
      obtain ⟨k', hk', rfl⟩ := mem_bmpDots.mp hdot
      obtain ⟨hcol, hband⟩ := hplace (List.mem_range.mp hi)
      obtain ⟨hpx', hpy'⟩ := (pixel_bmpDot mode _ (by omega) (by omega) p).mp hpixel
      have hsame : i = r * width + c := by
        have hsum := Nat.div_add_mod i width
        have hr' : i / width = r := by omega
        have hc' : i % width = c := by omega
        rw [← hsum, hr', hc', Nat.mul_comm]
      obtain rfl : k' = k := by omega
      rw [hsame]
      rfl
  · intro p hp
    apply writeCells_of_forall_ne
    intro call hcall hpixel
    obtain ⟨i, hi, hdot⟩ := List.mem_flatMap.mp hcall
    obtain ⟨k, hk, rfl⟩ := mem_bmpDots.mp hdot
    obtain ⟨hcol, hband⟩ := hplace (List.mem_range.mp hi)
    exact hp ⟨i / width, hband, i % width, hcol, k, hk,
      (pixel_bmpDot mode _ (by omega) (by omega) p).mp hpixel⟩

theorem bmpSize_eq (x1 y1 x2 y2 : U8) :
    bmpSize x1 y1 x2 y2 = (x2.toNat - x1.toNat) * ((y2.toNat - y1.toNat + 7) / 8) := by
  unfold bmpSize
  congr 1
  split_ifs <;> omega

theorem run_oledShowBMP (panel : Panel) (b : Board) {x1 y1 x2 y2 : U8} (mode : U8) (bmp : ℕ → U8)
    (hx : x1.toNat ≤ x2.toNat) (hy : y1.toNat ≤ y2.toNat) (hbottom : y2.toNat ≤ 64) :
    ∃ g, (oledShowBMP x1 y1 x2 y2 mode).run (Device.withArray (board panel) bmp) (b, []) =
        some ((), ({ b with gram := g }, List.range (bmpSize x1 y1 x2 y2))) ∧
      BandsPainted x1 y1 mode bmp (x2.toNat - x1.toNat) ((y2.toNat - y1.toNat + 7) / 8)
        b.gram.picture g.picture := by
  have hcorners : ¬ (x1 > x2 ∨ y1 > y2) :=
    not_or.mpr ⟨BitVec.not_lt.mpr (BitVec.le_def.mpr hx), BitVec.not_lt.mpr (BitVec.le_def.mpr hy)⟩
  have hright := x2.isLt
  have hwidth : x1.toNat + (x2.toNat - x1.toNat) ≤ 256 := by omega
  have hbands : y1.toNat + 8 * ((y2.toNat - y1.toNat + 7) / 8) ≤ 256 := by omega
  have hpainted := painted_bmpDots mode bmp hwidth hbands b.gram.picture
  rw [← bmpSize_eq] at hpainted
  rw [oledShowBMP, if_neg hcorners]
  rcases Nat.lt_or_eq_of_le hx with hlt | heq
  · have hstart (c : U8) : c + BitVec.ofNat 8 0 = c := BitVec.add_zero c
    obtain ⟨g, hrun, hpicture⟩ := run_bmpBytes panel mode y1 hlt bmp (bmpSize x1 y1 x2 y2) 0 b []
    rw [Nat.zero_mod, Nat.zero_div, Nat.mul_zero, hstart, hstart, ← List.range_eq_range'] at hrun
    rw [← List.range_eq_range'] at hpicture
    rw [← hpicture] at hpainted
    exact ⟨g, hrun, hpainted⟩
  · have hsize : bmpSize x1 y1 x2 y2 = 0 := by
      rw [bmpSize, heq, Nat.sub_self, Nat.zero_mul]
    rw [hsize] at hpainted ⊢
    exact ⟨b.gram, rfl, hpainted⟩

/-! ## Inside the rectangle and outside -/

def InRectangle (x1 y1 x2 y2 : U8) (p : Fin 128 × Fin 64) : Prop :=
  x1.toNat ≤ p.1 ∧ (p.1 : ℕ) < x2.toNat ∧ y1.toNat ≤ p.2 ∧ (p.2 : ℕ) < y2.toNat

structure BmpShown (x1 y1 x2 y2 mode : U8) (bmp : List U8) (before after : Picture) : Prop where
  inside : ∀ r c k, k < 8 → ∀ p, InRectangle x1 y1 x2 y2 p → (p.1 : ℕ) = x1.toNat + c →
    (p.2 : ℕ) = y1.toNat + 8 * r + k →
      after p = decide (inkMode mode ((bmp.getD (r * (x2.toNat - x1.toNat) + c) 0).getLsbD k) ≠ 0)
  outside : ∀ p, ¬ InRectangle x1 y1 x2 y2 p → after p = before p

/-- The bytes of `bmp` are read once each, in their order, and shown. -/
def ShowsBMP (panel : Panel) (b : Board) (x1 y1 x2 y2 mode : U8) (bmp : List U8) : Prop :=
  ∃ g, (oledShowBMP x1 y1 x2 y2 mode).run
      (Device.withArray (board panel) fun i => bmp.getD i 0) (b, []) =
        some ((), ({ b with gram := g }, List.range bmp.length)) ∧
    BmpShown x1 y1 x2 y2 mode bmp b.gram.picture g.picture

/-- Where the last band reaches below the rectangle, the screen already shows its bits. -/
def SpillsNothing (x1 y1 x2 y2 mode : U8) (bmp : List U8) (before : Picture) : Prop :=
  ∀ r < (y2.toNat - y1.toNat + 7) / 8, ∀ c < x2.toNat - x1.toNat, ∀ k < 8,
    ∀ p : Fin 128 × Fin 64, (p.1 : ℕ) = x1.toNat + c → (p.2 : ℕ) = y1.toNat + 8 * r + k →
      y2.toNat ≤ p.2 →
        before p = decide (inkMode mode ((bmp.getD (r * (x2.toNat - x1.toNat) + c) 0).getLsbD k) ≠ 0)

theorem bmpShown_iff {x1 y1 x2 y2 mode : U8} {bmp : List U8} {before after : Picture}
    (hpainted : BandsPainted x1 y1 mode (fun i => bmp.getD i 0) (x2.toNat - x1.toNat)
      ((y2.toNat - y1.toNat + 7) / 8) before after) :
    BmpShown x1 y1 x2 y2 mode bmp before after ↔ SpillsNothing x1 y1 x2 y2 mode bmp before := by
  constructor
  · intro h r hr c hc k hk p hpx hpy hbelow
    rw [← h.outside p fun hp => absurd hp.2.2.2 (not_lt.mpr hbelow)]
    exact hpainted.cell r hr c hc k hk p hpx hpy
  · intro h
    constructor
    · intro r c k hk p hp hpx hpy
      obtain ⟨-, hright, -, hbottom⟩ := hp
      exact hpainted.cell r (by omega) c (by omega) k hk p hpx hpy
    · intro p hp
      by_cases hband : ∃ r < (y2.toNat - y1.toNat + 7) / 8, ∃ c < x2.toNat - x1.toNat, ∃ k < 8,
          (p.1 : ℕ) = x1.toNat + c ∧ (p.2 : ℕ) = y1.toNat + 8 * r + k
      · obtain ⟨r, hr, c, hc, k, hk, hpx, hpy⟩ := hband
        have hbelow : y2.toNat ≤ p.2 := by
          by_contra habove
          exact hp ⟨by omega, by omega, by omega, by omega⟩
        rw [h r hr c hc k hk p hpx hpy hbelow]
        exact hpainted.cell r hr c hc k hk p hpx hpy
      · exact hpainted.rest p hband

theorem getD_replicate_zero (n i : ℕ) : (List.replicate n (0 : U8)).getD i 0 = 0 := by
  rw [List.getD_eq_getElem?_getD, List.getElem?_replicate]
  split_ifs <;> rfl

/-- For every bitmap and every picture: a whole number of bands, no column, or a rectangle down to
the last row. -/
theorem spillsNothing_forall_iff {x1 y1 x2 y2 : U8} (mode : U8) (hx : x1.toNat ≤ x2.toNat)
    (hright : x2.toNat ≤ 128) (hy : y1.toNat ≤ y2.toNat) (hbottom : y2.toNat ≤ 64) :
    (∀ (bmp : List U8) before, bmp.length = bmpSize x1 y1 x2 y2 →
        SpillsNothing x1 y1 x2 y2 mode bmp before) ↔
      (y2.toNat - y1.toNat) % 8 = 0 ∨ x1.toNat = x2.toNat ∨ y2.toNat = 64 := by
  constructor
  · intro h
    by_contra hnone
    rw [not_or, not_or] at hnone
    obtain ⟨hpart, hwidth, hlast⟩ := hnone
    -- below the first column of a bitmap without bits, on a screen that shows the opposite
    let p : Fin 128 × Fin 64 := (⟨x1.toNat, by omega⟩, ⟨y2.toNat, by omega⟩)
    have hrow : (p.2 : ℕ) = y1.toNat + 8 * ((y2.toNat - y1.toNat) / 8) + (y2.toNat - y1.toNat) % 8 := by
      show y2.toNat = _
      omega
    have hsame := h (List.replicate _ 0) (fun _ => !decide (inkMode mode false ≠ 0))
      List.length_replicate ((y2.toNat - y1.toNat) / 8) (by omega) 0 (by omega)
      ((y2.toNat - y1.toNat) % 8) (Nat.mod_lt _ (by norm_num)) p rfl hrow le_rfl
    rw [getD_replicate_zero, BitVec.ofNat_eq_ofNat, BitVec.getLsbD_zero] at hsame
    exact absurd hsame (Bool.not_ne_self _)
  · intro h bmp before _ r hr c hc k hk p hpx hpy hbelow
    have hrow := p.2.isLt
    rcases h with heven | hwidth | hlast <;> omega

section
variable {panel : Panel} {b : Board} {x1 y1 x2 y2 : U8} {mode : U8} {bmp : List U8}
  (hx : x1.toNat ≤ x2.toNat) (hy : y1.toNat ≤ y2.toNat) (hbottom : y2.toNat ≤ 64)
include hx hy hbottom

theorem spillsNothing_of_shows (h : ShowsBMP panel b x1 y1 x2 y2 mode bmp) :
    SpillsNothing x1 y1 x2 y2 mode bmp b.gram.picture := by
  obtain ⟨g, hrun, hshown⟩ := h
  obtain ⟨g', hrun', hpainted⟩ := run_oledShowBMP panel b mode (fun i => bmp.getD i 0) hx hy hbottom
  rw [hrun] at hrun'
  obtain rfl : g = g' := congrArg (fun r => r.2.1.gram) (Option.some.inj hrun')
  exact (bmpShown_iff hpainted).mp hshown

theorem shows_of_spillsNothing
    (hbmp : bmp.length = (x2.toNat - x1.toNat) * ((y2.toNat - y1.toNat + 7) / 8))
    (h : SpillsNothing x1 y1 x2 y2 mode bmp b.gram.picture) :
    ShowsBMP panel b x1 y1 x2 y2 mode bmp := by
  obtain ⟨g, hrun, hpainted⟩ := run_oledShowBMP panel b mode (fun i => bmp.getD i 0) hx hy hbottom
  rw [bmpSize_eq, ← hbmp] at hrun
  exact ⟨g, hrun, (bmpShown_iff hpainted).mpr h⟩

end

/-- Every rectangle down to the last row at most, and every bitmap of its size. -/
theorem oledShowBMP_shows_iff (panel : Panel) (b : Board) (x1 y1 x2 y2 mode : U8) (bmp : List U8)
    (hx : x1.toNat ≤ x2.toNat) (hy : y1.toNat ≤ y2.toNat) (hbottom : y2.toNat ≤ 64)
    (hbmp : bmp.length = (x2.toNat - x1.toNat) * ((y2.toNat - y1.toNat + 7) / 8)) :
    ShowsBMP panel b x1 y1 x2 y2 mode bmp ↔
      SpillsNothing x1 y1 x2 y2 mode bmp b.gram.picture :=
  ⟨spillsNothing_of_shows hx hy hbottom, shows_of_spillsNothing hx hy hbottom hbmp⟩

/-- A column of twelve rows in two bytes, on a screen that shows the last bits already. -/
theorem oledShowBMP_shows_sample :
    ShowsBMP ⟨128, le_rfl⟩ (sampleBoard ⟨0, 0, fun _ => 0⟩ fun _ _ => 0) 3 0 4 12 1 [0xFF, 0x0F] ↔
      SpillsNothing 3 0 4 12 1 [0xFF, 0x0F]
        (sampleBoard ⟨0, 0, fun _ => 0⟩ fun _ _ => 0).gram.picture :=
  oledShowBMP_shows_iff ⟨128, le_rfl⟩ (sampleBoard ⟨0, 0, fun _ => 0⟩ fun _ _ => 0) 3 0 4 12 1
    [0xFF, 0x0F] (by decide) (by decide) (by decide) rfl

/-- A rectangle of one pixel, and a byte whose other bits are set too. -/
theorem oledShowBMP_spills :
    ¬ ShowsBMP ⟨128, le_rfl⟩ (sampleBoard ⟨0, 0, fun _ => 0⟩ fun _ _ => 0) 0 0 1 1 1 [0xFF] := by
  intro h
  have hspill := spillsNothing_of_shows (by decide) (by decide) (by decide) h 0 (by decide) 0
    (by decide) 1 (by decide) (0, 1) rfl rfl (by decide)
  exact absurd hspill (by decide)

end EnvirMonitor.Display
